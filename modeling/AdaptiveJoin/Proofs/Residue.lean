/-!
# The next number of a residue class

Rows and places are dealt out to workers by their residue modulo the number of workers.
`i + (w + n - i % n) % n` is the first number from `i` on that belongs to worker `w` of `n`.
-/

namespace AdaptiveJoin

/-- The distance from `i` to the next number of residue `w`. -/
theorem residue_distance {i w n : Nat} (hw : w < n) :
    (w + n - i % n) % n = if i % n ≤ w then w - i % n else w + n - i % n := by
  have hi := Nat.mod_lt i (show 0 < n by omega)
  split
  · rw [show w + n - i % n = w - i % n + n by omega, Nat.add_mod_right,
      Nat.mod_eq_of_lt (by omega)]
  · exact Nat.mod_eq_of_lt (by omega)

theorem nextOfResidue_mod {i w n : Nat} (hw : w < n) :
    (i + (w + n - i % n) % n) % n = w := by
  have hi := Nat.mod_lt i (show 0 < n by omega)
  rw [Nat.add_mod, Nat.mod_mod, residue_distance hw]
  split
  · rw [show i % n + (w - i % n) = w by omega, Nat.mod_eq_of_lt hw]
  · rw [show i % n + (w + n - i % n) = w + n by omega, Nat.add_mod_right, Nat.mod_eq_of_lt hw]

/-- No number of residue `w` lies before the next one. -/
theorem nextOfResidue_le {i w n k : Nat} (hw : w < n) (hik : i ≤ k) (hk : k % n = w) :
    i + (w + n - i % n) % n ≤ k := by
  have hdiv := Nat.div_le_div_right (c := n) hik
  have hi := Nat.div_add_mod i n
  have hk' := Nat.div_add_mod k n
  rw [residue_distance hw]
  split
  · have := Nat.mul_le_mul_left n hdiv
    omega
  · -- The quotients differ: with the same quotient `k` would lie before `i`.
    have hne : i / n ≠ k / n := by
      intro heq
      rw [heq] at hi
      omega
    have := Nat.mul_le_mul_left n (show i / n + 1 ≤ k / n by omega)
    rw [Nat.mul_add] at this
    omega

/-- A round that starts anywhere meets every number. -/
theorem exists_add_mod_eq {n i : Nat} (h : i < n) (offset : Nat) :
    ∃ k < n, (offset + k) % n = i := by
  refine ⟨(i + (n - offset % n)) % n, Nat.mod_lt _ (by omega), ?_⟩
  have hmod := Nat.mod_lt offset (show 0 < n by omega)
  have hsum : offset + (i + (n - offset % n)) = i + n * (offset / n + 1) := by
    have := Nat.div_add_mod offset n
    rw [Nat.mul_add, Nat.mul_one]
    omega
  rw [Nat.add_mod_mod, hsum, Nat.add_mul_mod_self_left, Nat.mod_eq_of_lt h]

end AdaptiveJoin
