import Mathlib.Algebra.Order.Ring.Nat
import Mathlib.Order.Monotone.Basic
import AdaptiveJoin.Double.Basic

/-!
# Integers among the doubles

The value of a finite double is a multiple of the smallest positive one, `2 ^ -1074`, and it grows
with the magnitude of the pattern (`Double.strictMono_multiple`).  So patterns are told apart by the
natural numbers that they are multiples by:

* an integral double is the multiple of its integer (`Double.multiple_of_toInt?`);
* an integer of magnitude less than `2 ^ 53` becomes the double of its own value
  (`Double.multiple_roundMagnitude`), any other one a double that is larger than all of those
  (`Double.le_multiple_roundMagnitude`).

An integer and an integral double thus compare equal iff they are the same integer, unless both are
`2 ^ 53` or more in magnitude (`Double.compare?_ofInt64_eq_iff`).  There the nearest double may be
that of another integer.
-/

namespace AdaptiveJoin

namespace Double

/-! ### Magnitudes as multiples -/

/-- The value of a finite magnitude as a multiple of the smallest positive double. -/
def multiple (magnitude : Nat) : Nat :=
  (if magnitude / exponentUnit = 0 then magnitude % exponentUnit
    else exponentUnit + magnitude % exponentUnit) * 2 ^ (max (magnitude / exponentUnit) 1 - 1)

theorem multiple_magnitude (d : Double) :
    multiple d.magnitude = d.significand * 2 ^ (d.scale - 1) := rfl

/-- With exponent field `e + 1`. -/
theorem multiple_add {r : Nat} (e : Nat) (hr : r ≤ exponentUnit) :
    multiple ((e + 1) * exponentUnit + r) = (exponentUnit + r) * 2 ^ e := by
  have hpos : 0 < exponentUnit := by decide
  unfold multiple
  rcases Nat.lt_or_eq_of_le hr with hlt | rfl
  · rw [Nat.add_comm _ r, Nat.add_mul_div_right _ _ hpos, Nat.add_mul_mod_self_right,
      Nat.div_eq_of_lt hlt, Nat.mod_eq_of_lt hlt, Nat.zero_add, if_neg (Nat.succ_ne_zero e),
      Nat.max_eq_left (Nat.succ_pos e), Nat.succ_sub_one]
  · rw [← Nat.succ_mul, Nat.mul_div_cancel _ hpos, Nat.mul_mod_left, if_neg (Nat.succ_ne_zero _),
      Nat.max_eq_left (Nat.succ_pos _), Nat.succ_sub_one, Nat.add_zero, pow_succ, ← Nat.two_mul,
      Nat.mul_comm (2 ^ e), ← Nat.mul_assoc, Nat.mul_comm exponentUnit]

/-- A subnormal magnitude, and the smallest one that is not. -/
theorem multiple_of_le {r : Nat} (hr : r ≤ exponentUnit) : multiple r = r := by
  rcases Nat.lt_or_eq_of_le hr with hlt | rfl
  · unfold multiple
    rw [Nat.div_eq_of_lt hlt, Nat.mod_eq_of_lt hlt, if_pos rfl, Nat.max_eq_right (Nat.zero_le 1)]
    exact Nat.mul_one r
  · rfl

/-- **Larger magnitudes are larger multiples.** -/
theorem strictMono_multiple : StrictMono multiple := by
  refine strictMono_nat_of_lt_succ fun m => ?_
  have hsplit := Nat.div_add_mod' m exponentUnit
  have hlt : m % exponentUnit < exponentUnit := Nat.mod_lt m (by decide)
  generalize m % exponentUnit = r at *
  cases hfield : m / exponentUnit with
  | zero =>
    obtain rfl : r = m := by rw [← hsplit, hfield, Nat.zero_mul, Nat.zero_add]
    rw [multiple_of_le hlt.le, multiple_of_le hlt]
    exact Nat.lt_succ_self r
  | succ e =>
    rw [hfield] at hsplit
    rw [← hsplit, multiple_add e hlt.le, Nat.add_assoc, multiple_add e hlt]
    exact Nat.mul_lt_mul_of_pos_right (Nat.lt_succ_self _) (Nat.two_pow_pos e)

/-! ### Doubles of integers -/

/-- An integral double is the multiple of its integer. -/
theorem multiple_of_toInt? {d : Double} {i : Int} (h : d.toInt? = some i) :
    multiple d.magnitude = i.natAbs * 2 ^ 1074 ∧
      i = if d.isNegative then -(i.natAbs : Int) else i.natAbs := by
  have hscale : 1 ≤ d.scale := Nat.le_max_right _ _
  have hsigned (n : Nat) (hi : i = if d.isNegative then -(n : Int) else n) :
      i.natAbs = n ∧ i = if d.isNegative then -(i.natAbs : Int) else i.natAbs := by
    have hn : i.natAbs = n := by
      rw [hi]
      split <;> simp
    exact ⟨hn, hn.symm ▸ hi⟩
  unfold toInt? at h
  dsimp only at h
  rw [multiple_magnitude]
  split at h
  · exact absurd h (by simp)
  · split at h
    · -- The significand is shifted to the left.
      rename_i hle
      obtain ⟨hn, hi⟩ := hsigned _ (Option.some.inj h).symm
      refine ⟨?_, hi⟩
      unfold scaleBias at hn hle
      rw [hn, Nat.shiftLeft_eq, Nat.mul_assoc, ← pow_add]
      congr 2
      omega
    · -- The significand is shifted to the right, past zeros.
      rename_i hlt
      split at h
      · rename_i hmod
        obtain ⟨hn, hi⟩ := hsigned _ (Option.some.inj h).symm
        refine ⟨?_, hi⟩
        unfold scaleBias at hn hlt hmod
        rw [Nat.one_shiftLeft] at hn hmod
        have hdvd := Nat.div_mul_cancel (Nat.dvd_of_mod_eq_zero hmod)
        rw [hn, ← hdvd, Nat.mul_div_cancel _ (Nat.two_pow_pos _), Nat.mul_assoc, ← pow_add]
        congr 2
        omega
      · exact absurd h (by simp)

/-- The magnitude of a natural number that is not 0, by its leading bit. -/
theorem roundMagnitude_eq {m : Nat} (hm : m ≠ 0) : roundMagnitude m =
    (m.log2 + 1022) * exponentUnit +
      if m.log2 ≤ 52 then m * 2 ^ (52 - m.log2) else roundQuotient m (m.log2 - 52) := by
  unfold roundMagnitude
  rw [if_neg hm]
  dsimp only
  rw [Nat.shiftLeft_eq]

/-- **A natural number below `2 ^ 53` becomes the double of its own value.** -/
theorem multiple_roundMagnitude {m : Nat} (hm : m < 2 ^ 53) :
    multiple (roundMagnitude m) = m * 2 ^ 1074 := by
  by_cases hzero : m = 0
  · subst hzero
    rw [Nat.zero_mul]
    rfl
  have htop : m.log2 ≤ 52 := Nat.le_of_lt_succ ((Nat.log2_lt hzero).2 hm)
  have hlo := Nat.mul_le_mul_right (2 ^ (52 - m.log2)) (Nat.log2_self_le hzero)
  have hhi := Nat.mul_lt_mul_of_pos_right (Nat.lt_log2_self (n := m))
    (Nat.two_pow_pos (52 - m.log2))
  rw [← pow_add, Nat.add_sub_cancel' htop] at hlo
  rw [← pow_add, Nat.add_right_comm, Nat.add_sub_cancel' htop] at hhi
  have hunit : exponentUnit = 2 ^ 52 := rfl
  obtain ⟨r, hr⟩ := Nat.exists_eq_add_of_le (hunit ▸ hlo)
  rw [roundMagnitude_eq hzero, if_pos htop, hr, ← Nat.add_assoc, ← Nat.succ_mul,
    multiple_add _ (by omega), ← hr, Nat.mul_assoc, ← pow_add,
    show 52 - m.log2 + (m.log2 + 1022) = 1074 by omega]

theorem le_roundQuotient (m s : Nat) : m / 2 ^ s ≤ roundQuotient m s := by
  unfold roundQuotient
  rw [Nat.one_shiftLeft]
  dsimp only
  split
  · exact Nat.le_succ _
  · exact Nat.le_refl _

theorem roundQuotient_le (m s : Nat) : roundQuotient m s ≤ m / 2 ^ s + 1 := by
  unfold roundQuotient
  rw [Nat.one_shiftLeft]
  dsimp only
  split
  · exact Nat.le_refl _
  · exact Nat.le_succ _

/-- Any other natural number becomes a larger double. -/
theorem le_multiple_roundMagnitude {m : Nat} (hm : 2 ^ 53 ≤ m) :
    2 ^ 53 * 2 ^ 1074 ≤ multiple (roundMagnitude m) := by
  have hzero : m ≠ 0 := by omega
  have htop : 53 ≤ m.log2 := (Nat.le_log2 hzero).2 hm
  have hlead : exponentUnit ≤ roundQuotient m (m.log2 - 52) := by
    refine Nat.le_trans ?_ (le_roundQuotient _ _)
    rw [Nat.le_div_iff_mul_le (Nat.two_pow_pos _), show exponentUnit = 2 ^ 52 from rfl, ← pow_add,
      Nat.add_sub_cancel' (by omega)]
    exact Nat.log2_self_le hzero
  have hmono := Nat.mul_le_mul_right exponentUnit (Nat.add_le_add_right htop 1022)
  have hleast : multiple ((1075 + 1) * exponentUnit) = 2 ^ 53 * 2 ^ 1074 := by
    rw [← Nat.add_zero (_ * _), multiple_add 1075 (Nat.zero_le _), Nat.add_zero,
      show exponentUnit = 2 ^ 52 from rfl, ← pow_add, ← pow_add]
  rw [← hleast]
  apply strictMono_multiple.monotone
  rw [roundMagnitude_eq hzero, if_neg (by omega)]
  omega

theorem roundMagnitude_lt {m : Nat} (hm : m < 2 ^ 64) : roundMagnitude m < infinityMagnitude := by
  by_cases hzero : m = 0
  · subst hzero
    decide
  have hlog : m.log2 < 64 := (Nat.log2_lt hzero).2 hm
  have haligned : (if m.log2 ≤ 52 then m * 2 ^ (52 - m.log2)
      else roundQuotient m (m.log2 - 52)) ≤ 2 * exponentUnit := by
    have hhi := Nat.lt_log2_self (n := m)
    split
    · rename_i htop
      -- All binary digits fit into the significand.
      have hlt := Nat.mul_lt_mul_of_pos_right hhi (Nat.two_pow_pos (52 - m.log2))
      rw [← pow_add, Nat.add_right_comm, Nat.add_sub_cancel' htop] at hlt
      exact hlt.le
    · -- Rounding may carry into one more digit, but not into two.
      refine (roundQuotient_le _ _).trans ?_
      rw [Nat.succ_le_iff, Nat.div_lt_iff_lt_mul (Nat.two_pow_pos _),
        show 2 * exponentUnit = 2 ^ 53 from rfl, ← pow_add]
      convert hhi using 2
      omega
  rw [roundMagnitude_eq hzero]
  unfold infinityMagnitude
  have := Nat.mul_le_mul_right exponentUnit (show m.log2 + 1022 ≤ 1085 by omega)
  have hpos : 0 < exponentUnit := by decide
  omega

/-! ### Comparison -/

section OfParts

variable {negative : Bool} {m : Nat} (hm : m < signUnit)

include hm

theorem magnitude_ofParts : (ofParts negative m).magnitude = m := by
  unfold signUnit at hm
  unfold magnitude ofParts signUnit
  rw [UInt64.toNat_ofNat']
  split <;> omega

theorem isNegative_ofParts : (ofParts negative m).isNegative = negative := by
  unfold signUnit at hm
  unfold isNegative ofParts signUnit
  rw [UInt64.toNat_ofNat']
  cases negative
  · simp only [Bool.false_eq_true, ↓reduceIte, decide_eq_false_iff_not]
    omega
  · simp only [↓reduceIte, decide_eq_true_eq]
    omega

end OfParts

theorem not_isNaN_of_toInt? {d : Double} {i : Int} (h : d.toInt? = some i) : d.isNaN = false := by
  unfold toInt? at h
  dsimp only at h
  split at h
  · exact absurd h (by simp)
  · rename_i hfinite
    unfold isFinite at hfinite
    unfold isNaN
    simp only [Bool.not_eq_true', decide_eq_false_iff_not, not_not] at hfinite ⊢
    omega

/-- The magnitude that an integer is rounded to is that of a finite double. -/
theorem roundMagnitude_natAbs_lt (i : Int64) :
    roundMagnitude i.toInt.natAbs < infinityMagnitude := by
  have hlo := i.le_toInt
  have hhi := i.toInt_lt
  exact roundMagnitude_lt (by omega)

theorem infinityMagnitude_lt_signUnit : infinityMagnitude < signUnit := by decide

/-- The double of an integer is a number. -/
theorem isNaN_ofInt64 (i : Int64) : (ofInt64 i).isNaN = false := by
  have hlt := roundMagnitude_natAbs_lt i
  unfold isNaN ofInt64
  rw [magnitude_ofParts (hlt.trans infinityMagnitude_lt_signUnit), decide_eq_false_iff_not]
  omega

/-- **An integer and an integral double that are not both large compare equal iff they are the same
integer.** -/
theorem compare?_ofInt64_eq_iff {x : Int64} {d : Double} {i : Int} (h : d.toInt? = some i)
    (hsmall : x.toInt.natAbs < 2 ^ 53 ∨ i.natAbs < 2 ^ 53) :
    (ofInt64 x).compare? d = some .eq ↔ x.toInt = i := by
  obtain ⟨hmultiple, hsign⟩ := multiple_of_toInt? h
  have hx := (roundMagnitude_natAbs_lt x).trans infinityMagnitude_lt_signUnit
  -- The magnitudes agree iff the integers do.
  have hmag : roundMagnitude x.toInt.natAbs = d.magnitude ↔ x.toInt.natAbs = i.natAbs := by
    rw [← strictMono_multiple.injective.eq_iff, hmultiple]
    by_cases hexact : x.toInt.natAbs < 2 ^ 53
    · rw [multiple_roundMagnitude hexact, Nat.mul_left_inj (Nat.two_pow_pos _).ne']
    · have hlarge := le_multiple_roundMagnitude (Nat.not_lt.1 hexact)
      have hlt := Nat.mul_lt_mul_of_pos_right (hsmall.resolve_left hexact) (Nat.two_pow_pos 1074)
      exact iff_of_false (by omega) (by omega)
  have hzero : d.magnitude = 0 ↔ i.natAbs = 0 := by
    rw [← strictMono_multiple.injective.eq_iff, hmultiple, multiple_of_le (Nat.zero_le _),
      Nat.mul_eq_zero, or_iff_left (Nat.two_pow_pos _).ne']
  have hrank : (ofInt64 x).compare? d = some .eq ↔ (ofInt64 x).rank = d.rank := by
    unfold compare?
    rw [isNaN_ofInt64, not_isNaN_of_toInt? h, Bool.false_or, if_neg Bool.false_ne_true,
      Option.some.injEq, Std.compare_eq_iff_eq]
  rw [hrank, rank, rank, ofInt64, isNegative_ofParts hx, magnitude_ofParts hx]
  generalize roundMagnitude x.toInt.natAbs = m at hmag ⊢
  cases hneg : d.isNegative <;>
    simp only [hneg, ↓reduceIte, Bool.false_eq_true, decide_eq_true_eq] at hsign ⊢ <;>
    split <;> omega

end Double

end AdaptiveJoin
