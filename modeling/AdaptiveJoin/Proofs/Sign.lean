import AdaptiveJoin.Score
import Mathlib

/-!
# Numbers that are not negative

Sums, products, quotients and roots of floating-point numbers are negative only if an argument is,
whatever is rounded, too large or not a number.  Every operation unpacks its arguments, computes,
and packs the result; packing keeps the sign (`sign?_unpack_pack`), so each operation is a case
analysis on unpacked numbers.

* `zero_le_iff`: a number is at least 0 unless it is negative.
* `not_add_lt_zero`, `not_mul_lt_zero`, `not_div_toFloat_lt_zero`, `not_sqrt_lt_zero`: what is
  computed from numbers that are not negative.
* `zero_le_safeRatio`: the share of a count in a sum is at least 0, and it is a number.
-/

namespace AdaptiveJoin

open Float.Model Float.Model.UnpackedFloat

/-! ### Signs of unpacked numbers -/

/-- The sign of a number; what is not a number has none. -/
def sign? : UnpackedFloat → Option Sign
  | .notANumber => none
  | .infinity s => some s
  | .zero s => some s
  | .finite s _ _ _ => some s

/-- What is not below 0. -/
inductive IsNonneg : UnpackedFloat → Prop
  | notANumber : IsNonneg .notANumber
  | infinity : IsNonneg (.infinity .positive)
  | zero (s : Sign) : IsNonneg (.zero s)
  | finite (m : Nat) (e : Int) (h : 0 < m) : IsNonneg (.finite .positive m e h)

theorem isNonneg_of_sign? {x : UnpackedFloat} (h : sign? x ≠ some .negative) : IsNonneg x := by
  cases x with
  | notANumber => exact .notANumber
  | infinity s => cases s with
    | negative => exact absurd rfl h
    | positive => exact .infinity
  | zero s => exact .zero s
  | finite s m e hm => cases s with
    | negative => exact absurd rfl h
    | positive => exact .finite m e hm

theorem lt_zero_iff {x : Float} : x < 0 ↔ ¬IsNonneg x.toModel.unpack := by
  have hlt : x < 0 ↔ x.toModel.unpack.lt (.zero .positive) = true := decide_eq_true_iff
  rw [hlt]
  cases x.toModel.unpack with
  | notANumber => exact iff_of_false (by decide) fun h => h .notANumber
  | infinity s => cases s with
    | negative => exact iff_of_true rfl nofun
    | positive => exact iff_of_false (by decide) fun h => h .infinity
  | zero s => exact iff_of_false (by cases s <;> decide) fun h => h (.zero s)
  | finite s m e hm => cases s with
    | negative => exact iff_of_true rfl nofun
    | positive => exact iff_of_false Bool.false_ne_true fun h => h (.finite m e hm)

/-- A number is at least 0 unless it is negative. -/
theorem zero_le_iff {x : Float} : 0 ≤ x ↔ x.isNaN = false ∧ ¬x < 0 := by
  have hle : 0 ≤ x ↔ (UnpackedFloat.zero .positive).le x.toModel.unpack = true :=
    decide_eq_true_iff
  rw [hle, lt_zero_iff, not_not]
  show _ ↔ x.toModel.unpack.isNaN = false ∧ _
  cases x.toModel.unpack with
  | notANumber => exact iff_of_false (by decide) fun h => absurd h.1 (by decide)
  | infinity s => cases s with
    | negative => exact iff_of_false (by decide) nofun
    | positive => exact iff_of_true rfl ⟨rfl, .infinity⟩
  | zero s => exact iff_of_true (by cases s <;> rfl) ⟨rfl, .zero s⟩
  | finite s m e hm => cases s with
    | negative => exact iff_of_false Bool.false_ne_true nofun
    | positive => exact iff_of_true rfl ⟨rfl, .finite m e hm⟩

theorem zero_le_of_sign? {x : Float} (h : sign? x.toModel.unpack = some .positive) : 0 ≤ x := by
  rw [zero_le_iff, lt_zero_iff, not_not]
  refine ⟨?_, isNonneg_of_sign? (by rw [h]; exact nofun)⟩
  show x.toModel.unpack.isNaN = false
  cases hx : x.toModel.unpack with
  | notANumber => exact absurd (hx ▸ h) nofun
  | infinity s => rfl
  | zero s => rfl
  | finite s m e hm => rfl

/-! ### Packing keeps the sign -/

/-- Packed components are a finite number unless the exponent is the largest one. -/
theorem unpack_packComponents {s : Sign} {e : BitVec 11} {m : BitVec 52} (h : e ≠ -1#11) :
    sign? (UnpackedFloat.unpack .binary64 (packComponents .binary64 s e m)) = some s ∧
      (UnpackedFloat.unpack .binary64 (packComponents .binary64 s e m)).isFinite = true := by
  unfold UnpackedFloat.unpack
  simp only [unpackExponent_packComponents, unpackMantissa_packComponents,
    unpackSign_packComponents, Sign.ofBitVec_toBitVec]
  rw [if_neg h]
  split
  · split <;> exact ⟨rfl, rfl⟩
  · exact ⟨rfl, rfl⟩

/-- Packing a number rounds it to infinity or to a finite number. -/
theorem unpack_pack_finite (s : Sign) (m : Nat) (e : Int) (hm : 0 < m) :
    sign? (Float.Model.pack (.finite s m e hm)).unpack = some s ∧
      (e ≤ 900 → (Float.Model.pack (.finite s m e hm)).unpack.isFinite = true) := by
  have hbias : (e + Format.binary64.exponentBias + Format.binary64.mantissaBitsWithoutImplicit) =
      e + 1023 + 52 := rfl
  simp only [Float.Model.unpack, Float.Model.pack, UnpackedFloat.pack, hbias]
  split
  · rename_i hlarge
    exact ⟨by cases s <;> rfl, fun he => by omega⟩
  · rename_i hlt
    split
    · -- The biased exponent is smaller than the one of infinity.
      have hne : BitVec.ofNat 11 (e + 1023 + 52).toNat ≠ -1#11 := by
        intro heq
        have := congrArg BitVec.toNat heq
        simp only [BitVec.toNat_ofNat, BitVec.neg_one_eq_allOnes, BitVec.toNat_allOnes] at this
        omega
      exact ⟨(unpack_packComponents hne).1, fun _ => (unpack_packComponents hne).2⟩
    · have hne : (0#11 : BitVec 11) ≠ -1#11 := by decide
      exact ⟨(unpack_packComponents hne).1, fun _ => (unpack_packComponents hne).2⟩

/-- **Packing a number keeps its sign.** -/
theorem sign?_unpack_pack (x : UnpackedFloat) : sign? (Float.Model.pack x).unpack = sign? x := by
  cases x with
  | notANumber => rfl
  | infinity s => cases s <;> rfl
  | zero s => cases s <;> rfl
  | finite s m e hm => exact (unpack_pack_finite s m e hm).1

theorem IsNonneg.unpack_pack {x : UnpackedFloat} (h : IsNonneg x) :
    IsNonneg (Float.Model.pack x).unpack := by
  cases h with
  | zero s => cases s <;> exact .zero _
  | notANumber => exact isNonneg_of_sign? nofun
  | infinity => exact .infinity
  | finite m e hm =>
    apply isNonneg_of_sign?
    rw [sign?_unpack_pack]
    exact nofun

/-! ### Rounding -/

theorem sign?_roundWithAccuracy (s : Sign) (m : Nat) (e : Int) (accuracy : Accuracy) :
    sign? (roundWithAccuracy .binary64 s m e accuracy) = some s := by
  simp only [roundWithAccuracy]
  split <;> rfl

theorem isNonneg_roundWithAccuracy (m : Nat) (e : Int) (accuracy : Accuracy) :
    IsNonneg (roundWithAccuracy .binary64 .positive m e accuracy) := by
  apply isNonneg_of_sign?
  rw [sign?_roundWithAccuracy]
  exact nofun

theorem sign?_normalize {n : Int} (h : 0 ≤ n) (e : Int) :
    sign? (UnpackedFloat.normalize .binary64 n e .positive) = some .positive := by
  unfold UnpackedFloat.normalize
  split
  · rename_i hlt
    rw [Int.compare_eq_lt] at hlt
    omega
  · rfl
  · exact sign?_roundWithAccuracy _ _ _ _

theorem isNonneg_normalize {n : Int} (h : 0 ≤ n) (e : Int) :
    IsNonneg (UnpackedFloat.normalize .binary64 n e .positive) := by
  apply isNonneg_of_sign?
  rw [sign?_normalize h]
  exact nofun

/-! ### Operations on unpacked numbers -/

theorem IsNonneg.add {x y : UnpackedFloat} (hx : IsNonneg x) (hy : IsNonneg y) :
    IsNonneg (UnpackedFloat.add .binary64 x y) := by
  cases hx <;> cases hy
  case zero.zero s s' => cases s <;> cases s' <;> exact .zero _
  case finite.finite m e hm m' e' hm' =>
    exact isNonneg_normalize (Int.add_nonneg (Int.natCast_nonneg _) (Int.natCast_nonneg _)) _
  case zero.finite s m e hm => exact .finite m e hm
  case finite.zero m e hm s => exact .finite m e hm
  all_goals first | exact .notANumber | exact .infinity

theorem IsNonneg.mul {x y : UnpackedFloat} (hx : IsNonneg x) (hy : IsNonneg y) :
    IsNonneg (UnpackedFloat.mul .binary64 x y) := by
  cases hx <;> cases hy
  case finite.finite => exact isNonneg_roundWithAccuracy _ _ _
  all_goals first | exact .notANumber | exact .infinity | exact .zero _

theorem isNonneg_sqrt (x : UnpackedFloat) : IsNonneg (UnpackedFloat.sqrt .binary64 x) := by
  cases x with
  | notANumber => exact .notANumber
  | infinity s => cases s with
    | negative => exact .notANumber
    | positive => exact .infinity
  | zero s => exact .zero s
  | finite s m e hm => cases s with
    | negative => exact .notANumber
    | positive => exact isNonneg_roundWithAccuracy _ _ _

/-- A quotient is not below 0 if the denominator has a positive sign. -/
theorem IsNonneg.div {x y : UnpackedFloat} (hx : IsNonneg x) (hy : sign? y = some .positive) :
    IsNonneg (UnpackedFloat.div .binary64 x y) := by
  cases hx <;> cases y <;> cases hy
  case finite.finite => exact isNonneg_roundWithAccuracy _ _ _
  all_goals first | exact .notANumber | exact .infinity | exact .zero _

theorem eq_of_zero_lt {x : UnpackedFloat} (h : (UnpackedFloat.zero .positive).lt x = true) :
    x = .infinity .positive ∨ ∃ m e hm, x = .finite .positive m e hm := by
  cases x with
  | notANumber => exact absurd h (by decide)
  | zero s => exact absurd h (by cases s <;> decide)
  | infinity s => cases s with
    | negative => exact absurd h (by decide)
    | positive => exact Or.inl rfl
  | finite s m e hm => cases s with
    | negative => exact absurd h Bool.false_ne_true
    | positive => exact Or.inr ⟨m, e, hm, rfl⟩

/-- The quotient of a finite number and a positive one is a number. -/
theorem sign?_div {x y : UnpackedFloat} (hx : sign? x = some .positive)
    (hfinite : x.isFinite = true) (hy : (UnpackedFloat.zero .positive).lt y = true) :
    sign? (UnpackedFloat.div .binary64 x y) = some .positive := by
  cases x with
  | notANumber => exact absurd hx nofun
  | infinity s => exact absurd hfinite nofun
  | zero s =>
    obtain rfl := Option.some.inj hx
    rcases eq_of_zero_lt hy with rfl | ⟨m, e, hm, rfl⟩ <;> rfl
  | finite s m e hm =>
    obtain rfl := Option.some.inj hx
    rcases eq_of_zero_lt hy with rfl | ⟨m', e', hm', rfl⟩
    · rfl
    · exact sign?_roundWithAccuracy _ _ _ _

/-! ### Counts -/

/-- Shifting a mantissa to the right does not enlarge it. -/
theorem mantissa_shiftRight_le (m : ExtendedMantissa) (n : Nat) :
    (m >>> n).mantissa ≤ m.mantissa := by
  induction n with
  | zero => exact Nat.le_refl _
  | succ n ih => exact (Nat.div_le_self _ 2).trans ih

theorem roundedMantissa_le (m : ExtendedMantissa) : m.roundedMantissa ≤ m.mantissa + 1 := by
  unfold ExtendedMantissa.roundedMantissa Accuracy.roundToNearestEven
  split <;> omega

/-- Shifting a mantissa of `k` bits to its place raises the exponent by `k - 52` at most. -/
theorem shiftToTargetExponent_le {m k : Nat} {e : Int} (hm : m < 2 ^ k) (hk : 52 ≤ k)
    (he : -1074 ≤ e) (accuracy : Accuracy) :
    (shiftToTargetExponent .binary64 m e accuracy).1.mantissa ≤ m ∧
      e ≤ (shiftToTargetExponent .binary64 m e accuracy).2 ∧
      (shiftToTargetExponent .binary64 m e accuracy).2 ≤ e + k - 52 := by
  have hlog : m.log2 < k := by
    rcases Nat.eq_zero_or_pos m with rfl | hpos
    · rw [Nat.log2_zero]
      omega
    · exact (Nat.log2_lt hpos.ne').2 hm
  have htarget : Format.binary64.targetExponent (totalExponent m e) =
      max (m.log2 + 1 + e - 53) (-1074) := rfl
  refine ⟨?_, ?_, ?_⟩
  · refine (mantissa_shiftRight_le _ _).trans ?_
    unfold ExtendedMantissa.ofMantissaAndAccuracy
    split <;> exact Nat.le_refl m
  · exact Int.le_add_of_nonneg_right (Int.natCast_nonneg _)
  · show e + ((Format.binary64.targetExponent (totalExponent m e) - e).toNat : Int) ≤ e + k - 52
    rw [htarget]
    omega

/-- Rounding a mantissa of `k` bits raises the exponent by `2 * k` at most. -/
theorem exponent_roundWithAccuracy_le {m k : Nat} {e : Int} (hm : m < 2 ^ k) (hk : 52 ≤ k)
    (he : -1074 ≤ e) {s s' : Sign} {m' : Nat} {e' : Int} {h : 0 < m'} {accuracy : Accuracy}
    (hround : roundWithAccuracy .binary64 s m e accuracy = .finite s' m' e' h) :
    e' ≤ e + 2 * k := by
  obtain ⟨hle, hge, hexponent⟩ := shiftToTargetExponent_le hm hk he accuracy
  have hrounded := roundedMantissa_le (shiftToTargetExponent .binary64 m e accuracy).1
  have hlt : (shiftToTargetExponent .binary64 m e accuracy).1.roundedMantissa < 2 ^ (k + 1) := by
    rw [Nat.pow_succ]
    omega
  obtain ⟨-, -, hexponent'⟩ := shiftToTargetExponent_le hlt (by omega) (he.trans hge) .exact
  simp only [roundWithAccuracy] at hround
  split at hround
  · exact absurd hround nofun
  · obtain ⟨-, -, rfl⟩ := UnpackedFloat.finite.inj hround
    omega

/-- A count has a positive sign. -/
theorem sign?_toFloat (n : UInt64) : sign? n.toFloat.toModel.unpack = some .positive :=
  (sign?_unpack_pack _).trans (sign?_normalize (Int.natCast_nonneg _) 0)

/-- Rounding a mantissa gives no infinity. -/
theorem isFinite_roundWithAccuracy {m k : Nat} {e : Int} (hm : m < 2 ^ k) (hk : 52 ≤ k)
    (he : -1074 ≤ e) (hsmall : e + 2 * k ≤ 900) (s : Sign) (accuracy : Accuracy) :
    (Float.Model.pack (roundWithAccuracy .binary64 s m e accuracy)).unpack.isFinite = true := by
  cases hround : roundWithAccuracy .binary64 s m e accuracy with
  | finite s' m' e' hm' =>
    have := exponent_roundWithAccuracy_le hm hk he hround
    exact (unpack_pack_finite s' m' e' hm').2 (by omega)
  | zero s' => cases s' <;> rfl
  | infinity s' =>
    simp only [roundWithAccuracy] at hround
    split at hround <;> exact absurd hround nofun
  | notANumber =>
    exact absurd ((sign?_roundWithAccuracy s m e accuracy).symm.trans (congrArg sign? hround)) nofun

/-- Counts of 64 bits are rounded to finite numbers. -/
theorem isFinite_round {n : Nat} (hn : n < 2 ^ 64) :
    (Float.Model.pack (UnpackedFloat.round .binary64 .positive n 0)).unpack.isFinite = true := by
  have htarget : Format.binary64.targetExponent (totalExponent n 0) =
      max ((n.log2 : Int) + 1 + 0 - 53) (-1074) := rfl
  simp only [UnpackedFloat.round, UnpackedFloat.decreaseExponent]
  -- The mantissa is filled up to 53 bits.
  generalize hshift : (0 - Format.binary64.targetExponent (totalExponent n 0)).toNat = shift
  have hlt : n <<< shift < 2 ^ 116 := by
    rw [Nat.shiftLeft_eq]
    calc n * 2 ^ shift
      _ < 2 ^ 64 * 2 ^ shift := Nat.mul_lt_mul_of_pos_right hn (Nat.two_pow_pos _)
      _ ≤ 2 ^ 64 * 2 ^ 52 := Nat.mul_le_mul_left _ (Nat.pow_le_pow_right (by omega) (by omega))
      _ = 2 ^ 116 := (Nat.pow_add 2 64 52).symm
  exact isFinite_roundWithAccuracy hlt (by omega) (by omega) (by omega) _ _

/-- A count is finite. -/
theorem isFinite_toFloat (n : UInt64) : n.toFloat.toModel.unpack.isFinite = true := by
  show (Float.Model.pack
    (UnpackedFloat.normalize .binary64 n.toNat 0 .positive)).unpack.isFinite = true
  unfold UnpackedFloat.normalize
  split
  · rename_i hlt
    rw [Int.compare_eq_lt] at hlt
    omega
  · rfl
  · exact isFinite_round n.toNat_lt

/-! ### Operations -/

variable {x y : Float}

theorem not_add_lt_zero (hx : ¬x < 0) (hy : ¬y < 0) : ¬x + y < 0 := by
  rw [lt_zero_iff, not_not] at *
  exact (hx.add hy).unpack_pack

theorem not_mul_lt_zero (hx : ¬x < 0) (hy : ¬y < 0) : ¬x * y < 0 := by
  rw [lt_zero_iff, not_not] at *
  exact (hx.mul hy).unpack_pack

theorem not_sqrt_lt_zero (x : Float) : ¬x.sqrt < 0 := by
  rw [lt_zero_iff, not_not]
  exact (isNonneg_sqrt _).unpack_pack

theorem not_div_toFloat_lt_zero (hx : ¬x < 0) (n : UInt64) : ¬x / n.toFloat < 0 := by
  rw [lt_zero_iff, not_not] at *
  exact (hx.div (sign?_toFloat n)).unpack_pack

/-- Minus infinity is below every number that is not negative. -/
theorem neg_infinity_lt (hx : 0 ≤ x) : -1 / 0 < x := by
  rw [zero_le_iff, lt_zero_iff, not_not] at hx
  obtain ⟨hnumber, hx⟩ := hx
  have hinfinity : (-1 / 0 : Float).toModel.unpack = .infinity .negative := rfl
  have hlt : (-1 / 0 : Float) < x ↔
      (-1 / 0 : Float).toModel.unpack.lt x.toModel.unpack = true := decide_eq_true_iff
  rw [hlt, hinfinity]
  change x.toModel.unpack.isNaN = false at hnumber
  cases hx' : x.toModel.unpack with
  | notANumber => exact absurd (hx' ▸ hnumber) (by decide)
  | infinity s =>
    rw [hx'] at hx
    cases hx
    rfl
  | zero s => rfl
  | finite s m e hm => cases s <;> rfl

/-- **The share of a count is at least 0.** -/
theorem zero_le_safeRatio (n : UInt64) (x : Float) : 0 ≤ safeRatio n.toFloat x := by
  unfold safeRatio
  split
  · rename_i hpos
    have hlt : 0 < x ↔ (UnpackedFloat.zero .positive).lt x.toModel.unpack = true :=
      decide_eq_true_iff
    apply zero_le_of_sign?
    refine (sign?_unpack_pack _).trans ?_
    exact sign?_div (sign?_toFloat n) (isFinite_toFloat n) (hlt.1 hpos)
  · decide

end AdaptiveJoin
