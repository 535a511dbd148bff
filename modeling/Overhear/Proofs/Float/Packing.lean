import Overhear.Proofs.Float.Exactness
import Overhear.Proofs.Float.Signs

/-! What a floating-point number amounts to. Packing keeps the size of a number, or makes it infinite when it
does not fit, and numbers compare as their sizes do. -/
namespace Overhear.Floating

open Float.Model (Format UnpackedFloat totalExponent)
open Float.Model.UnpackedFloat

variable {mantissa : ℕ} {exponent : ℤ} {u v : UnpackedFloat} {x y : Float} {q r : WithTop ℚ}

theorem Canonical.late (canonical : Canonical mantissa exponent) : -1074 ≤ exponent := by
  unfold Canonical at canonical
  omega

theorem Canonical.log_le (canonical : Canonical mantissa exponent) : mantissa.log2 ≤ 52 := by
  unfold Canonical at canonical
  omega

theorem Canonical.log_eq (canonical : Canonical mantissa exponent) (normal : -1074 < exponent) :
    mantissa.log2 = 52 := by
  unfold Canonical at canonical
  omega

theorem Canonical.digits (canonical : Canonical mantissa exponent) : mantissa < 2 ^ 53 :=
  Nat.lt_log2_self.trans_le (Nat.pow_le_pow_right two_pos (Nat.succ_le_succ canonical.log_le))

theorem Canonical.full (canonical : Canonical mantissa exponent) (positive : 0 < mantissa)
    (normal : -1074 < exponent) : 2 ^ 52 ≤ mantissa := by
  rw [← canonical.log_eq normal]
  exact Nat.log2_self_le positive.ne'

theorem finite_congr {sign : Sign} {other : ℕ} {shifted : ℤ} {positive : 0 < mantissa} {filled : 0 < other}
    (same : mantissa = other) (level : exponent = shifted) :
    UnpackedFloat.finite sign mantissa exponent positive = .finite sign other shifted filled := by
  subst same level
  rfl

theorem toNat_leading (digits : BitVec 52) : (1#1 ++ digits).toNat = 2 ^ 52 + digits.toNat := by
  rw [BitVec.toNat_append, ← Nat.shiftLeft_add_eq_or_of_lt digits.isLt]
  rfl

theorem unpack_normal {sign : Sign} {biased : BitVec 11} {digits : BitVec 52} (finite : biased ≠ -1#11)
    (normal : biased ≠ 0#11) (filled : 0 < 2 ^ 52 + digits.toNat) :
    unpack .binary64 (packComponents .binary64 sign biased digits) =
      .finite sign (2 ^ 52 + digits.toNat) (biased.toNat - 1075) filled := by
  unfold unpack
  simp only [unpackExponent_packComponents, unpackMantissa_packComponents, unpackSign_packComponents,
    Sign.ofBitVec_toBitVec, if_neg finite, if_neg normal]
  exact finite_congr (toNat_leading digits) rfl

theorem unpack_subnormal {sign : Sign} {digits : BitVec 52} (filled : 0 < digits.toNat) :
    unpack .binary64 (packComponents .binary64 sign 0#11 digits) =
      .finite sign digits.toNat (-1074) filled := by
  have some : digits ≠ 0#52 := fun none => by simp [none] at filled
  unfold unpack
  simp only [unpackExponent_packComponents, unpackMantissa_packComponents, unpackSign_packComponents,
    Sign.ofBitVec_toBitVec, if_neg (show (0#11 : BitVec 11) ≠ -1#11 by decide), if_true, dif_neg some]
  exact finite_congr rfl rfl

theorem unpack_pack_of_fits {sign : Sign} (canonical : Canonical mantissa exponent) (positive : 0 < mantissa)
    (fits : exponent ≤ 971) :
    unpack .binary64 (pack .binary64 (.finite sign mantissa exponent positive)) =
      .finite sign mantissa exponent positive := by
  have late := canonical.late
  have digits := canonical.digits
  obtain ⟨biased, shift⟩ : ∃ biased : ℕ, (biased : ℤ) = exponent + 1075 :=
    ⟨(exponent + 1075).toNat, by omega⟩
  have bias : (exponent + (Format.binary64.exponentBias : ℕ) +
      (Format.binary64.mantissaBitsWithoutImplicit : ℕ)).toNat = biased := by
    simp only [Format.exponentBias]
    norm_num
    omega
  have stored : (BitVec.ofNat 11 biased).toNat = biased := by
    rw [BitVec.toNat_ofNat, Nat.mod_eq_of_lt (by omega)]
  unfold pack
  dsimp only
  rw [bias, if_neg (by omega)]
  -- A number with 53 digits is stored without the first; with fewer it is subnormal and stored as it is.
  split
  · rename_i full
    have low : 2 ^ 52 ≤ mantissa := by
      refine (Nat.le_log2 positive.ne').mp ?_
      simp only [Format.mantissaBits] at full
      omega
    have dropped : 2 ^ 52 + (BitVec.ofNat 52 mantissa).toNat = mantissa := by
      rw [BitVec.toNat_ofNat]
      omega
    rw [unpack_normal (fun ones => ?_) (fun zeros => ?_) (by omega)]
    · exact finite_congr dropped (by omega)
    · have greatest : biased = 2047 := stored.symm.trans (congrArg BitVec.toNat ones)
      omega
    · have least : biased = 0 := stored.symm.trans (congrArg BitVec.toNat zeros)
      omega
  · rename_i short
    have latest : exponent = -1074 := by
      refine le_antisymm (not_lt.mp fun normal => short ?_) late
      rw [canonical.log_eq normal]
      rfl
    have high : mantissa < 2 ^ 52 := by
      refine (Nat.log2_lt positive.ne').mp ?_
      have := canonical.log_le
      simp only [Format.mantissaBits] at short
      omega
    have kept : (BitVec.ofNat 52 mantissa).toNat = mantissa := by
      rw [BitVec.toNat_ofNat, Nat.mod_eq_of_lt high]
    rw [unpack_subnormal (by omega)]
    exact finite_congr kept latest.symm

theorem unpack_packedInfinity (sign : Sign) :
    unpack .binary64 (packedInfinity .binary64 sign) = .infinity sign := by
  unfold unpack packedInfinity
  simp only [unpackExponent_packComponents, unpackMantissa_packComponents, unpackSign_packComponents,
    Sign.ofBitVec_toBitVec, if_true]
  rfl

theorem unpack_pack_of_exceeds {sign : Sign} (positive : 0 < mantissa) (exceeds : 971 < exponent) :
    unpack .binary64 (pack .binary64 (.finite sign mantissa exponent positive)) = .infinity sign := by
  have large : 2 ^ 11 ≤ (exponent + (Format.binary64.exponentBias : ℕ) +
      (Format.binary64.mantissaBitsWithoutImplicit : ℕ)).toNat + 1 := by
    simp only [Format.exponentBias]
    norm_num
    omega
  unfold pack
  dsimp only
  rw [if_pos large, unpack_packedInfinity]

/-- The first power of two that is too large. -/
def limit : ℚ := 2 ^ (1024 : ℤ)

theorem limit_pos : 0 < limit := two_zpow_pos 1024

/-- What a size becomes when it is stored: infinite from the limit on. -/
def stored (q : WithTop ℚ) : WithTop ℚ := if q < (limit : WithTop ℚ) then q else ⊤

theorem Canonical.lt_limit_iff (canonical : Canonical mantissa exponent) (positive : 0 < mantissa) :
    mantissa * 2 ^ exponent < limit ↔ exponent ≤ 971 := by
  constructor
  · intro small
    by_contra exceeds
    have full : (2 : ℚ) ^ (52 : ℤ) ≤ mantissa := by
      exact_mod_cast canonical.full positive (by omega)
    have high : (2 : ℚ) ^ (972 : ℤ) ≤ 2 ^ exponent := zpow_le_zpow_right₀ one_le_two (by omega)
    refine small.not_ge ?_
    calc limit = 2 ^ (52 : ℤ) * 2 ^ (972 : ℤ) := (zpow_add₀ two_ne_zero 52 972)
      _ ≤ mantissa * 2 ^ exponent :=
        mul_le_mul full high (two_zpow_pos _).le (Nat.cast_nonneg _)
  · intro fits
    have digits : (mantissa : ℚ) < 2 ^ (53 : ℤ) := by exact_mod_cast canonical.digits
    have low : (2 : ℚ) ^ exponent ≤ 2 ^ (971 : ℤ) := zpow_le_zpow_right₀ one_le_two fits
    calc (mantissa * 2 ^ exponent : ℚ) < 2 ^ (53 : ℤ) * 2 ^ exponent :=
          mul_lt_mul_of_pos_right digits (two_zpow_pos _)
      _ ≤ 2 ^ (53 : ℤ) * 2 ^ (971 : ℤ) := mul_le_mul_of_nonneg_left low (two_zpow_pos _).le
      _ = limit := (zpow_add₀ two_ne_zero 53 971).symm

theorem Denotes.stored (denotes : Denotes u q) :
    Denotes (unpack .binary64 (pack .binary64 u)) (stored q) := by
  cases denotes with
  | zero sign =>
    rw [pack, unpack_packedZero, Floating.stored, if_pos (WithTop.coe_pos.mpr limit_pos)]
    exact .zero sign
  | infinity =>
    rw [pack, unpack_packedInfinity, Floating.stored, if_neg (by simp)]
    exact .infinity
  | @finite mantissa exponent canonical positive =>
    unfold Floating.stored
    by_cases fits : exponent ≤ 971
    · have small := (canonical.lt_limit_iff positive).mpr fits
      rw [unpack_pack_of_fits canonical positive fits, if_pos (WithTop.coe_lt_coe.mpr small)]
      exact .finite canonical positive
    · have large := mt (canonical.lt_limit_iff positive).mp fits
      rw [unpack_pack_of_exceeds positive (not_le.mp fits), if_neg (mt WithTop.coe_lt_coe.mp large)]
      exact .infinity

/-- What is packed has all its digits. -/
theorem canonical_of_unpack {b : BitVec Format.binary64.numBits} {sign : Sign} {positive : 0 < mantissa}
    (unpacked : unpack .binary64 b = .finite sign mantissa exponent positive) :
    Canonical mantissa exponent := by
  have bias : ((Format.binary64.exponentBias : ℕ) + (Format.binary64.mantissaBitsWithoutImplicit : ℕ) : ℤ) =
      1075 := rfl
  unfold unpack at unpacked
  dsimp only at unpacked
  rw [bias] at unpacked
  split at unpacked
  · split at unpacked <;> cases unpacked
  · split at unpacked
    · rename_i zeros
      split at unpacked
      · cases unpacked
      · rename_i some
        obtain ⟨-, rfl, rfl⟩ := UnpackedFloat.finite.inj unpacked
        have least : (unpackExponent b).toNat = 0 := congrArg BitVec.toNat zeros
        have short : (unpackMantissa b).toNat.log2 < 52 :=
          (Nat.log2_lt positive.ne').mpr (unpackMantissa b).isLt
        unfold Canonical
        omega
    · rename_i normal
      obtain ⟨-, rfl, rfl⟩ := UnpackedFloat.finite.inj unpacked
      have filled : (unpackExponent b).toNat ≠ 0 := fun least => normal (BitVec.eq_of_toNat_eq least)
      have digits : (unpackMantissa b).toNat < 2 ^ 52 := (unpackMantissa b).isLt
      have log : (1#1 ++ unpackMantissa b).toNat.log2 = 52 := by
        rw [Nat.log2_eq_iff positive.ne', toNat_leading]
        exact ⟨by omega, by omega⟩
      unfold Canonical
      omega

theorem Canonical.lt_of_lt {other : ℕ} {level : ℤ} (canonical : Canonical mantissa exponent)
    (full : Canonical other level) (filled : 0 < other) (below : exponent < level) :
    (mantissa * 2 ^ exponent : ℚ) < other * 2 ^ level := by
  have digits : (mantissa : ℚ) < 2 ^ (53 : ℤ) := by exact_mod_cast canonical.digits
  have large : (2 : ℚ) ^ (52 : ℤ) ≤ other := by
    exact_mod_cast full.full filled (canonical.late.trans_lt below)
  calc (mantissa * 2 ^ exponent : ℚ) < 2 ^ (53 : ℤ) * 2 ^ exponent :=
        mul_lt_mul_of_pos_right digits (two_zpow_pos _)
    _ = 2 ^ (53 + exponent) := (zpow_add₀ two_ne_zero ..).symm
    _ ≤ 2 ^ (52 + level) := zpow_le_zpow_right₀ one_le_two (by omega)
    _ = 2 ^ (52 : ℤ) * 2 ^ level := zpow_add₀ two_ne_zero ..
    _ ≤ other * 2 ^ level := mul_le_mul_of_nonneg_right large (two_zpow_pos _).le

/-- With all digits there, the exponents decide first. -/
theorem Canonical.compare_eq {other : ℕ} {level : ℤ} (canonical : Canonical mantissa exponent)
    (positive : 0 < mantissa) (full : Canonical other level) (filled : 0 < other) :
    (compare exponent level).then (compare mantissa other) =
      compare (mantissa * 2 ^ exponent : ℚ) (other * 2 ^ level) := by
  rcases lt_trichotomy exponent level with below | rfl | above
  · rw [compare_lt_iff_lt.mpr below, compare_lt_iff_lt.mpr (canonical.lt_of_lt full filled below)]
    rfl
  · rw [compare_eq_iff_eq.mpr rfl, Ordering.eq_then]
    rcases lt_trichotomy mantissa other with fewer | rfl | more
    · have size : (mantissa * 2 ^ exponent : ℚ) < other * 2 ^ exponent :=
        mul_lt_mul_of_pos_right (by exact_mod_cast fewer) (two_zpow_pos _)
      rw [compare_lt_iff_lt.mpr fewer, compare_lt_iff_lt.mpr size]
    · rw [compare_eq_iff_eq.mpr rfl, compare_eq_iff_eq.mpr rfl]
    · have size : (other * 2 ^ exponent : ℚ) < mantissa * 2 ^ exponent :=
        mul_lt_mul_of_pos_right (by exact_mod_cast more) (two_zpow_pos _)
      rw [compare_gt_iff_gt.mpr more, compare_gt_iff_gt.mpr size]
  · rw [compare_gt_iff_gt.mpr above, compare_gt_iff_gt.mpr (full.lt_of_lt canonical positive above)]
    rfl

theorem size_pos (positive : 0 < mantissa) (exponent : ℤ) : (0 : ℚ) < mantissa * 2 ^ exponent :=
  mul_pos (by exact_mod_cast positive) (two_zpow_pos exponent)

theorem compare_coe (a b : ℚ) : compare (a : WithTop ℚ) b = compare a b := by
  rcases lt_trichotomy a b with below | rfl | above
  · rw [compare_lt_iff_lt.mpr below, compare_lt_iff_lt.mpr (WithTop.coe_lt_coe.mpr below)]
  · rw [compare_eq_iff_eq.mpr rfl, compare_eq_iff_eq.mpr rfl]
  · rw [compare_gt_iff_gt.mpr above, compare_gt_iff_gt.mpr (WithTop.coe_lt_coe.mpr above)]

theorem Denotes.compare_eq (first : Denotes u q) (second : Denotes v r) :
    u.compare v = some (compare q r) := by
  cases first with
  | zero sign =>
    cases second with
    | zero => exact congrArg some (compare_eq_iff_eq.mpr rfl).symm
    | @finite other level full filled =>
      exact congrArg some (compare_lt_iff_lt.mpr (WithTop.coe_pos.mpr (size_pos filled level))).symm
    | infinity => exact congrArg some (compare_lt_iff_lt.mpr (WithTop.coe_lt_top 0)).symm
  | @finite mantissa exponent canonical positive =>
    cases second with
    | zero =>
      exact congrArg some (compare_gt_iff_gt.mpr (WithTop.coe_pos.mpr (size_pos positive exponent))).symm
    | finite full filled =>
      exact congrArg some ((canonical.compare_eq positive full filled).trans (compare_coe _ _).symm)
    | infinity => exact congrArg some (compare_lt_iff_lt.mpr (WithTop.coe_lt_top _)).symm
  | infinity =>
    cases second with
    | zero => exact congrArg some (compare_gt_iff_gt.mpr (WithTop.coe_lt_top 0)).symm
    | finite full filled => exact congrArg some (compare_gt_iff_gt.mpr (WithTop.coe_lt_top _)).symm
    | infinity => exact congrArg some (compare_eq_iff_eq.mpr rfl).symm

/-- The number is not negative and has this size. -/
def Amounts (x : Float) (q : WithTop ℚ) : Prop := Denotes (parts x) q

theorem Denotes.nonneg (denotes : Denotes u q) : 0 ≤ q := by
  cases denotes with
  | zero => exact le_rfl
  | @finite mantissa exponent canonical positive => exact (WithTop.coe_pos.mpr (size_pos positive exponent)).le
  | infinity => exact le_top

theorem Amounts.le_iff (first : Amounts x q) (second : Amounts y r) : x ≤ y ↔ q ≤ r := by
  rw [Floating.le_iff, first.compare_eq second, Option.some_inj, Option.some_inj, compare_lt_iff_lt,
    compare_eq_iff_eq, le_iff_lt_or_eq]

theorem Amounts.lt_iff (first : Amounts x q) (second : Amounts y r) : x < y ↔ q < r := by
  rw [Floating.lt_iff, first.compare_eq second, Option.some_inj, compare_lt_iff_lt]

theorem Amounts.isFinite_iff (amounts : Amounts x q) : x.isFinite = true ↔ q ≠ ⊤ := by
  change (parts x).isFinite = true ↔ q ≠ ⊤
  unfold Amounts at amounts
  generalize parts x = u at amounts
  cases amounts with
  | zero => exact iff_of_true rfl WithTop.zero_ne_top
  | finite => exact iff_of_true rfl (WithTop.coe_ne_top)
  | infinity => exact iff_of_false nofun (not_not_intro rfl)

theorem Amounts.isNaN_eq (amounts : Amounts x q) : x.isNaN = false := by
  change (parts x).isNaN = false
  unfold Amounts at amounts
  generalize parts x = u at amounts
  cases amounts <;> rfl

theorem amounts_zero : Amounts 0 0 := Denotes.zero .positive

/-- A power of two as a size. -/
def power (e : ℤ) : WithTop ℚ := ((2 ^ e : ℚ) : WithTop ℚ)

theorem power_pos (e : ℤ) : 0 < power e := WithTop.coe_pos.mpr (two_zpow_pos e)

theorem power_mul (e f : ℤ) : power e * power f = power (e + f) := by
  rw [power, power, ← WithTop.coe_mul, ← zpow_add₀ two_ne_zero]
  rfl

theorem amounts_of_power {e : ℤ}
    (number : parts x = .finite .positive (2 ^ 52) (e - 52) (Nat.two_pow_pos 52)) :
    Amounts x (power e) := by
  have size : ((2 ^ 52 : ℕ) * 2 ^ (e - 52) : ℚ) = 2 ^ e := by
    rw [Nat.cast_pow, Nat.cast_two, ← zpow_natCast, ← zpow_add₀ two_ne_zero]
    congr 1
    omega
  rw [Amounts, number, power, ← size]
  exact .finite (canonical_of_unpack number) _

theorem amounts_one : Amounts 1 1 := by
  have number : Amounts 1 (power 0) := amounts_of_power rfl
  rwa [power, zpow_zero] at number

/-- What is not below a number that is not negative is such a number itself. -/
theorem Amounts.exists_of_le (amounts : Amounts x q) (le : x ≤ y) : ∃ r, Amounts y r := by
  rw [Floating.le_iff] at le
  unfold Amounts at amounts ⊢
  generalize parts x = u at amounts le
  cases number : parts y with
  | notANumber => cases amounts <;> simp [number, UnpackedFloat.compare] at le
  | infinity sign =>
    cases sign with
    | positive => exact ⟨⊤, .infinity⟩
    | negative => cases amounts <;> simp [number, UnpackedFloat.compare] at le
  | zero sign => exact ⟨0, .zero sign⟩
  | finite sign mantissa exponent positive =>
    cases sign with
    | positive => exact ⟨_, .finite (canonical_of_unpack number) positive⟩
    | negative => cases amounts <;> simp [number, UnpackedFloat.compare] at le

theorem exists_amounts (nonneg : 0 ≤ x) : ∃ q, Amounts x q := amounts_zero.exists_of_le nonneg

theorem Amounts.exists_of_lt (amounts : Amounts x q) (lt : x < y) : ∃ r, Amounts y r ∧ q < r := by
  obtain ⟨r, above⟩ := amounts.exists_of_le (Floating.le_iff.mpr (.inl (Floating.lt_iff.mp lt)))
  exact ⟨r, above, (amounts.lt_iff above).mp lt⟩

theorem exists_amounts_of_finite (finite : x.isFinite = true) (above : ¬ x ≤ 0) :
    ∃ a : ℚ, Amounts x a ∧ 0 < a := by
  have number : x.isNaN = false := by
    change (parts x).isFinite = true at finite
    change (parts x).isNaN = false
    cases parts_eq : parts x with
    | notANumber => simp [parts_eq, UnpackedFloat.isFinite] at finite
    | _ => rfl
  have positive : 0 < x := by
    rcases not_le_iff.mp above with positive | none | none
    · exact positive
    · cases amounts_zero.isNaN_eq.symm.trans none
    · cases number.symm.trans none
  obtain ⟨q, amounts, above⟩ := amounts_zero.exists_of_lt positive
  obtain ⟨a, rfl⟩ := WithTop.ne_top_iff_exists.mp (amounts.isFinite_iff.mp finite)
  exact ⟨a, amounts, WithTop.coe_pos.mp above⟩

end Overhear.Floating
