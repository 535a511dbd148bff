import Overhear.Proofs.Float.Rounding

/-! What rounding does to floating-point numbers. A mantissa with the two bits after it tells where an exact
number lies; shifting keeps that, and in the end the exact number is rounded to its last place. -/
namespace Overhear.Floating

open Float.Model (Format UnpackedFloat totalExponent)
open Float.Model.UnpackedFloat

variable {x : ℚ} {em : ExtendedMantissa} {mantissa : ℕ} {exponent : ℤ}

/-- The mantissa is what stands before the point, the first bit is the half after it, and the second tells
whether anything is left. -/
def Represents (em : ExtendedMantissa) (x : ℚ) : Prop :=
  ∃ rest, 0 ≤ rest ∧ rest < 1 / 2 ∧ (rest = 0 ↔ em.stickyBit = false) ∧
    x = em.mantissa + (if em.roundBit then 1 / 2 else 0) + rest

theorem represents_exact (mantissa : ℕ) : Represents (.ofMantissaAndAccuracy mantissa .exact) mantissa :=
  ⟨0, le_rfl, by norm_num, iff_of_true rfl rfl, by simp [ExtendedMantissa.ofMantissaAndAccuracy]⟩

theorem represents_fraction {num den : ℕ} (mantissa : ℕ) (proper : num < den) :
    Represents (.ofMantissaAndAccuracy mantissa (accuracyOfFraction num den)) (mantissa + num / den) := by
  have den_pos : (0 : ℚ) < den := by exact_mod_cast (Nat.zero_le num).trans_lt proper
  unfold accuracyOfFraction
  split
  · rename_i none
    have exact := represents_exact mantissa
    simpa [none] using exact
  · rename_i some
    have num_pos : (0 : ℚ) < num := by exact_mod_cast Nat.pos_of_ne_zero some
    have share_pos : (0 : ℚ) < num / den := div_pos num_pos den_pos
    have share_lt : (num / den : ℚ) < 1 := (div_lt_one den_pos).mpr (by exact_mod_cast proper)
    have half : (2 * num / den : ℚ) = 2 * (num / den) := by ring
    cases order : compare (2 * num) den with
    | lt =>
      have below : (2 * num / den : ℚ) < 1 :=
        (div_lt_one den_pos).mpr (by exact_mod_cast Nat.compare_eq_lt.mp order)
      exact ⟨num / den, share_pos.le, by linarith, iff_of_false share_pos.ne' nofun,
        by simp [ExtendedMantissa.ofMantissaAndAccuracy]⟩
    | eq =>
      have middle : (2 * num / den : ℚ) = 1 :=
        (div_eq_one_iff_eq den_pos.ne').mpr (by exact_mod_cast Nat.compare_eq_eq.mp order)
      exact ⟨0, le_rfl, by norm_num, iff_of_true rfl rfl, by
        simp only [ExtendedMantissa.ofMantissaAndAccuracy, if_true]
        linarith⟩
    | gt =>
      have above : 1 < (2 * num / den : ℚ) :=
        (one_lt_div den_pos).mpr (by exact_mod_cast Nat.compare_eq_gt.mp order)
      refine ⟨num / den - 1 / 2, by linarith, by linarith, iff_of_false (by linarith) nofun, ?_⟩
      simp only [ExtendedMantissa.ofMantissaAndAccuracy, if_true]
      ring

theorem Represents.floor (represents : Represents em x) : ⌊x⌋₊ = em.mantissa := by
  obtain ⟨rest, nonneg, small, -, rfl⟩ := represents
  rw [Nat.floor_eq_iff (by positivity)]
  split <;> constructor <;> linarith

theorem Represents.nearestEven_eq (represents : Represents em x) :
    nearestEven x = em.roundedMantissa := by
  unfold nearestEven
  rw [represents.floor]
  obtain ⟨rest, nonneg, small, exact, rfl⟩ := represents
  obtain ⟨mantissa, round, sticky⟩ := em
  cases round
  · have low : (mantissa + (if false = true then 1 / 2 else 0) + rest : ℚ) < mantissa + 1 / 2 := by
      simpa using small
    rw [if_pos low]
    cases sticky <;> rfl
  · rw [if_pos rfl]
    cases sticky
    · rw [exact.mpr rfl, add_zero, if_neg (lt_irrefl _), if_pos rfl]
      rfl
    · have some : 0 < rest := nonneg.lt_of_ne' (mt exact.mp nofun)
      rw [if_neg (by simpa using nonneg), if_neg (by simpa using some.ne')]
      rfl

/-- The digit that is shifted out becomes the first of the two bits, and what was there the second. -/
theorem Represents.shiftRightOne (represents : Represents em x) :
    Represents em.shiftRightOne (x / 2) := by
  obtain ⟨rest, nonneg, small, exact, rfl⟩ := represents
  have digits : (em.mantissa : ℚ) = 2 * (em.mantissa / 2 : ℕ) + (em.mantissa % 2 : ℕ) := by
    exact_mod_cast (Nat.div_add_mod em.mantissa 2).symm
  refine ⟨((if em.roundBit then 1 / 2 else 0) + rest) / 2, ?_, ?_, ?_, ?_⟩
  · split <;> linarith
  · split <;> linarith
  · unfold ExtendedMantissa.shiftRightOne
    cases em.roundBit
    · simp [exact]
    · refine iff_of_false ?_ nofun
      rw [if_pos rfl]
      linarith
  · have digit : (if em.shiftRightOne.roundBit then 1 / 2 else 0 : ℚ) = (em.mantissa % 2 : ℕ) / 2 := by
      unfold ExtendedMantissa.shiftRightOne
      rcases Nat.mod_two_eq_zero_or_one em.mantissa with digit | digit <;> rw [digit] <;> norm_num
    rw [digit, show em.shiftRightOne.mantissa = em.mantissa / 2 from rfl]
    linarith

theorem Represents.shiftRight (represents : Represents em x) (count : ℕ) :
    Represents (em >>> count) (x / 2 ^ count) := by
  induction count with
  | zero =>
    rw [pow_zero, div_one]
    exact represents
  | succ count ih =>
    rw [pow_succ, ← div_div]
    exact ih.shiftRightOne

theorem targetExponent_eq (total : ℤ) : Format.binary64.targetExponent total = max (total - 53) (-1074) := by
  unfold Format.targetExponent
  simp only [Format.mantissaBits, Format.minExponent]
  norm_num

theorem targetExponent_totalExponent (mantissa : ℕ) (exponent : ℤ) :
    Format.binary64.targetExponent (totalExponent mantissa exponent) =
      max (mantissa.log2 + exponent - 52) (-1074) := by
  rw [targetExponent_eq, totalExponent]
  omega

/-- The mantissa has 53 digits, or fewer before the latest of places. -/
def Canonical (mantissa : ℕ) (exponent : ℤ) : Prop :=
  exponent = max (mantissa.log2 + exponent - 52 : ℤ) (-1074)

/-- A number that is not negative, infinity included, and its size. -/
inductive Denotes : UnpackedFloat → WithTop ℚ → Prop where
  | zero (sign : Sign) : Denotes (.zero sign) 0
  | finite {mantissa : ℕ} {exponent : ℤ} (canonical : Canonical mantissa exponent)
      (positive : 0 < mantissa) :
      Denotes (.finite .positive mantissa exponent positive) ((mantissa * 2 ^ exponent : ℚ) : WithTop ℚ)
  | infinity : Denotes (.infinity .positive) ⊤

theorem log_of_floor {q : ℚ} (floor : ⌊q / 2 ^ exponent⌋₊ = mantissa) (filled : 0 < mantissa) :
    Int.log 2 q = mantissa.log2 + exponent := by
  have above : 1 ≤ q / 2 ^ exponent := Nat.floor_pos.mp (floor ▸ filled)
  have log := log_mul_zpow (zero_lt_one.trans_le above) exponent
  rwa [div_mul_cancel₀ _ (two_zpow_pos _).ne', Int.log_of_one_le_right 2 above, floor,
    ← Nat.log2_eq_log_two] at log

/-- The exponent that a mantissa is shifted to is that of the last place. -/
theorem targetExponent_eq_lastPlace {q : ℚ} {accuracy : Accuracy} (positive : 0 < q)
    (located : Represents (.ofMantissaAndAccuracy mantissa accuracy) (q / 2 ^ exponent))
    (early : exponent ≤ Format.binary64.targetExponent (totalExponent mantissa exponent)) :
    Format.binary64.targetExponent (totalExponent mantissa exponent) = lastPlace q := by
  rw [targetExponent_totalExponent] at early ⊢
  have floor := located.floor
  have whole : (ExtendedMantissa.ofMantissaAndAccuracy mantissa accuracy).mantissa = mantissa := by
    rcases accuracy with _ | (_ | _ | _) <;> rfl
  rw [whole] at floor
  rcases Nat.eq_zero_or_pos mantissa with rfl | filled
  · have late : exponent ≤ -1074 := by
      simp only [Nat.log2_zero] at early
      omega
    have below : q < 2 ^ (-1074 + 53 : ℤ) := by
      have := (Nat.floor_eq_zero.mp floor)
      rw [div_lt_one (two_zpow_pos _)] at this
      exact this.trans_le (zpow_le_zpow_right₀ one_le_two (by omega))
    have place := lastPlace_le positive below le_rfl
    unfold lastPlace at place ⊢
    simp only [Nat.log2_zero]
    omega
  · rw [lastPlace, log_of_floor floor filled]

theorem shiftToTargetExponent_of_digits (digits : mantissa < 2 ^ 53) (place : -1074 ≤ exponent) :
    shiftToTargetExponent .binary64 mantissa exponent .exact = (⟨mantissa, false, false⟩, exponent) := by
  have log : mantissa.log2 ≤ 52 := by
    rcases Nat.eq_zero_or_pos mantissa with rfl | filled
    · simp
    · exact Nat.lt_succ_iff.mp ((Nat.log2_lt filled.ne').mpr digits)
  have stays : (Format.binary64.targetExponent (totalExponent mantissa exponent) - exponent).toNat = 0 := by
    rw [targetExponent_totalExponent]
    omega
  unfold shiftToTargetExponent shiftToExponent
  simp only [stays, Nat.cast_zero, add_zero]
  rfl

theorem shiftToTargetExponent_of_carry (place : -1074 ≤ exponent) :
    shiftToTargetExponent .binary64 (2 ^ 53) exponent .exact = (⟨2 ^ 52, false, false⟩, exponent + 1) := by
  have moves : (Format.binary64.targetExponent (totalExponent (2 ^ 53) exponent) - exponent).toNat = 1 := by
    rw [targetExponent_totalExponent, Nat.log2_two_pow]
    omega
  unfold shiftToTargetExponent shiftToExponent
  simp only [moves, Nat.cast_one]
  rfl

theorem denotes_parts {q : ℚ} (canonical : 0 < mantissa → Canonical mantissa exponent)
    (size : mantissa * 2 ^ exponent = q) :
    Denotes (if none : mantissa = 0 then .zero .positive
      else .finite .positive mantissa exponent (Nat.pos_of_ne_zero none)) q := by
  split
  · rename_i none
    rw [← size, none, Nat.cast_zero, zero_mul]
    exact .zero _
  · rename_i some
    rw [← size]
    exact .finite (canonical (Nat.pos_of_ne_zero some)) _

/-- A number that is located by a mantissa comes out rounded. -/
theorem denotes_roundWithAccuracy {q : ℚ} {accuracy : Accuracy} (positive : 0 < q)
    (located : Represents (.ofMantissaAndAccuracy mantissa accuracy) (q / 2 ^ exponent))
    (early : exponent ≤ Format.binary64.targetExponent (totalExponent mantissa exponent)) :
    Denotes (roundWithAccuracy .binary64 .positive mantissa exponent accuracy) (rounded q) := by
  have place := targetExponent_eq_lastPlace positive located early
  rw [place] at early
  have shifted : exponent + (lastPlace q - exponent).toNat = lastPlace q := by omega
  have scaled := located.shiftRight (lastPlace q - exponent).toNat
  rw [div_div, ← zpow_natCast, ← zpow_add₀ two_ne_zero, shifted] at scaled
  have first : shiftToTargetExponent .binary64 mantissa exponent accuracy =
      (ExtendedMantissa.ofMantissaAndAccuracy mantissa accuracy >>> (lastPlace q - exponent).toNat,
        lastPlace q) := by
    unfold shiftToTargetExponent shiftToExponent
    simp only [place, shifted]
  have late : -1074 ≤ lastPlace q := le_max_right _ _
  unfold roundWithAccuracy rounded
  simp only [first, ← scaled.nearestEven_eq]
  -- Rounding up may carry into a 54th digit; the second shift then takes a zero off.
  rcases (nearestEven_le_of_lastPlace q).lt_or_eq with digits | carry
  · simp only [shiftToTargetExponent_of_digits digits late]
    refine denotes_parts (fun filled => ?_) rfl
    have short := (Nat.log2_lt filled.ne').mpr digits
    unfold Canonical
    rcases late.eq_or_lt with latest | normal
    · omega
    · have full := (Nat.le_log2 filled.ne').mpr (le_nearestEven_of_lastPlace positive normal)
      omega
  · simp only [carry, shiftToTargetExponent_of_carry late]
    refine denotes_parts (fun _ => ?_) ?_
    · unfold Canonical
      rw [Nat.log2_two_pow]
      omega
    · rw [zpow_add_one₀ two_ne_zero]
      push_cast
      ring

end Overhear.Floating
