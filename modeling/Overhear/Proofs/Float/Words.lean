import Overhear.Proofs.Float.Order
import Overhear.Scalar

/-! Floating-point numbers and whole numbers. Cutting off at the decimal point and rounding to the nearest whole
number both keep the order, and both stop at the largest 64-bit word. -/
namespace Overhear.Floating

open Float.Model (Format UnpackedFloat totalExponent)
open Float.Model.UnpackedFloat

variable {mantissa : ℕ} {exponent : ℤ} {x y : Float} {q r : WithTop ℚ}

theorem amounts_toFloat (word : UInt64) : Amounts word.toFloat (fit (word.toNat : ℚ)) := by
  have number := denotes_normalize (Int.natCast_nonneg word.toNat) 0
  rw [zpow_zero, mul_one, Int.cast_natCast] at number
  exact number.stored

theorem nonneg_ofNat (count : ℕ) : 0 ≤ Float.ofNat count := by
  change 0 ≤ Float.ofScientific count false 0
  unfold Float.ofScientific
  split
  · have one : Amounts Float.exactlyRepresentablePowersOfTen[0] 1 := amounts_one
    have product := (amounts_toFloat count.toUInt64).mul one (fun _ => WithTop.one_ne_top)
      (fun none => absurd none one_ne_zero)
    exact product.nonneg
  · exact nonneg_of_sign (sign?_ofScientific count 0)

/-- The whole part of a size, at most the largest word. -/
def wordPart : WithTop ℚ → ℕ
  | ⊤ => 2 ^ 64 - 1
  | (a : ℚ) => min ⌊a⌋₊ (2 ^ 64 - 1)

theorem wordPart_le (q : WithTop ℚ) : wordPart q ≤ 2 ^ 64 - 1 := by
  cases q with
  | top => exact le_rfl
  | coe a => exact min_le_right _ _

theorem wordPart_mono (le : q ≤ r) : wordPart q ≤ wordPart r := by
  cases r with
  | top => exact wordPart_le q
  | coe b =>
    obtain ⟨a, rfl⟩ := WithTop.ne_top_iff_exists.mp (ne_top_of_le_ne_top WithTop.coe_ne_top le)
    exact min_le_min_right _ (Nat.floor_le_floor (WithTop.coe_le_coe.mp le))

theorem wordPart_le_size {a : ℚ} (nonneg : 0 ≤ a) : (wordPart a : ℚ) ≤ a :=
  (Nat.cast_le.mpr (min_le_left _ _)).trans (Nat.floor_le nonneg)

theorem roundToInt_eq (mantissa : ℕ) (exponent : ℤ) :
    roundToInt .positive mantissa exponent = ⌊(mantissa * 2 ^ exponent : ℚ)⌋₊ := by
  unfold roundToInt decreaseExponent shiftToExponent
  simp only [sub_zero]
  generalize amount : exponent.toNat = shift
  generalize rest : (0 - (exponent - shift)).toNat = count
  have place : exponent - shift = -(count : ℤ) := by omega
  have located := (represents_exact (mantissa <<< shift)).shiftRight count
  have size : ((mantissa <<< shift : ℕ) / 2 ^ count : ℚ) = mantissa * 2 ^ exponent := by
    rw [div_eq_mul_inv, ← zpow_natCast, ← zpow_neg, ← place]
    exact size_shiftLeft (sub_add_cancel ..)
  rw [size] at located
  rw [located.floor]
  rfl

theorem toNat_ofNatClamp (count : ℕ) : (UInt64.ofNatClamp count).toNat = min count (2 ^ 64 - 1) := by
  unfold UInt64.ofNatClamp
  split
  · rename_i fits
    rw [UInt64.toNat_ofNatLT]
    exact (min_eq_left (Nat.le_pred_of_lt fits)).symm
  · rename_i exceeds
    rw [UInt64.toNat_ofNatLT]
    exact (min_eq_right ((Nat.pred_le _).trans (not_lt.mp exceeds))).symm

theorem Denotes.toNat_toUInt64 {u : UnpackedFloat} (denotes : Denotes u q) :
    u.toUInt64.toNat = wordPart q := by
  unfold UnpackedFloat.toUInt64
  rw [toNat_ofNatClamp]
  cases denotes with
  | zero => simp [toInt, wordPart]
  | finite =>
    rw [toInt, roundToInt_eq]
    rfl
  | infinity => rfl

theorem Amounts.toNat_toUInt64 (amounts : Amounts x q) : x.toUInt64.toNat = wordPart q :=
  Denotes.toNat_toUInt64 amounts

theorem nearestWord_ge (x : Float) : x.toUInt64.toNat ≤ nearestWord x := by
  have small := x.toUInt64.toNat_lt
  unfold nearestWord
  dsimp only
  split
  · exact le_min (Nat.le_succ _) (Nat.le_pred_of_lt small)
  · exact le_rfl

theorem nearestWord_le (x : Float) : nearestWord x ≤ min (x.toUInt64.toNat + 1) (2 ^ 64 - 1) := by
  have small := x.toUInt64.toNat_lt
  unfold nearestWord
  dsimp only
  split
  · exact le_rfl
  · exact le_min (Nat.le_succ _) (Nat.le_pred_of_lt small)

/-- What stands after the decimal point, as it is computed. -/
theorem Amounts.fraction {a : ℚ} (amounts : Amounts x a) :
    ∃ c : ℚ, fit (wordPart a : ℚ) = c ∧ c ≤ a ∧ Amounts (x - x.toUInt64.toFloat) (fit (a - c : ℚ)) := by
  have nonneg : 0 ≤ a := WithTop.coe_nonneg.mp (Denotes.nonneg amounts)
  have le : fit (wordPart a : ℚ) ≤ a :=
    calc fit (wordPart a : ℚ) ≤ fit a :=
          fit_mono (WithTop.coe_nonneg.mpr (Nat.cast_nonneg _))
            (WithTop.coe_le_coe.mpr (wordPart_le_size nonneg))
      _ = a := amounts.fit_eq
  obtain ⟨c, same⟩ := WithTop.ne_top_iff_exists.mp (ne_top_of_le_ne_top WithTop.coe_ne_top le)
  have whole := amounts_toFloat x.toUInt64
  rw [amounts.toNat_toUInt64, ← same] at whole
  rw [← same] at le
  have le := WithTop.coe_le_coe.mp le
  exact ⟨c, same.symm, le, amounts.sub whole le⟩

theorem nearestWord_mono (first : Amounts x q) (second : Amounts y r) (le : q ≤ r) :
    nearestWord x ≤ nearestWord y := by
  have above := nearestWord_le x
  have below := nearestWord_ge y
  rw [first.toNat_toUInt64] at above
  rw [second.toNat_toUInt64] at below
  rcases (wordPart_mono le).lt_or_eq with fewer | same
  · exact (above.trans (min_le_left _ _)).trans (fewer.trans_le below)
  cases r with
  | top => exact (above.trans (min_le_right _ _)).trans below
  | coe b =>
    obtain ⟨a, rfl⟩ := WithTop.ne_top_iff_exists.mp (ne_top_of_le_ne_top WithTop.coe_ne_top le)
    -- The whole parts are equal, and so are their images: the larger number has the larger fraction.
    obtain ⟨c, image, part, fraction⟩ := first.fraction
    obtain ⟨d, image', -, fraction'⟩ := second.fraction
    rw [same] at image
    obtain rfl : c = d := WithTop.coe_injective (image.symm.trans image')
    obtain ⟨h, half⟩ : ∃ h, Amounts 0.5 h := exists_amounts (by decide +kernel)
    have later : fit (a - c : ℚ) ≤ fit (b - c : ℚ) :=
      fit_mono (WithTop.coe_nonneg.mpr (sub_nonneg.mpr part))
        (WithTop.coe_le_coe.mpr (sub_le_sub_right (WithTop.coe_le_coe.mp le) c))
    have carries (up : (0.5 : Float) ≤ x - x.toUInt64.toFloat) : (0.5 : Float) ≤ y - y.toUInt64.toFloat :=
      (half.le_iff fraction').mpr (((half.le_iff fraction).mp up).trans later)
    unfold nearestWord
    dsimp only
    rw [first.toNat_toUInt64, second.toNat_toUInt64, same]
    split
    · rename_i up
      rw [if_pos (carries up)]
    · split
      · exact le_min (Nat.le_succ _) (wordPart_le _)
      · exact le_rfl

end Overhear.Floating
