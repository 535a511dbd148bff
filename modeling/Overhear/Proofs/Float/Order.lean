import Overhear.Proofs.Float.Operations

/-! Formulas that keep or turn the order of floating-point numbers: shares of one, and roots and products of
numbers that are not negative. -/
namespace Overhear.Floating

open Float.Model (Format UnpackedFloat)
open Float.Model.UnpackedFloat

variable {u v : UnpackedFloat} {x y z : Float} {q r : WithTop ℚ}

theorem nonneg_of_sign (positive : sign? x = some .positive) : 0 ≤ x := by
  rw [le_iff, show parts 0 = .zero .positive from rfl]
  unfold sign? at positive
  cases number : parts x with
  | notANumber => simp [number, signOf?] at positive
  | zero sign => exact .inr rfl
  | infinity sign =>
    rw [number] at positive
    obtain rfl := Option.some.inj positive
    exact .inl rfl
  | finite sign mantissa exponent filled =>
    rw [number] at positive
    obtain rfl := Option.some.inj positive
    exact .inl rfl

theorem Amounts.nonneg (amounts : Amounts x q) : 0 ≤ x :=
  (amounts_zero.le_iff amounts).mpr (Denotes.nonneg amounts)

theorem nonneg_of_not_lt (number : x.isNaN = false) (unsigned : ¬ x < 0) : 0 ≤ x := by
  by_contra less
  rcases not_le_iff.mp less with negative | none | none
  · exact unsigned negative
  · exact absurd none (Bool.eq_false_iff.mp number)
  · exact absurd none (by decide +kernel)

/-- No negative number has a root but the negative zero, which is its own. -/
theorem sqrt_cases (x : Float) : x.sqrt.isNaN = true ∨ 0 ≤ x.sqrt := by
  have same : sign? x.sqrt = signOf? (UnpackedFloat.sqrt .binary64 (parts x)) := signOf?_pack _
  cases number : parts x with
  | notANumber =>
    rw [number] at same
    exact .inl (sign?_eq_none_iff.mp same)
  | zero =>
    have root : Denotes (UnpackedFloat.sqrt .binary64 (parts x)) 0 := by
      rw [number]
      exact .zero _
    exact .inr (Amounts.nonneg root.stored)
  | infinity sign | finite sign =>
    rw [number] at same
    cases sign with
    | positive => exact .inr (nonneg_of_sign (same.trans (signOf?_sqrt rfl)))
    | negative => exact .inl (sign?_eq_none_iff.mp same)

theorem not_sqrt_lt_zero (x : Float) : ¬ x.sqrt < 0 := by
  intro less
  rcases sqrt_cases x with none | nonneg
  · have number := isNaN_left_of_le (le_iff.mpr (.inl (lt_iff.mp less)))
    exact absurd none (Bool.eq_false_iff.mp number)
  · exact not_le_iff.mpr (.inl less) nonneg

theorem nonneg_of_le (nonneg : 0 ≤ x) (le : x ≤ y) : 0 ≤ y := by
  obtain ⟨q, amounts⟩ := exists_amounts nonneg
  obtain ⟨r, amounts'⟩ := amounts.exists_of_le le
  exact amounts'.nonneg

theorem nonneg_add (first : 0 ≤ x) (second : 0 ≤ y) : 0 ≤ x + y := by
  obtain ⟨q, amounts⟩ := exists_amounts first
  obtain ⟨r, amounts'⟩ := exists_amounts second
  exact (amounts.add amounts').nonneg

theorem Denotes.eq_zero (denotes : Denotes u 0) : ∃ sign, u = .zero sign := by
  rcases denotes.finite_cases with ⟨sign, rfl, -⟩ | ⟨mantissa, exponent, positive, -, -, none⟩
  · exact ⟨sign, rfl⟩
  · exact absurd none (size_pos positive exponent).ne'

theorem Denotes.eq_infinity (denotes : Denotes u ⊤) : u = .infinity .positive := by
  cases denotes
  rfl

theorem nonneg_div {b : ℚ} (first : 0 ≤ x) (second : Amounts y b) (positive : 0 < b) : 0 ≤ x / y := by
  obtain ⟨q, amounts⟩ := exists_amounts first
  cases q with
  | coe a => exact (amounts.div second positive).nonneg
  | top =>
    have quotient : Denotes (UnpackedFloat.div .binary64 (parts x) (parts y)) ⊤ := by
      rw [amounts.eq_infinity]
      rcases second.finite_cases with ⟨sign, -, rfl⟩ | ⟨mantissa, exponent, filled, same, -, -⟩
      · exact absurd positive (lt_irrefl 0)
      · rw [same]
        exact .infinity
    exact Amounts.nonneg quotient.stored

/-- The number lies between zero and one. -/
def IsShare (x : Float) : Prop := 0 ≤ x ∧ x ≤ 1

theorem isShare_iff : IsShare x ↔ ∃ a : ℚ, Amounts x a ∧ 0 ≤ a ∧ a ≤ 1 := by
  constructor
  · rintro ⟨nonneg, le⟩
    obtain ⟨q, amounts⟩ := exists_amounts nonneg
    have small : q ≤ 1 := (amounts.le_iff amounts_one).mp le
    obtain ⟨a, rfl⟩ := WithTop.ne_top_iff_exists.mp (ne_top_of_le_ne_top WithTop.one_ne_top small)
    exact ⟨a, amounts, WithTop.coe_nonneg.mp (Denotes.nonneg amounts), WithTop.coe_le_one.mp small⟩
  · rintro ⟨a, amounts, nonneg, le⟩
    exact ⟨(amounts_zero.le_iff amounts).mpr (WithTop.coe_nonneg.mpr nonneg),
      (amounts.le_iff amounts_one).mpr (WithTop.coe_le_one.mpr le)⟩

/-- What an exact share is rounded to is a share. -/
theorem fit_share {a : ℚ} (nonneg : 0 ≤ a) (le : a ≤ 1) : 0 ≤ fit a ∧ fit a ≤ 1 := by
  constructor
  · rw [← fit_zero]
    exact fit_mono le_rfl (WithTop.coe_nonneg.mpr nonneg)
  · rw [← amounts_one.fit_eq]
    exact fit_mono (WithTop.coe_nonneg.mpr nonneg) (WithTop.coe_le_one.mpr le)

theorem isShare_of_fit {a : ℚ} (amounts : Amounts x (fit a)) (nonneg : 0 ≤ a) (le : a ≤ 1) : IsShare x :=
  have share := fit_share nonneg le
  ⟨(amounts_zero.le_iff amounts).mpr share.1, (amounts.le_iff amounts_one).mpr share.2⟩

theorem amounts_complement {a : ℚ} (amounts : Amounts x a) (le : a ≤ 1) : Amounts (1 - x) (fit (1 - a : ℚ)) :=
  Amounts.sub amounts_one amounts le

theorem IsShare.complement (share : IsShare x) : IsShare (1 - x) := by
  obtain ⟨a, amounts, nonneg, le⟩ := isShare_iff.mp share
  exact isShare_of_fit (amounts_complement amounts le) (sub_nonneg.mpr le) (sub_le_self 1 nonneg)

theorem complement_anti (first : IsShare x) (second : IsShare y) (le : x ≤ y) : 1 - y ≤ 1 - x := by
  obtain ⟨a, amounts, -, small⟩ := isShare_iff.mp first
  obtain ⟨b, amounts', -, small'⟩ := isShare_iff.mp second
  rw [(amounts_complement amounts' small').le_iff (amounts_complement amounts small)]
  have ordered : a ≤ b := WithTop.coe_le_coe.mp ((amounts.le_iff amounts').mp le)
  exact fit_mono (WithTop.coe_nonneg.mpr (sub_nonneg.mpr small'))
    (WithTop.coe_le_coe.mpr (sub_le_sub_left ordered 1))

theorem amounts_mul_share {a b : ℚ} (first : Amounts x a) (second : Amounts y b) :
    Amounts (x * y) (fit (a * b : ℚ)) := by
  have product := first.mul second (fun _ => WithTop.coe_ne_top) (fun _ => WithTop.coe_ne_top)
  rwa [← WithTop.coe_mul] at product

theorem IsShare.mul (first : IsShare x) (second : IsShare y) : IsShare (x * y) := by
  obtain ⟨a, amounts, nonneg, le⟩ := isShare_iff.mp first
  obtain ⟨b, amounts', nonneg', le'⟩ := isShare_iff.mp second
  exact isShare_of_fit (amounts_mul_share amounts amounts') (mul_nonneg nonneg nonneg')
    (mul_le_one₀ le nonneg' le')

theorem mul_share_mono (share : IsShare x) (first : IsShare y) (second : IsShare z) (le : y ≤ z) :
    x * y ≤ x * z := by
  obtain ⟨a, amounts, nonneg, -⟩ := isShare_iff.mp share
  obtain ⟨b, amounts', nonneg', -⟩ := isShare_iff.mp first
  obtain ⟨c, amounts'', -, -⟩ := isShare_iff.mp second
  rw [(amounts_mul_share amounts amounts').le_iff (amounts_mul_share amounts amounts'')]
  have ordered : b ≤ c := WithTop.coe_le_coe.mp ((amounts'.le_iff amounts'').mp le)
  exact fit_mono (WithTop.coe_nonneg.mpr (mul_nonneg nonneg nonneg'))
    (WithTop.coe_le_coe.mpr (mul_le_mul_of_nonneg_left ordered nonneg))

theorem add_share_mono (first : IsShare x) (second : IsShare y) (third : IsShare z) (le : x ≤ y) :
    x + z ≤ y + z := by
  obtain ⟨a, amounts, nonneg, -⟩ := isShare_iff.mp first
  obtain ⟨b, amounts', -, -⟩ := isShare_iff.mp second
  obtain ⟨c, amounts'', nonneg'', -⟩ := isShare_iff.mp third
  rw [(amounts.add amounts'').le_iff (amounts'.add amounts'')]
  have ordered := (amounts.le_iff amounts').mp le
  exact fit_mono (add_nonneg (WithTop.coe_nonneg.mpr nonneg) (WithTop.coe_nonneg.mpr nonneg''))
    (by gcongr)

/-- The number has this size, or it is not a number, and that counts as nothing. -/
def Reads (x : Float) (q : WithTop ℚ) : Prop := Amounts x q ∨ x.isNaN = true ∧ q = 0

theorem Reads.nonneg (reads : Reads x q) : 0 ≤ q := by
  rcases reads with amounts | ⟨-, rfl⟩
  · exact Denotes.nonneg amounts
  · exact le_rfl

/-- What reads as something is a number. -/
theorem Reads.amounts (reads : Reads x q) (positive : 0 < q) : Amounts x q := by
  rcases reads with amounts | ⟨-, rfl⟩
  · exact amounts
  · exact absurd positive (lt_irrefl 0)

theorem isNaN_mul_of_none (none : signOf? (UnpackedFloat.mul .binary64 (parts x) (parts y)) = none) :
    (x * y).isNaN = true :=
  sign?_eq_none_iff.mp ((signOf?_pack _).trans none)

theorem parts_of_isNaN (none : x.isNaN = true) : parts x = .notANumber := by
  have unsigned := sign?_eq_none_iff.mpr none
  unfold sign? at unsigned
  cases number : parts x with
  | notANumber => rfl
  | _ => simp [number, signOf?] at unsigned

theorem isNaN_mul (none : x.isNaN = true) (y : Float) : (x * y).isNaN = true := by
  refine isNaN_mul_of_none ?_
  rw [parts_of_isNaN none]
  rfl

theorem isNaN_mul_right (x : Float) (none : y.isNaN = true) : (x * y).isNaN = true := by
  refine isNaN_mul_of_none ?_
  rw [parts_of_isNaN none]
  cases parts x <;> rfl

theorem isNaN_zero_mul_infinity (first : Amounts x 0) (second : Amounts y ⊤) : (x * y).isNaN = true := by
  obtain ⟨sign, zero⟩ := first.eq_zero
  refine isNaN_mul_of_none ?_
  rw [zero, second.eq_infinity]
  rfl

theorem isNaN_infinity_mul_zero (first : Amounts x ⊤) (second : Amounts y 0) : (x * y).isNaN = true := by
  obtain ⟨sign, zero⟩ := second.eq_zero
  refine isNaN_mul_of_none ?_
  rw [zero, first.eq_infinity]
  rfl

theorem Reads.mul (first : Reads x q) (second : Amounts y r) : Reads (x * y) (fit (q * r)) := by
  rcases first with first | ⟨none, rfl⟩
  · by_cases vanishing : q = 0 ∧ r = ⊤
    · obtain ⟨rfl, rfl⟩ := vanishing
      exact .inr ⟨isNaN_zero_mul_infinity first second, by rw [zero_mul, fit_zero]⟩
    by_cases vanishing' : r = 0 ∧ q = ⊤
    · obtain ⟨rfl, rfl⟩ := vanishing'
      exact .inr ⟨isNaN_infinity_mul_zero first second, by rw [mul_zero, fit_zero]⟩
    · exact .inl (first.mul second (not_and.mp vanishing) (not_and.mp vanishing'))
  · exact .inr ⟨isNaN_mul none y, by rw [zero_mul, fit_zero]⟩

theorem nonneg_mul (number : (x * y).isNaN = false) (first : 0 ≤ x) (second : 0 ≤ y) : 0 ≤ x * y := by
  obtain ⟨q, amounts⟩ := exists_amounts first
  obtain ⟨r, amounts'⟩ := exists_amounts second
  rcases Reads.mul (.inl amounts) amounts' with product | ⟨none, -⟩
  · exact product.nonneg
  · exact absurd none (Bool.eq_false_iff.mp number)

theorem fit_mul_mono {s : WithTop ℚ} (scale : 0 ≤ s) (nonneg : 0 ≤ q) (le : q ≤ r) :
    0 ≤ fit (q * s) ∧ fit (q * s) ≤ fit (r * s) := by
  rw [mul_comm q, mul_comm r]
  have product := mul_size_nonneg scale nonneg
  refine ⟨?_, fit_mono product (mul_le_mul_size scale nonneg le)⟩
  rw [← fit_zero]
  exact fit_mono le_rfl product

end Overhear.Floating
