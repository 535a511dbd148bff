import Mathlib.Algebra.Order.Floor.Ring
import Mathlib.Data.Rat.Floor
import Overhear.Scalar

/-! The rational numbers as numbers to compute with. What holds of the formulas over them holds of the
formulas themselves and not of the rounding of any floating-point format. -/
namespace Overhear

instance : Scalar ℚ where
  ofNat count := count
  le x y := x ≤ y
  lt x y := x < y
  isNaN _ := false
  isFinite _ := true
  roundWord x := min ⌊x + 1 / 2⌋.toNat (Nat.pow 2 64 - 1)

namespace Scalar

@[simp] theorem ofNat_rat (count : Nat) : (ofNat count : ℚ) = count := rfl

@[simp] theorem zero_rat : (zero : ℚ) = 0 := Nat.cast_zero

@[simp] theorem one_rat : (one : ℚ) = 1 := Nat.cast_one

@[simp] theorem le_rat (x y : ℚ) : le x y = true ↔ x ≤ y := decide_eq_true_iff

@[simp] theorem lt_rat (x y : ℚ) : lt x y = true ↔ x < y := decide_eq_true_iff

theorem within_rat (low high x : ℚ) : within low high x = true ↔ low ≤ x ∧ x ≤ high := by
  simp [within]

end Scalar

end Overhear
