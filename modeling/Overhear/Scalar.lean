/-! Numbers that weights, ratios and scores are computed with. The formulas of this library are
written once over the class below; what runs is its instance for floating-point numbers. -/
namespace Overhear

/-- Arithmetic, comparisons, and the nearest whole number of a number that is not negative: a half goes up,
and nothing goes beyond the largest 64-bit word. -/
class Scalar (α : Type) extends Add α, Sub α, Mul α, Div α where
  ofNat : Nat → α
  le : α → α → Bool
  lt : α → α → Bool
  isNaN : α → Bool
  isFinite : α → Bool
  roundWord : α → Nat

namespace Scalar

variable {α : Type} [Scalar α]

def zero : α := ofNat 0

def one : α := ofNat 1

/-- The larger of two numbers; a value that is not a number gives way to the other. -/
def max (x y : α) : α :=
  if isNaN x then y else if isNaN y then x else if lt x y then y else x

/-- `x` lies between `low` and `high`, both included. -/
def within (low high x : α) : Bool := le low x && le x high

end Scalar

/-- Cut off at the decimal point, then go up by one when half or more was cut off. From 2^53 on
nothing is cut off, so each step is exact. -/
def nearestWord (x : Float) : Nat :=
  let whole := x.toUInt64
  if (0.5 : Float) ≤ x - whole.toFloat then min (whole.toNat + 1) (Nat.pow 2 64 - 1) else whole.toNat

instance : Scalar Float where
  ofNat := Float.ofNat
  le x y := x ≤ y
  lt x y := x < y
  isNaN := Float.isNaN
  isFinite := Float.isFinite
  roundWord := nearestWord

end Overhear
