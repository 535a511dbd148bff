import Overhear.Random.Stream
import Overhear.Scalar

/-! Random numbers in a range, drawn from a source of random words. -/
namespace Overhear.Random

/-- The range is too wide for its span to be a finite number. -/
inductive SpanError where
  | unbounded
deriving DecidableEq, Repr

/-- The number in [0, 1) whose fraction is the upper 52 bits of a word. -/
def unitOfWord (word : UInt64) : Float :=
  Float.ofBits ((word >>> 12) ||| 0x3ff0000000000000) - 1.0

def pointAt {α : Type} [Scalar α] (share low high : α) : α := share * (high - low) + low

/-- A whole number from 1 to `bound` by a widening product. A second word decides the carry where
the low half alone cannot tell, so every number is equally likely up to one part in 2^64. -/
def uniformUpTo (bound : Nat) (generator : Generator) : Nat × Generator :=
  let (word, generator) := generator.nextWord
  let product := word.toNat * bound
  let high := product / Nat.pow 2 32
  let low := product % Nat.pow 2 32
  if Nat.pow 2 32 - bound < low then
    let (word, generator) := generator.nextWord
    let carry := word.toNat * bound / Nat.pow 2 32
    (1 + high + (low + carry) / Nat.pow 2 32, generator)
  else (1 + high, generator)

end Overhear.Random
