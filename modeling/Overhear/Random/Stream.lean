/-! A reproducible stream of random words: the ChaCha block function with twelve rounds, run in
counter mode. The stream is a function of a key, and a generator is a key with a place in it. -/
namespace Overhear.Random

abbrev Block := Vector UInt32 16

def rotateLeft (word : UInt32) (count : UInt32) : UInt32 :=
  (word <<< count) ||| (word >>> (32 - count))

def rotateRight (word : UInt32) (count : UInt32) : UInt32 :=
  if count = 0 then word else (word >>> count) ||| (word <<< (32 - count))

/-- Add, exclude and rotate: one of the four steps that make a quarter round. -/
def mixStep (block : Block) (target addend other : Fin 16) (count : UInt32) : Block :=
  let block := block.set target (block[target] + block[addend])
  block.set other (rotateLeft (block[other] ^^^ block[target]) count)

def quarterRound (block : Block) (a b c d : Fin 16) : Block :=
  let block := mixStep block a b d 16
  let block := mixStep block c d b 12
  let block := mixStep block a b d 8
  mixStep block c d b 7

def doubleRound (block : Block) : Block :=
  let block := quarterRound block 0 4 8 12
  let block := quarterRound block 1 5 9 13
  let block := quarterRound block 2 6 10 14
  let block := quarterRound block 3 7 11 15
  let block := quarterRound block 0 5 10 15
  let block := quarterRound block 1 6 11 12
  let block := quarterRound block 2 7 8 13
  quarterRound block 3 4 9 14

/-- The four words of the text "expand 32-byte k". -/
def constants : Vector UInt32 4 := #v[0x61707865, 0x3320646e, 0x79622d32, 0x6b206574]

/-- The block with which a key and a block number start: no stream number is used. -/
def startBlock (key : Vector UInt32 8) (number : Nat) : Block :=
  (constants ++ key ++ #v[UInt32.ofNat number, UInt32.ofNat (number / Nat.pow 2 32), 0, 0]).cast (by rfl)

def streamBlock (key : Vector UInt32 8) (number : Nat) : Block :=
  let start := startBlock key number
  let mixed := (List.range 6).foldl (fun block _ => doubleRound block) start
  start.zipWith (· + ·) mixed

structure Generator where
  key : Vector UInt32 8
  position : Nat
deriving DecidableEq

namespace Generator

/-- The word of the stream at a position. -/
def wordAt (key : Vector UInt32 8) (position : Nat) : UInt32 :=
  (streamBlock key (position / 16)).get ⟨position % 16, Nat.mod_lt _ (by decide)⟩

def nextWord (generator : Generator) : UInt32 × Generator :=
  (wordAt generator.key generator.position,
    { generator with position := generator.position + 1 })

/-- Two words make a long one, the lower half first. -/
def nextLongWord (generator : Generator) : UInt64 × Generator :=
  let (low, generator) := generator.nextWord
  let (high, generator) := generator.nextWord
  (low.toUInt64 ||| (high.toUInt64 <<< 32), generator)

def seedStep (state : UInt64) : UInt64 :=
  state * 6364136223846793005 + 11634580027462260723

/-- The word that a state of the seed sequence gives: its high bits, folded and then rotated. -/
def seedWord (state : UInt64) : UInt32 :=
  rotateRight (((state >>> 18) ^^^ state) >>> 27).toUInt32 (state >>> 59).toUInt32

def seedWords : Nat → UInt64 → List UInt32
  | 0, _ => []
  | count + 1, state =>
      let next := seedStep state
      seedWord next :: seedWords count next

theorem length_seedWords (count : Nat) (state : UInt64) :
    (seedWords count state).length = count := by
  induction count generalizing state with
  | zero => rfl
  | succ count ih => simp [seedWords, ih]

def ofSeed (seed : UInt64) : Generator where
  key := ⟨(seedWords 8 seed).toArray, by simp [length_seedWords]⟩
  position := 0

end Generator

end Overhear.Random
