import Overhear.Location.Coordinate

/-! The location tag that packets carry, and its encoding: six floating-point numbers of eight bytes
each, least significant byte first, in the order sender, hop before, destination, latitude first. -/
namespace Overhear

/-- Where the sender of the packet is, where the hop before it is, and the last known place of the content. -/
structure LocationTag where
  own : Coordinate
  previous : Coordinate
  destination : Coordinate
deriving DecidableEq, Repr

inductive TagError where
  | truncated
deriving DecidableEq, Repr

def TagError.message : TagError → String
  | .truncated => "Tag decoding failed: Hit the end of buffer, expected more data"

namespace LocationTag

def neutral : LocationTag := ⟨.unknown, .unknown, .unknown⟩

def toward (destination : Coordinate) : LocationTag := { neutral with destination }

def isComplete (tag : LocationTag) : Bool :=
  tag.own.isKnown && tag.previous.isKnown && tag.destination.isKnown

def sameNumbers (a b : LocationTag) : Bool :=
  a.own.sameNumbers b.own && a.previous.sameNumbers b.previous &&
    a.destination.sameNumbers b.destination

end LocationTag

/-- The eight bytes of a word, least significant first. -/
def wordBytes (word : UInt64) : List UInt8 :=
  (List.range 8).map fun i => (word >>> (8 * i).toUInt64).toUInt8

/-- The word of up to eight bytes, least significant first. -/
def wordOfBytes : List UInt8 → UInt64
  | [] => 0
  | byte :: rest => byte.toUInt64 ||| (wordOfBytes rest <<< 8)

def takeWord (bytes : List UInt8) : Except TagError (UInt64 × List UInt8) :=
  if bytes.length < 8 then .error .truncated
  else .ok (wordOfBytes (bytes.take 8), bytes.drop 8)

namespace Coordinate

def encode (place : Coordinate) : List UInt8 :=
  wordBytes place.latitude.bits ++ wordBytes place.longitude.bits

def decode (bytes : List UInt8) : Except TagError (Coordinate × List UInt8) := do
  let (latitude, bytes) ← takeWord bytes
  let (longitude, bytes) ← takeWord bytes
  return (⟨⟨latitude⟩, ⟨longitude⟩⟩, bytes)

end Coordinate

namespace LocationTag

def encode (tag : LocationTag) : List UInt8 :=
  tag.own.encode ++ tag.previous.encode ++ tag.destination.encode

/-- Read a tag off the front of a byte list; what follows it is ignored. -/
def decode (bytes : List UInt8) : Except TagError LocationTag := do
  let (own, bytes) ← Coordinate.decode bytes
  let (previous, bytes) ← Coordinate.decode bytes
  let (destination, _) ← Coordinate.decode bytes
  return ⟨own, previous, destination⟩

end LocationTag

end Overhear
