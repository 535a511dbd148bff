import Overhear.Scalar

/-! Positions in degrees and the distances between them. A position is kept as the bit patterns of
its two numbers, so that it survives storing and sending exactly. -/
namespace Overhear

/-- An angle in degrees, as the bit pattern of a floating-point number. -/
structure Degrees where
  bits : UInt64
deriving DecidableEq, Repr

namespace Degrees

def zero : Degrees := ⟨0⟩

def value (angle : Degrees) : Float := Float.ofBits angle.bits

def radians (angle : Degrees) : Float := angle.value * 0.017453292519943295

end Degrees

structure Coordinate where
  latitude : Degrees
  longitude : Degrees
deriving DecidableEq, Repr

namespace Coordinate

/-- Both angles zero: no position. -/
def unknown : Coordinate := ⟨.zero, .zero⟩

/-- Some angle differs from zero; an angle that is not a number does. -/
def isKnown (place : Coordinate) : Bool :=
  place.latitude.value != 0.0 || place.longitude.value != 0.0

def sameNumbers (a b : Coordinate) : Bool :=
  a.latitude.value == b.latitude.value && a.longitude.value == b.longitude.value

/-- The length of the straight line between two positions, with degrees as plane units. -/
def planar (a b : Coordinate) : Float :=
  let dx := a.latitude.value - b.latitude.value
  let dy := a.longitude.value - b.longitude.value
  (dx * dx + dy * dy).sqrt

def earthRadius : Float := 6371.0

/-- The great-circle distance in kilometres, by the haversine formula. -/
def haversine (a b : Coordinate) : Float :=
  let latA := a.latitude.radians
  let latB := b.latitude.radians
  let u := ((latB - latA) / 2.0).sin
  let v := ((b.longitude.radians - a.longitude.radians) / 2.0).sin
  2.0 * earthRadius * (u * u + latA.cos * latB.cos * v * v).sqrt.asin

end Coordinate

inductive DistanceModel where
  | planar
  | haversine
deriving DecidableEq, Repr

def DistanceModel.distance : DistanceModel → Coordinate → Coordinate → Float
  | .planar => Coordinate.planar
  | .haversine => Coordinate.haversine

end Overhear
