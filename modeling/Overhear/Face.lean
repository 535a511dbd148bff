import Std.Data.ExtTreeMap

/-! Faces: a node's interfaces toward its neighbours, and the candidates to send a request on. -/
namespace Overhear

structure FaceId where
  number : Nat
deriving DecidableEq, Repr

namespace FaceId

instance : Ord FaceId := ⟨compareOn FaceId.number⟩

instance : Std.TransOrd FaceId := inferInstanceAs (Std.TransCmp (compareOn FaceId.number))

instance : Std.LawfulEqOrd FaceId where
  eq_of_compare {a b} same := by
    have : a.number = b.number := Std.LawfulEqOrd.eq_of_compare (α := Nat) same
    cases a; cases b; simp_all

def text (face : FaceId) : String := toString face.number

end FaceId

/-- A face is a line of its own, usually to the local producer of the content, or a shared radio medium that
reaches every neighbour in range. -/
inductive Link where
  | pointToPoint
  | broadcast
  | other
deriving DecidableEq, Repr

def Link.text : Link → String
  | .pointToPoint => "point-to-point"
  | .broadcast => "broadcast"
  | .other => "other"

structure Face where
  id : FaceId
  link : Link
deriving DecidableEq, Repr

namespace Face

def isPointToPoint (face : Face) : Bool := face.link == .pointToPoint

def isBroadcast (face : Face) : Bool := face.link == .broadcast

def text (face : Face) : String := face.id.text ++ "(" ++ face.link.text ++ ")"

end Face

structure Hop where
  face : Face
  cost : Nat
deriving DecidableEq, Repr

end Overhear
