import Overhear.Face
import Overhear.Location.Tag
import Overhear.Name
import Overhear.Text.Digits

/-! The packets that forwarding decides on, with the fields that its decisions read. -/
namespace Overhear

/-- The nonce is a random word by which a host tells loops apart. Not every request counts its hops. -/
structure Request where
  name : Name
  nonce : Nat
  hops : Option Nat
  tag : Option LocationTag
deriving DecidableEq, Repr

def Request.text (request : Request) : String :=
  request.name.text ++ "?nonce=" ++ Text.lowerHex 8 request.nonce

structure Response where
  name : Name
  announced : Option Name
  tag : Option LocationTag
deriving DecidableEq, Repr

inductive NackReason where
  | congestion
  | duplicate
  | noRoute
  | unspecified
deriving DecidableEq, Repr

structure Nack where
  name : Name
  reason : NackReason
deriving DecidableEq, Repr

/-- What a host keeps for a request that waits for its response, with the faces it came in on. -/
structure Pending where
  name : Name
  downstream : List Face
deriving DecidableEq, Repr

namespace Pending

/-- One more face to answer to; a face with the number of a known one is not added. -/
def addDownstream (pending : Pending) (face : Face) : Pending :=
  if pending.downstream.any (·.id == face.id) then pending
  else { pending with downstream := pending.downstream ++ [face] }

def withDownstream (name : Name) (faces : List Face) : Pending :=
  faces.foldl addDownstream ⟨name, []⟩

end Pending

end Overhear
