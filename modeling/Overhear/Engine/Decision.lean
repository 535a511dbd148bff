import Overhear.Packet
import Overhear.Timers

/-! What an engine decides. It sends nothing itself: a host carries its decisions out. -/
namespace Overhear

/-- Why a request is dropped: it is pending here already or came back, it has made too many hops, this relay
is no nearer than the hop before, or there is no usable face. -/
inductive SuppressReason where
  | duplicate
  | hopLimit
  | noProgress
  | noCandidates
deriving DecidableEq, Repr

/-- What to do with a request. One that is deferred goes out when the timer fires; of one that is suppressed
the host may have to drop what it keeps, too. -/
inductive Decision where
  | send (faces : List FaceId) (request : Request)
  | deferred (face : FaceId) (delay : Nanos) (handle : Handle)
  | suppress (reason : SuppressReason) (rejectPending : Bool)
deriving DecidableEq, Repr

namespace Decision

def isImmediate : Decision → Bool
  | .send .. => true
  | _ => false

def isDeferred : Decision → Bool
  | .deferred .. => true
  | _ => false

def isSuppressed : Decision → Bool
  | .suppress .. => true
  | _ => false

def reason? : Decision → Option SuppressReason
  | .suppress reason _ => some reason
  | _ => none

def delay? : Decision → Option Nanos
  | .deferred _ delay _ => some delay
  | _ => none

def targets : Decision → List FaceId
  | .send faces _ => faces
  | .deferred face _ _ => [face]
  | .suppress .. => []

end Decision

/-- The faces to return a response on, and whether a deferred request was cancelled for it. -/
structure ResponseDecision where
  faces : List FaceId
  response : Response
  cancelledPending : Bool
deriving DecidableEq, Repr

/-- What came of a timer that fired. It is stale when it was cancelled, replaced or delivered before. -/
inductive TimerOutcome where
  | sendRequest (face : FaceId) (request : Request)
  | upkeep
  | stale
deriving DecidableEq, Repr

end Overhear
