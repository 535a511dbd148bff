import Overhear.Engine.Relay

/-! The events that a host reports to an engine, each with what comes of it. -/
namespace Overhear.Engine

def exceedsHopLimit (engine : Engine) (request : Request) : Bool :=
  engine.variant == .vndn && request.hops.any (engine.config.strategy.hopLimit < ·)

/-- Forward a request that is not pending here. With a line of its own toward the producer it goes
there, and the face it came in on is credited; else it is relayed on the broadcast faces. -/
def forward (engine : Engine) (inFace : Face) (request : Request) (hops : List Hop) :
    Except Random.SpanError Decision × Engine :=
  let faces := hops.map (·.face)
  match faces.find? (·.isPointToPoint) with
  | some face => (.ok (.send [face.id] request), engine.creditRequest request.name inFace.id)
  | none =>
      match (faces.filter (·.isBroadcast)).map (·.id) with
      | [] => (.ok (.suppress .noCandidates false), engine)
      | face :: others => engine.relay request face others

/-- A request came in on a face; `hops` are the candidates to send it on. One that is held back here
and heard again is given up, since a neighbour was faster. -/
def receive (engine : Engine) (inFace : Face) (request : Request) (hops : List Hop) :
    Except Random.SpanError Decision × Engine :=
  if engine.exceedsHopLimit request then (.ok (.suppress .hopLimit false), engine)
  else
    let (cancelled, engine) := engine.cancelDeferred request.name
    if cancelled then (.ok (.suppress .duplicate (engine.variant == .weighted)), engine)
    else engine.forward inFace request hops

/-- Learn from a response what it announces: where the announced name is, if the response tells,
and that the face delivered. -/
def learn (engine : Engine) (inFace : Face) (announced : Name) (tag : Option LocationTag) :
    Except ForwardingError Engine := do
  let engine ← match tag.filter (·.destination.isKnown) with
    | none => pure engine
    | some tag =>
        let (_, destinations) ←
          (engine.destinations.insert announced tag.destination).mapError ForwardingError.forest
        pure { engine with
          destinations
          book := engine.book.setDestination announced tag.destination }
  return { engine with book := engine.book.creditResponse announced inFace.id }

/-- The faces to return a response on: those the request came from, but not back through the one it
arrived on, unless that one reaches others as well. -/
def returnFaces (pending : Pending) (inFace : Face) : List FaceId :=
  (pending.downstream.filter fun face => face.id != inFace.id || face.isBroadcast).map (·.id)

/-- A response came in on a face for a pending request. A request of that name is no longer held
back, even when the response is refused for want of an announcement. -/
def respond (engine : Engine) (pending : Pending) (inFace : Face) (response : Response) :
    Except ForwardingError ResponseDecision × Engine :=
  let (cancelled, engine) := engine.cancelDeferred response.name
  let learned : Except ForwardingError Engine :=
    if engine.variant.tracksAnnouncements then
      match response.announced with
      | none => .error (.missingAnnouncement response.name)
      | some announced => engine.learn inFace announced response.tag
    else .ok engine
  match learned with
  | .error cause => (.error cause, engine)
  | .ok engine =>
      (.ok ⟨returnFaces pending inFace,
        { response with tag := some (response.tag.getD .neutral) }, cancelled⟩, engine)

def loopDetected (engine : Engine) (request : Request) : Decision × Engine :=
  let (cancelled, engine) := engine.cancelDeferred request.name
  (.suppress .duplicate (cancelled && engine.variant == .weighted), engine)

def expired (engine : Engine) (pending : Pending) : Engine :=
  (engine.cancelDeferred pending.name).2

/-- A neighbour refused a request; nothing follows from that. -/
def refused (engine : Engine) (_inFace : Face) (_nack : Nack) (_pending : Pending) : Engine := engine

/-- A timer fired. One that is not the timer of a request held back or of a score counts for
nothing. -/
def fire (engine : Engine) (handle : Handle) : Event → TimerOutcome × Engine
  | .forward name =>
      match (engine.deferral? name).filter (·.handle == handle) with
      | none => (.stale, engine)
      | some deferral =>
          (.sendRequest deferral.face deferral.request,
            { engine with deferred := engine.deferred.erase name }.creditRequest name deferral.face)
  | .decay name face =>
      let (live, book) := engine.book.fireDecay handle ⟨name, face⟩
      (if live then .upkeep else .stale, { engine with book })
  | .refresh =>
      let (live, book) := engine.book.fireRefresh handle
      (if live then .upkeep else .stale, { engine with book })

def sweep (engine : Engine) : List Name × Engine :=
  let (names, book) := engine.book.sweep
  (names, { engine with book })

def shutdown (engine : Engine) : Engine :=
  let timers := engine.timers.cancelAll (engine.deferred.toList.map (·.2.handle))
  { engine with
    book := { engine.book with timers }.shutdown
    deferred := ∅ }

end Overhear.Engine
