import Overhear.Engine.State

/-! How a relay treats a request that it has only broadcast faces for, in each variant. The faces
are given as the first one and the others. -/
namespace Overhear.Engine

def sendNow (engine : Engine) (request : Request) (faces : List FaceId) : Decision × Engine :=
  (.send faces request, faces.foldl (fun engine face => engine.creditRequest request.name face) engine)

/-- The destination to aim for when a request carries none: what was announced for the longest name
at or above it, else what the scores remember for its statistics. -/
def knownDestination? (engine : Engine) (name : Name) : Option Coordinate :=
  ((engine.destinations.findLongest? name).map (·.coordinate)).or
    (engine.book.destination? name.statistics)

def tagToward : Option Coordinate → LocationTag
  | some destination => .toward destination
  | none => .neutral

/-- The progress that a tag speaks of: a complete tag toward its own destination, another one
toward the known destination. -/
def progress? (engine : Engine) (tag : LocationTag) (known : Option Coordinate) : Option Float :=
  let model := engine.config.delays.distances
  if tag.isComplete then some (model.progress tag.own tag.previous tag.destination)
  else known.map (model.progress tag.own tag.previous)

def weight (engine : Engine) (name : Name) (tag : LocationTag) (face : FaceId) : Float :=
  combinedWeight engine.config.delays.locationShare
    (engine.progress? tag (engine.knownDestination? name))
    (engine.book.scoreFor name.statistics face)

/-- Hold a tagged request back for a random time that falls with its weight, and send it now when
the weight calls for no delay. -/
def relayByWeight (engine : Engine) (request : Request) (tag : LocationTag) (face : FaceId)
    (others : List FaceId) : Except Random.SpanError Decision × Engine :=
  let weight := engine.weight request.name tag face
  if (engine.config.delays.jitterBounds weight).isNone then
    let (decision, engine) := engine.sendNow request (face :: others)
    (.ok decision, engine)
  else
    let (delay, generator) := engine.config.delays.draw Random.Generator.nextLongWord weight engine.generator
    match delay with
    | .error cause => (.error cause, engine)
    | .ok delay =>
        let (decision, engine) := { engine with generator }.defer request face delay
        (.ok decision, engine)

/-- An untagged request is a consumer's: it gets a tag toward the known destination, and goes out at
once when there is none. -/
def relayWeighted (engine : Engine) (request : Request) (face : FaceId) (others : List FaceId) :
    Except Random.SpanError Decision × Engine :=
  match request.tag with
  | some tag => engine.relayByWeight request tag face others
  | none =>
      let known := engine.knownDestination? request.name
      let tag := tagToward known
      let request := { request with tag := some tag }
      if known.isNone then
        let (decision, engine) := engine.sendNow request (face :: others)
        (.ok decision, engine)
      else engine.relayByWeight request tag face others

/-- Hold a request back for a time that falls with the distance from the hop before, with a few
random microseconds added; without that distance it goes out now. -/
def relayByHop (engine : Engine) (request : Request) (face : FaceId) (others : List FaceId) :
    Decision × Engine :=
  match request.tag with
  | none => engine.sendNow { request with tag := some .neutral } (face :: others)
  | some tag =>
      let distance := engine.config.delays.distances.distance tag.previous tag.own
      if tag.own.isKnown && tag.previous.isKnown && 0.0 < distance then
        let (jitter, generator) := Random.uniformUpTo 10 engine.generator
        let delay := engine.config.delays.microsToDelay (100000.0 / distance + Float.ofNat jitter)
        { engine with generator }.defer request face delay
      else engine.sendNow request (face :: others)

/-- The destination that a tagged request is measured against: the tag's own, else the known one;
none unless the tag gives both positions. -/
def target? (tag : LocationTag) (known : Option Coordinate) : Option Coordinate :=
  (if tag.destination.isKnown then some tag.destination else known).filter fun _ =>
    tag.own.isKnown && tag.previous.isKnown

/-- Hold a request back for a time that grows with the distance left, and drop it when this relay is
no nearer than the hop before; without the distances it goes out now. -/
def relayByDistance (engine : Engine) (request : Request) (face : FaceId) (others : List FaceId) :
    Decision × Engine :=
  let known := engine.knownDestination? request.name
  match request.tag with
  | none => engine.sendNow { request with tag := some (tagToward known) } (face :: others)
  | some tag =>
      match target? tag known with
      | none => engine.sendNow request (face :: others)
      | some destination =>
          let model := engine.config.delays.distances
          let own := model.distance tag.own destination
          let previous := model.distance tag.previous destination
          if previous ≤ own then (.suppress .noProgress false, engine)
          else engine.defer request face (engine.config.delays.microsToDelay (own / 10.0 * 1000.0))

def relay (engine : Engine) (request : Request) (face : FaceId) (others : List FaceId) :
    Except Random.SpanError Decision × Engine :=
  match engine.variant with
  | .weighted => engine.relayWeighted request face others
  | .broadcast => (engine.sendNow request (face :: others)).map .ok id
  | .vndn => (engine.relayByHop request face others).map .ok id
  | .navigo => (engine.relayByDistance request face others).map .ok id

end Overhear.Engine
