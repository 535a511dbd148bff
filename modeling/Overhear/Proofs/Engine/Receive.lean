import Overhear.Engine.Events

/-! All that can come of a received request. Each variant sends it at once, holds it back or drops it,
and the request that goes out is the one that came in, with a tag where it had none. -/
namespace Overhear

/-- `sent` is the request itself, or the request with a tag that it came without. -/
def Request.SentAs (request sent : Request) : Prop :=
  sent = request ∨ request.tag = none ∧ ∃ tag, sent = { request with tag := some tag }

theorem Request.SentAs.name {request sent : Request} (tagged : request.SentAs sent) :
    sent.name = request.name := by
  rcases tagged with rfl | ⟨-, tag, rfl⟩ <;> rfl

namespace Engine

/-- What comes of a request that a relay has only broadcast faces for. -/
inductive Relayed (engine : Engine) (request : Request) (face : FaceId) (others : List FaceId) :
    Except Random.SpanError Decision × Engine → Prop where
  | sent {sent : Request} (tagged : request.SentAs sent) :
      Relayed engine request face others
        (.ok (engine.sendNow sent (face :: others)).1, (engine.sendNow sent (face :: others)).2)
  | held {sent : Request} (tagged : request.SentAs sent) (generator : Random.Generator)
      (delay : Nanos) :
      Relayed engine request face others
        (.ok ({ engine with generator }.defer sent face delay).1,
          ({ engine with generator }.defer sent face delay).2)
  | dropped : Relayed engine request face others (.ok (.suppress .noProgress false), engine)
  | unbounded (cause : Random.SpanError) : Relayed engine request face others (.error cause, engine)

variable {engine : Engine} {request : Request} {face : FaceId} {others : List FaceId}

/-- The tag that a relay fills in where a request has none. -/
def filling? (engine : Engine) (name : Name) : Option LocationTag :=
  match engine.variant with
  | .broadcast => none
  | .vndn => some .neutral
  | .weighted | .navigo => some (tagToward (engine.knownDestination? name))

/-- The request that a relay sends for one that it was given. -/
def outgoing (engine : Engine) (request : Request) : Request :=
  { request with tag := request.tag.or (engine.filling? request.name) }

/-- What comes of a request that a relay does not drop. -/
inductive Goes (engine : Engine) (sent : Request) (face : FaceId) (others : List FaceId) :
    Except Random.SpanError Decision × Engine → Prop where
  | now : Goes engine sent face others
      (.ok (engine.sendNow sent (face :: others)).1, (engine.sendNow sent (face :: others)).2)
  | later (generator : Random.Generator) (delay : Nanos) : Goes engine sent face others
      (.ok ({ engine with generator }.defer sent face delay).1,
        ({ engine with generator }.defer sent face delay).2)
  | unbounded (cause : Random.SpanError) : Goes engine sent face others (.error cause, engine)

/-- The hop before is no farther from the destination of a request than the relay itself. The destination
is the one that the tag names, else the one that the index or the scores know of. -/
structure Recedes (engine : Engine) (request : Request) (tag : LocationTag) (destination : Coordinate) :
    Prop where
  variant : engine.variant = .navigo
  tagged : request.tag = some tag
  own : tag.own.isKnown = true
  previous : tag.previous.isKnown = true
  headed : (if tag.destination.isKnown then some tag.destination
    else engine.knownDestination? request.name) = some destination
  farther : engine.config.delays.distances.distance tag.previous destination ≤
    engine.config.delays.distances.distance tag.own destination

theorem outgoing_of_tagged {tag : LocationTag} (tagged : request.tag = some tag) :
    engine.outgoing request = request := by
  simp only [outgoing, tagged, Option.some_or]
  rw [← tagged]

theorem outgoing_of_untagged (untagged : request.tag = none) :
    engine.outgoing request = { request with tag := engine.filling? request.name } := by
  simp only [outgoing, untagged, Option.none_or]

theorem relayByWeight_goes (engine : Engine) (request : Request) (tag : LocationTag) (face : FaceId)
    (others : List FaceId) :
    Goes engine request face others (engine.relayByWeight request tag face others) := by
  unfold relayByWeight
  dsimp only
  split
  · exact .now
  · split
    · exact .unbounded _
    · exact .later _ _

theorem relayWeighted_goes (weighted : engine.variant = .weighted) (request : Request) (face : FaceId)
    (others : List FaceId) :
    Goes engine (engine.outgoing request) face others (engine.relayWeighted request face others) := by
  unfold relayWeighted
  split
  · rename_i tag tagged
    rw [outgoing_of_tagged tagged]
    exact relayByWeight_goes engine request tag face others
  · rename_i untagged
    simp only [outgoing_of_untagged untagged, filling?, weighted]
    split
    · exact .now
    · exact relayByWeight_goes engine _ _ face others

theorem relayByHop_goes (vndn : engine.variant = .vndn) (request : Request) (face : FaceId)
    (others : List FaceId) :
    Goes engine (engine.outgoing request) face others
      ((engine.relayByHop request face others).map .ok id) := by
  unfold relayByHop
  split
  · rename_i untagged
    simp only [outgoing_of_untagged untagged, filling?, vndn]
    exact .now
  · rename_i tag tagged
    rw [outgoing_of_tagged tagged]
    dsimp only
    split
    · exact .later _ _
    · exact .now

/-- The target of a tag with both positions is where its request is headed. -/
theorem target?_eq_some_iff {tag : LocationTag} {known : Option Coordinate} {destination : Coordinate} :
    target? tag known = some destination ↔ tag.own.isKnown = true ∧ tag.previous.isKnown = true ∧
      (if tag.destination.isKnown then some tag.destination else known) = some destination := by
  rw [target?, Option.filter_eq_some_iff, Bool.and_eq_true]
  exact ⟨fun ⟨headed, own, previous⟩ => ⟨own, previous, headed⟩,
    fun ⟨own, previous, headed⟩ => ⟨headed, own, previous⟩⟩

theorem relayByDistance_goes (navigo : engine.variant = .navigo)
    (nearer : ∀ tag destination, ¬ engine.Recedes request tag destination) (face : FaceId)
    (others : List FaceId) :
    Goes engine (engine.outgoing request) face others
      ((engine.relayByDistance request face others).map .ok id) := by
  unfold relayByDistance
  dsimp only
  split
  · rename_i untagged
    simp only [outgoing_of_untagged untagged, filling?, navigo]
    exact .now
  · rename_i tag tagged
    rw [outgoing_of_tagged tagged]
    split
    · exact .now
    · rename_i destination targeted
      obtain ⟨own, previous, headed⟩ := target?_eq_some_iff.mp targeted
      rw [if_neg fun farther => nearer tag destination ⟨navigo, tagged, own, previous, headed, farther⟩]
      exact .later engine.generator _

/-- A relay that drops nothing sends the request or holds it back. -/
theorem relay_goes (nearer : ∀ tag destination, ¬ engine.Recedes request tag destination)
    (face : FaceId) (others : List FaceId) :
    Goes engine (engine.outgoing request) face others (engine.relay request face others) := by
  unfold relay
  split
  · exact relayWeighted_goes ‹_› request face others
  · rename_i broadcast
    have same : engine.outgoing request = request := by
      simp [outgoing, filling?, broadcast]
    rw [same]
    exact .now
  · exact relayByHop_goes ‹_› request face others
  · exact relayByDistance_goes ‹_› nearer face others

theorem relay_of_recedes {tag : LocationTag} {destination : Coordinate}
    (recedes : engine.Recedes request tag destination) (face : FaceId) (others : List FaceId) :
    engine.relay request face others = (.ok (.suppress .noProgress false), engine) := by
  have targeted : target? tag (engine.knownDestination? request.name) = some destination :=
    target?_eq_some_iff.mpr ⟨recedes.own, recedes.previous, recedes.headed⟩
  simp only [relay, recedes.variant, relayByDistance, recedes.tagged, targeted, if_pos recedes.farther]
  rfl

theorem sentAs_outgoing (engine : Engine) (request : Request) :
    request.SentAs (engine.outgoing request) := by
  cases tagged : request.tag with
  | some tag => exact .inl (outgoing_of_tagged tagged)
  | none =>
    rw [outgoing_of_untagged tagged]
    cases filled : engine.filling? request.name with
    | none =>
      refine .inl ?_
      rw [← tagged]
    | some tag => exact .inr ⟨tagged, tag, rfl⟩

theorem Goes.relayed {result : Except Random.SpanError Decision × Engine}
    (goes : Goes engine (engine.outgoing request) face others result) :
    Relayed engine request face others result := by
  have tagged := sentAs_outgoing engine request
  cases goes with
  | now => exact .sent tagged
  | later generator delay => exact .held tagged generator delay
  | unbounded cause => exact .unbounded cause

theorem relay_relayed (engine : Engine) (request : Request) (face : FaceId) (others : List FaceId) :
    Relayed engine request face others (engine.relay request face others) := by
  by_cases recedes : ∃ tag destination, engine.Recedes request tag destination
  · obtain ⟨tag, destination, recedes⟩ := recedes
    rw [relay_of_recedes recedes]
    exact .dropped
  · refine (relay_goes ?_ face others).relayed
    exact fun tag destination closer => recedes ⟨tag, destination, closer⟩

/-- What comes of a received request. -/
inductive Received (engine : Engine) (inFace : Face) (request : Request) :
    Except Random.SpanError Decision × Engine → Prop where
  | tooFar (exceeds : engine.exceedsHopLimit request = true) :
      Received engine inFace request (.ok (.suppress .hopLimit false), engine)
  | overheard (within : engine.exceedsHopLimit request = false) {deferral : Deferral}
      (held : engine.deferral? request.name = some deferral) :
      Received engine inFace request
        (.ok (.suppress .duplicate (engine.variant == .weighted)),
          (engine.cancelDeferred request.name).2)
  | produced (within : engine.exceedsHopLimit request = false)
      (idle : engine.deferral? request.name = none) (out : Face) :
      Received engine inFace request
        (.ok (.send [out.id] request), engine.creditRequest request.name inFace.id)
  | stranded (within : engine.exceedsHopLimit request = false)
      (idle : engine.deferral? request.name = none) :
      Received engine inFace request (.ok (.suppress .noCandidates false), engine)
  | relayed (within : engine.exceedsHopLimit request = false)
      (idle : engine.deferral? request.name = none) {face : FaceId} {others : List FaceId}
      {result : Except Random.SpanError Decision × Engine}
      (relayed : Relayed engine request face others result) : Received engine inFace request result

theorem cancelDeferred_of_idle {name : Name} (idle : engine.deferral? name = none) :
    engine.cancelDeferred name = (false, engine) := by
  simp [cancelDeferred, idle]

theorem cancelDeferred_of_held {name : Name} {deferral : Deferral}
    (held : engine.deferral? name = some deferral) :
    engine.cancelDeferred name =
      (true, { engine.withTimers (engine.timers.cancel deferral.handle) with
        deferred := engine.deferred.erase name }) := by
  simp [cancelDeferred, held]

theorem receive_received (engine : Engine) (inFace : Face) (request : Request) (hops : List Hop) :
    Received engine inFace request (engine.receive inFace request hops) := by
  unfold receive
  split
  · rename_i exceeds
    exact .tooFar exceeds
  · rename_i within
    have within : engine.exceedsHopLimit request = false := Bool.eq_false_iff.mpr within
    cases known : engine.deferral? request.name with
    | some deferral =>
      have overheard : Received engine inFace request _ := .overheard within known
      rw [cancelDeferred_of_held known] at overheard ⊢
      exact overheard
    | none =>
      rw [cancelDeferred_of_idle known]
      dsimp only
      rw [if_neg (by simp)]
      unfold forward
      dsimp only
      split
      · exact .produced within known _
      · split
        · exact .stranded within known
        · exact .relayed within known (relay_relayed engine request _ _)

/-- A request of a name that is held back: only the hop limit comes first. -/
theorem receive_of_held {deferral : Deferral} (inFace : Face) (hops : List Hop)
    (held : engine.deferral? request.name = some deferral) :
    engine.receive inFace request hops =
      if engine.exceedsHopLimit request then (.ok (.suppress .hopLimit false), engine)
      else (.ok (.suppress .duplicate (engine.variant == .weighted)),
        (engine.cancelDeferred request.name).2) := by
  have received := receive_received engine inFace request hops
  generalize engine.receive inFace request hops = result at received ⊢
  cases received with
  | tooFar exceeds => rw [if_pos exceeds]
  | overheard within held => rw [if_neg (Bool.eq_false_iff.mp within)]
  | produced within idle out => simp [held] at idle
  | stranded within idle => simp [held] at idle
  | relayed within idle relayed => simp [held] at idle

theorem receive_of_duplicate {inFace : Face} {hops : List Hop} {rejectPending : Bool}
    (answered : (engine.receive inFace request hops).1 =
      .ok (.suppress .duplicate rejectPending)) :
    (engine.receive inFace request hops).2 = (engine.cancelDeferred request.name).2 := by
  have received := receive_received engine inFace request hops
  generalize engine.receive inFace request hops = result at received answered ⊢
  cases received with
  | tooFar exceeds => cases answered
  | overheard within held => rfl
  | produced within idle out => cases answered
  | stranded within idle => cases answered
  | relayed within idle relayed => cases relayed <;> cases answered

end Engine

end Overhear
