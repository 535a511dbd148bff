import Overhear.Proofs.Engine.Draining
import Overhear.Proofs.Engine.Suppression
import Overhear.Proofs.Score.Pairing
import Overhear.Proofs.Score.Crediting

/-! What a response does to an engine. One without the announcement that its variant relies on only ends the
waiting for it; every other one is accepted, and nothing is learned by halves. -/
namespace Overhear

/-- Where a response tells that its content is. -/
def Response.destination? (response : Response) : Option Coordinate :=
  (response.tag.filter (·.destination.isKnown)).map (·.destination)

namespace ScoreBook

variable {α : Type}

/-- Keeping the destination of a name adds no record to those that a credit at the name reaches. -/
theorem reaches_setDestination (book : ScoreBook α) (subject : Name) (destination : Coordinate) :
    (book.setDestination subject destination).Reaches subject = book.Reaches subject := by
  funext name
  have recorded : (book.setDestination subject destination).records.contains name =
      (decide (name = subject) || book.records.contains name) := book.contains_touchRecord name subject
  by_cases same : name = subject
  · simp [Reaches, same]
  · simp [Reaches, recorded, same]

variable [Scalar α]

theorem placeOf?_learn (book : ScoreBook α) (key : ScoreKey) (destination : Option Coordinate)
    (name : Name) : (book.learn key destination).placeOf? name =
      if name = key.name then destination.or (book.placeOf? name) else book.placeOf? name := by
  unfold learn
  rw [placeOf?_creditResponse]
  cases destination with
  | none => exact (ite_self _).symm
  | some place => exact placeOf?_setDestination book key.name place name

/-- Learning from a response counts it where a credit for it does, whether or not it tells a destination. -/
theorem credits_learn (book : ScoreBook α) (key : ScoreKey) (destination : Option Coordinate) :
    (∀ name, book.Reaches key.name name → ∃ timer,
      (book.learn key destination).faceScore? ⟨name, key.face⟩ =
        some ⟨Stats.countResponse (book.openedStats ⟨name, key.face⟩), some timer⟩) ∧
    ∀ other, ¬ (book.Reaches key.name other.name ∧ other.face = key.face) →
      (book.learn key destination).faceScore? other = book.faceScore? other := by
  cases destination with
  | none =>
    have credits := book.credits_creditUpward Stats.countResponse key.name key.face
    exact ⟨credits.counted, credits.spared⟩
  | some place =>
    have credits := (book.setDestination key.name place).credits_creditUpward Stats.countResponse key.name
      key.face
    rw [reaches_setDestination] at credits
    refine ⟨fun name reached => ?_, fun other spared => ?_⟩
    · obtain ⟨timer, counted⟩ := credits.counted name reached
      rw [openedStats, faceScore?_setDestination] at counted
      exact ⟨timer, counted⟩
    · exact (credits.spared other spared).trans (faceScore?_setDestination ..)

end ScoreBook

namespace Engine

variable {engine after : Engine} {name announced : Name} {face : FaceId} {inFace : Face}
  {response : Response}

/-- The request of a name is no longer held back; nothing else changed. -/
structure CancelsOnly (engine : Engine) (name : Name) (after : Engine) : Prop where
  idle : engine.deferral? name = none → after = engine
  held : ∀ deferral, engine.deferral? name = some deferral → after = engine.givenUp name deferral

theorem cancelsOnly_cancelDeferred (engine : Engine) (name : Name) :
    engine.CancelsOnly name (engine.cancelDeferred name).2 where
  idle idle := by rw [cancelDeferred_of_idle idle]
  held _ := cancelDeferred_snd_of_held

theorem cancelDeferred_fst (engine : Engine) (name : Name) :
    (engine.cancelDeferred name).1 = engine.isDeferred name := by
  have found : engine.isDeferred name = (engine.deferral? name).isSome :=
    Std.ExtTreeMap.contains_eq_isSome_getElem?
  rw [found, cancelDeferred]
  cases engine.deferral? name <;> rfl

/-- What an engine learns from a response that came in on a face: where the announced name is, if the
response tells, and that the face delivered. -/
structure Learns (engine : Engine) (announced : Name) (destination : Option Coordinate) (face : FaceId)
    (after : Engine) : Prop where
  indexed : ∀ name, (after.destinations.find? name).map (·.coordinate) =
    if name = announced then destination.or ((engine.destinations.find? name).map (·.coordinate))
    else (engine.destinations.find? name).map (·.coordinate)
  placed : ∀ name, after.book.placeOf? name =
    if name = announced then destination.or (engine.book.placeOf? name) else engine.book.placeOf? name
  unplaced : destination = none → after.destinations = engine.destinations
  counted : ∀ name, engine.book.Reaches announced name → ∃ timer, after.book.faceScore? ⟨name, face⟩ =
    let stats := engine.book.openedStats ⟨name, face⟩
    some ⟨{ stats with responses := stats.responses + 1 }, some timer⟩
  spared : ∀ key, ¬ (engine.book.Reaches announced key.name ∧ key.face = face) →
    after.book.faceScore? key = engine.book.faceScore? key

/-- Whatever a host does, the index stays in good order. -/
theorem holds_of_reached {start : Engine} (fresh : start.destinations = {})
    (reached : Reached start engine) : ∃ places, engine.destinations.Holds places := by
  induction reached with
  | start => exact ⟨∅, fresh ▸ .empty⟩
  | @act before _ act ih =>
    obtain ⟨places, holds⟩ := ih
    by_cases tracked : before.variant.tracksAnnouncements = true
    · have step := destinations_perform before act
      split at step
      · exact ⟨places, step ▸ holds⟩
      · obtain ⟨id, inserted⟩ := step tracked
        exact ⟨_, holds.of_insert inserted⟩
    · have same : (before.perform act).2.destinations = before.destinations :=
        destinations_perform_of_untracked (Bool.eq_false_iff.mpr tracked)
      exact ⟨places, same ▸ holds⟩
  | scores _ _ ih | arm _ _ _ ih | disarm _ _ ih => exact ih

/-- An index that holds places takes in a destination without fail. -/
theorem learn_eq {places : Std.ExtTreeMap Name Coordinate} (holds : engine.destinations.Holds places)
    (inFace : Face) (announced : Name) (response : Response) :
    ∃ destinations, engine.learn inFace announced response.tag = .ok { engine with
        destinations, book := engine.book.learn ⟨announced, inFace.id⟩ response.destination? } ∧
      (response.destination? = none → destinations = engine.destinations) ∧
      destinations.Holds (response.destination?.elim places (places.insert announced)) := by
  unfold Response.destination? learn
  cases located : response.tag.filter (·.destination.isKnown) with
  | none => exact ⟨engine.destinations, rfl, fun _ => rfl, holds⟩
  | some tag =>
    obtain ⟨id, destinations, inserted, kept⟩ := holds.insert announced tag.destination
    refine ⟨destinations, ?_, nofun, kept⟩
    simp only [inserted]
    rfl

theorem learns_learn {places : Std.ExtTreeMap Name Coordinate} (holds : engine.destinations.Holds places)
    (inFace : Face) (announced : Name) (response : Response) :
    ∃ after, engine.learn inFace announced response.tag = .ok after ∧
      after = { engine with destinations := after.destinations, book := after.book } ∧
      Learns engine announced response.destination? inFace.id after := by
  obtain ⟨destinations, learned, unplaced, kept⟩ := learn_eq holds inFace announced response
  have credits := engine.book.credits_learn ⟨announced, inFace.id⟩ response.destination?
  refine ⟨_, learned, rfl, fun name => ?_, ?_, unplaced, credits.1, credits.2⟩
  · rw [holds.agreesWith.place, kept.agreesWith.place]
    cases response.destination? with
    | none => exact (ite_self _).symm
    | some place =>
      simp [Std.ExtTreeMap.getElem?_insert, eq_comm (a := announced)]
  · exact engine.book.placeOf?_learn ⟨announced, inFace.id⟩ response.destination?

/-- Giving a request up first does not change what is learned. -/
theorem Learns.of_cancelDeferred {destination : Option Coordinate}
    (learns : (engine.cancelDeferred name).2.Learns announced destination face after) :
    engine.Learns announced destination face after := by
  obtain ⟨indexed, placed, unplaced, counted, spared⟩ := learns
  rw [(unlearned_cancelDeferred engine name).destinations] at indexed unplaced
  rw [book_cancelDeferred] at placed counted spared
  exact ⟨indexed, placed, unplaced, counted, spared⟩

/-- What a host is told of an accepted response. -/
def accepted (engine : Engine) (pending : Pending) (inFace : Face) (response : Response) :
    ResponseDecision :=
  ⟨returnFaces pending inFace, { response with tag := some (response.tag.getD .neutral) },
    engine.isDeferred response.name⟩

theorem tracksAnnouncements_iff (variant : Variant) :
    variant.tracksAnnouncements = true ↔ variant = .weighted := by
  cases variant <;> decide

theorem respond_of_untracked (pending : Pending) (inFace : Face) (response : Response)
    (untracked : engine.variant ≠ .weighted) :
    engine.respond pending inFace response =
      (.ok (engine.accepted pending inFace response), (engine.cancelDeferred response.name).2) := by
  have passes : engine.variant.tracksAnnouncements = false :=
    Bool.eq_false_iff.mpr (mt (tracksAnnouncements_iff _).mp untracked)
  rw [respond, accepted, ← cancelDeferred_fst]
  dsimp only
  rw [variant_cancelDeferred, passes]
  rfl

theorem respond_of_unannounced (pending : Pending) (inFace : Face)
    (tracked : engine.variant = .weighted) (unannounced : response.announced = none) :
    engine.respond pending inFace response =
      (.error (.missingAnnouncement response.name), (engine.cancelDeferred response.name).2) := by
  rw [respond]
  dsimp only
  rw [variant_cancelDeferred, (tracksAnnouncements_iff _).mpr tracked, unannounced]
  rfl

theorem respond_of_learned (pending : Pending) {inFace : Face} (tracked : engine.variant = .weighted)
    (announces : response.announced = some announced)
    (learned : (engine.cancelDeferred response.name).2.learn inFace announced response.tag = .ok after) :
    engine.respond pending inFace response = (.ok (engine.accepted pending inFace response), after) := by
  rw [respond, accepted, ← cancelDeferred_fst]
  dsimp only
  rw [variant_cancelDeferred, (tracksAnnouncements_iff _).mpr tracked, announces]
  dsimp only
  rw [if_pos rfl, learned]

/-- What a host is told of a response: whether a request was held back for it, and the response itself with
a neutral tag if it has none. It goes back where the request came from, though not through the face that it
came in on unless others hear that too. -/
structure Accepts (engine : Engine) (pending : Pending) (inFace : Face) (response : Response)
    (decision : ResponseDecision) : Prop where
  cancelled : decision.cancelledPending = true ↔ ∃ deferral, engine.deferral? response.name = some deferral
  located : ∀ tag, response.tag = some tag → decision.response = response
  unlocated : response.tag = none → decision.response = { response with tag := some .neutral }
  faces : decision.faces =
    (pending.downstream.filter fun face => face.id != inFace.id || face.isBroadcast).map (·.id)

theorem accepts_accepted (engine : Engine) (pending : Pending) (inFace : Face) (response : Response) :
    engine.Accepts pending inFace response (engine.accepted pending inFace response) where
  cancelled := by
    rw [← Option.isSome_iff_exists]
    exact iff_of_eq (congrArg (· = true) Std.ExtTreeMap.contains_eq_isSome_getElem?)
  located tag tagged := by
    simp only [accepted, tagged, Option.getD_some]
    rw [← tagged]
  unlocated untagged := by
    simp only [accepted, untagged, Option.getD_none]
  faces := rfl

/-- Whatever state a host has brought an engine to, a response is refused only for want of the announcement
that its variant relies on, and then only the request held back for it is given up. Every other response is
accepted, and all that it tells is learned with it. -/
theorem responses_all_or_cancel_only {config : Config Float} {entropy : UInt64} {built : Engine}
    (created : Engine.create config entropy = .ok built) (calls : List (Timers.Call Event))
    (records : Records)
    (reached : Reached ((built.withTimers (Timers.Run.after calls).timers).withRecords records) engine)
    (pending : Pending) (inFace : Face) (response : Response) :
    let result := engine.respond pending inFace response
    ((∃ cause, result.1 = .error cause) ↔ engine.variant = .weighted ∧ response.announced = none) ∧
    (∀ cause, result.1 = .error cause → cause = .missingAnnouncement response.name ∧
      engine.CancelsOnly response.name result.2) ∧
    ∀ decision, result.1 = .ok decision → engine.Accepts pending inFace response decision ∧
      (engine.variant ≠ .weighted → engine.CancelsOnly response.name result.2) ∧
      (engine.variant = .weighted → ∃ announced cancelled, response.announced = some announced ∧
        engine.CancelsOnly response.name cancelled ∧
        result.2 = { cancelled with destinations := result.2.destinations, book := result.2.book } ∧
        engine.Learns announced response.destination? inFace.id result.2) := by
  intro result
  have cancels := cancelsOnly_cancelDeferred engine response.name
  by_cases tracked : engine.variant = .weighted
  · cases announces : response.announced with
    | none =>
      have refused : result = _ := respond_of_unannounced pending inFace tracked announces
      rw [refused]
      refine ⟨⟨fun _ => ⟨tracked, rfl⟩, fun _ => ⟨_, rfl⟩⟩, fun cause failed => ?_, nofun⟩
      cases failed
      exact ⟨rfl, cancels⟩
    | some announced =>
      obtain ⟨instanceName, seed, rfl⟩ := eq_start_of_create created
      obtain ⟨places, holds⟩ := holds_of_reached rfl reached
      rw [← (unlearned_cancelDeferred engine response.name).destinations] at holds
      obtain ⟨after, learned, rest, learns⟩ := learns_learn holds inFace announced response
      have told : result = _ := respond_of_learned pending tracked announces learned
      rw [told]
      refine ⟨⟨nofun, fun refused => nomatch refused.2⟩, nofun, fun decision ok => ?_⟩
      cases ok
      exact ⟨accepts_accepted engine pending inFace response, fun other => absurd tracked other,
        fun _ => ⟨announced, _, rfl, cancels, rest, learns.of_cancelDeferred⟩⟩
  · have passed : result = _ := respond_of_untracked pending inFace response tracked
    rw [passed]
    refine ⟨⟨nofun, fun refused => absurd refused.1 tracked⟩, nofun, fun decision ok => ?_⟩
    cases ok
    exact ⟨accepts_accepted engine pending inFace response, fun _ => cancels,
      fun weighted => absurd weighted tracked⟩

/-- The response to a request that a relay still holds back announces another name and where that is. -/
theorem responses_all_or_cancel_only_waiting :
    let response : Response :=
      ⟨⟨["a"]⟩, some ⟨["b"]⟩, some (.toward (Sample.place 0x4024000000000000))⟩
    let result := (Sample.holding .weighted).respond ⟨⟨["a"]⟩, [Sample.medium]⟩ Sample.medium response
    result.1 = .ok ⟨[⟨257⟩], response, true⟩ ∧
      ∃ cancelled, (Sample.holding .weighted).CancelsOnly ⟨["a"]⟩ cancelled ∧
        result.2 = { cancelled with destinations := result.2.destinations, book := result.2.book } ∧
        (Sample.holding .weighted).Learns ⟨["b"]⟩ (some (Sample.place 0x4024000000000000)) ⟨257⟩
          result.2 := by
  intro response
  have answered : ((Sample.holding .weighted).respond ⟨⟨["a"]⟩, [Sample.medium]⟩ Sample.medium
      response).1 = .ok ⟨[⟨257⟩], response, true⟩ := by decide +kernel
  have located : response.destination? = some (Sample.place 0x4024000000000000) := by decide +kernel
  have reached : Reached (Sample.relay .weighted) (Sample.holding .weighted) :=
    .act .start (Sample.hears "a")
  have outcome := responses_all_or_cancel_only (Sample.create_relay .weighted) [] {} reached
    ⟨⟨["a"]⟩, [Sample.medium]⟩ Sample.medium response
  obtain ⟨announced, cancelled, announces, cancels, rest, learns⟩ :=
    (outcome.2.2 _ answered).2.2 (by decide +kernel)
  obtain rfl := Option.some.inj announces
  rw [located] at learns
  exact ⟨answered, cancelled, cancels, rest, learns⟩

end Engine

end Overhear
