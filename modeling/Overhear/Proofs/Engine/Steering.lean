import Overhear.Proofs.Engine.Agreement
import Overhear.Proofs.Engine.Outgoing

/-! Announcements steer later requests. A request that comes without a tag goes out with one toward the place
announced last for the longest name above it, in the variant that tracks announcements; in the one that does
not, it goes out toward no place at all. -/
namespace Overhear

/-- Where announcements tell a request of some name to go: to the place of the longest announced name at or
above it, and nowhere when there is none. -/
inductive Destined (places : Std.ExtTreeMap Name Coordinate) (name : Name) : Coordinate → Prop where
  | announced {above : Name} {destination : Coordinate} (covers : above.covers name = true)
      (placed : places[above]? = some destination)
      (longest : ∀ other ∈ places, other.covers name = true → other.length ≤ above.length) :
      Destined places name destination
  | unannounced (none : ∀ other ∈ places, other.covers name = false) : Destined places name .unknown

/-- They tell it in one way: of the names at or above it only one has the greatest length. -/
theorem Destined.unique {places : Std.ExtTreeMap Name Coordinate} {name : Name}
    {first second : Coordinate} (one : Destined places name first) (other : Destined places name second) :
    first = second := by
  cases one with
  | @announced above _ covers placed longest =>
    obtain ⟨member, found⟩ := Std.ExtTreeMap.getElem?_eq_some_iff.mp placed
    cases other with
    | @announced beside _ covered placed' greatest =>
      obtain ⟨member', found'⟩ := Std.ExtTreeMap.getElem?_eq_some_iff.mp placed'
      have lengths : above.length = beside.length :=
        Nat.le_antisymm (greatest above member covers) (longest beside member' covered)
      have shorter := List.prefix_of_prefix_length_le (Name.covers_iff.mp covers)
        (Name.covers_iff.mp covered) (Nat.le_of_eq lengths)
      have same : above = beside := congrArg Name.mk (shorter.eq_of_length lengths)
      subst same
      exact found.symm.trans found'
    | unannounced none =>
      rw [none above member] at covers
      cases covers
  | unannounced none =>
    cases other with
    | @announced beside _ covered placed greatest =>
      obtain ⟨member, -⟩ := Std.ExtTreeMap.getElem?_eq_some_iff.mp placed
      rw [none beside member] at covered
      cases covered
    | unannounced => rfl

/-- The request with a tag that names a destination and no other position. -/
def Request.toward (request : Request) (destination : Coordinate) : Request :=
  { request with tag := some (.toward destination) }

theorem Request.eq_of_toward_eq {request : Request} {first second : Coordinate}
    (same : request.toward first = request.toward second) : first = second :=
  congrArg LocationTag.destination (Option.some.inj (congrArg Request.tag same))

namespace Destinations

variable {index : Destinations} {places : Std.ExtTreeMap Name Coordinate}

/-- The longest lookup in an index answers where its places tell a request to go. -/
theorem Holds.destined (holds : index.Holds places) (name : Name) :
    Destined places name (((index.findLongest? name).map (·.coordinate)).getD .unknown) := by
  cases found : index.findLongest? name with
  | none =>
    apply Destined.unannounced
    intro other placed
    exact holds.sound.findLongest?_eq_none_iff.mp found other ((holds.mem_iff other).mp placed)
  | some entry =>
    obtain ⟨present, covers, longer⟩ := (holds.agreesWith.longest name entry).mp found
    have placed := holds.agreesWith.place entry.name
    rw [present] at placed
    refine .announced covers placed.symm fun other member above => ?_
    by_cases same : other = entry.name
    · rw [same]
    · exact Nat.le_of_lt (longer other member above same)

end Destinations

namespace Engine

variable {engine : Engine} {history : History} {request : Request} {inFace : Face} {hops : List Hop}

/-- Whatever goes out for a request, at once or by the timer of its deferral, is another one. -/
structure GoesOutAs (engine : Engine) (inFace : Face) (request : Request) (hops : List Hop)
    (out : Request) : Prop where
  sent : ∀ faces sent after,
    engine.receive inFace request hops = (.ok (.send faces sent), after) → sent = out
  waiting : ∀ face delay handle held,
    engine.receive inFace request hops = (.ok (.deferred face delay handle), held) →
    held.deferral? request.name = some ⟨handle, face, out⟩
  fired : ∀ face delay handle held,
    engine.receive inFace request hops = (.ok (.deferred face delay handle), held) →
    ∀ between later, Run held between later → ∀ event onFace sent,
      (later.fire handle event).1 = .sendRequest onFace sent → sent = out

theorem tagToward_eq (known : Option Coordinate) :
    tagToward known = .toward (known.getD .unknown) := by
  cases known <;> rfl

/-- A variant that fills in known destinations sends an untagged request toward the one that it knows. -/
theorem outgoing_eq_toward (variant : engine.variant = .weighted ∨ engine.variant = .navigo)
    (untagged : request.tag = none) :
    engine.outgoing request = request.toward ((engine.knownDestination? request.name).getD .unknown) := by
  rw [outgoing_of_untagged untagged, Request.toward, ← tagToward_eq]
  rcases variant with weighted | navigo
  · simp only [filling?, weighted]
  · simp only [filling?, navigo]

/-- The tag filled in, if any, is toward the destination that the engine knows. -/
theorem goesOutAs_toward (inFace : Face) (sound : engine.roster.Sound)
    (variant : engine.variant = .weighted ∨ engine.variant = .navigo)
    (untagged : request.tag = none) (shared : hops.any (·.face.isPointToPoint) = false) :
    engine.GoesOutAs inFace request hops
      (request.toward ((engine.knownDestination? request.name).getD .unknown)) := by
  have unlined : line? hops = none := by simpa [line?] using shared
  rw [← outgoing_eq_toward variant untagged]
  have waiting : ∀ face delay handle held,
      engine.receive inFace request hops = (.ok (.deferred face delay handle), held) →
      held.deferral? request.name = some ⟨handle, face, engine.outgoing request⟩ := by
    intro face delay handle held answered
    obtain ⟨sent, -, out, waiting⟩ := leaves_of_receive answered rfl
    rw [← out unlined]
    exact waiting face delay handle rfl
  refine ⟨fun faces sent after answered => ?_, waiting, ?_⟩
  · obtain ⟨other, leaves, out, -⟩ := leaves_of_receive answered rfl
    rw [← out unlined]
    cases leaves <;> rfl
  · intro face delay handle held answered between later run event onFace sent fires
    have heldSound := sound_of_receive sound answered
    exact (sent_of_held run heldSound (waiting face delay handle held answered) fires).2.2

/-- That is where the places that the engine has kept tell the request to go. -/
theorem goesOutAs_destined {places : Std.ExtTreeMap Name Coordinate} (inFace : Face)
    (sound : engine.roster.Sound)
    (holds : engine.destinations.Holds places) (recalls : engine.book.Recalls places)
    (variant : engine.variant = .weighted ∨ engine.variant = .navigo)
    (untagged : request.tag = none) (shared : hops.any (·.face.isPointToPoint) = false) :
    ∃ destination, Destined places request.name destination ∧
      engine.GoesOutAs inFace request hops (request.toward destination) := by
  have goesOut := goesOutAs_toward inFace sound variant untagged shared
  rw [knownDestination?_eq holds recalls] at goesOut
  exact ⟨_, holds.destined request.name, goesOut⟩

/-- In every run an untagged request for relays goes out toward the place announced last for the longest
announced name above it where announcements are tracked, and toward none where they are not. -/
theorem untagged_requests_follow_announcements {config : Config Float} {entropy : UInt64}
    {built : Engine} (created : Engine.create config entropy = .ok built) (records : Records)
    (run : Run (built.withRecords records) history engine) (inFace : Face)
    (untagged : request.tag = none) (shared : hops.any (·.face.isPointToPoint) = false) :
    (engine.variant = .weighted → ∃ destination, Destined history.places request.name destination ∧
      engine.GoesOutAs inFace request hops (request.toward destination)) ∧
    (engine.variant = .navigo →
      engine.GoesOutAs inFace request hops (request.toward .unknown)) := by
  have sound : engine.roster.Sound := sound_of_run created records run
  obtain ⟨holds, recalls⟩ := kept_of_run created records run
  unfold placesKept at holds recalls
  rw [← variant_run run] at holds recalls
  constructor
  · intro weighted
    rw [weighted] at holds recalls
    exact goesOutAs_destined inFace sound holds recalls (.inl weighted) untagged shared
  · intro navigo
    rw [navigo] at holds recalls
    obtain ⟨destination, destined, goesOut⟩ :=
      goesOutAs_destined inFace sound holds recalls (.inr navigo) untagged shared
    have nowhere : Destined ∅ request.name .unknown := .unannounced fun other member =>
      absurd member Std.ExtTreeMap.not_mem_empty
    rw [destined.unique nowhere] at goesOut
    exact goesOut

/-- A request without a tag, as a consumer sends it. -/
def bare (components : List String) : Request := ⟨⟨components⟩, 1, none, none⟩

/-- Two names are announced, one above the other, and the upper one again from elsewhere. -/
def overlapping (variant : Variant) : History × Engine :=
  (Sample.relay variant).performAll [Sample.answers "c" ⟨["a"]⟩ (Sample.place 0x4028000000000000),
    Sample.answers "d" ⟨["a", "b"]⟩ (Sample.place 0x4010000000000000),
    Sample.answers "c" ⟨["a"]⟩ (Sample.place 0x4024000000000000)]

/-- A request below both names is held back and goes out toward the place of the lower one. -/
theorem untagged_requests_follow_announcements_overlapping :
    ((overlapping .weighted).2.receive Sample.medium (bare ["a", "b", "c"]) [⟨Sample.medium, 0⟩]).1 =
      .ok (.deferred ⟨257⟩ 1061000 ⟨4⟩) ∧
    Destined (overlapping .weighted).1.places ⟨["a", "b", "c"]⟩ (Sample.place 0x4010000000000000) ∧
    (overlapping .weighted).2.GoesOutAs Sample.medium (bare ["a", "b", "c"]) [⟨Sample.medium, 0⟩]
      ((bare ["a", "b", "c"]).toward (Sample.place 0x4010000000000000)) := by
  have run : Run (Sample.relay .weighted) (overlapping .weighted).1 (overlapping .weighted).2 :=
    run_performAll _ _
  have lower := (holds_places run rfl rfl).destined ⟨["a", "b", "c"]⟩
  have found : (((overlapping .weighted).2.destinations.findLongest? ⟨["a", "b", "c"]⟩).map
      (·.coordinate)).getD .unknown = Sample.place 0x4010000000000000 := by decide +kernel
  rw [found] at lower
  have untagged : (bare ["a", "b", "c"]).tag = none := rfl
  have shared : [(⟨Sample.medium, 0⟩ : Hop)].any (·.face.isPointToPoint) = false := by decide
  obtain ⟨destination, destined, goesOut⟩ := (untagged_requests_follow_announcements
    (Sample.create_relay .weighted) {} run Sample.medium untagged shared).1 rfl
  rw [destined.unique lower] at goesOut
  exact ⟨by decide +kernel, lower, goesOut⟩

/-- The other variant hears the same, and the same request goes out toward no place. -/
theorem announced_place_not_followed :
    Run (Sample.relay .navigo) (overlapping .navigo).1 (overlapping .navigo).2 ∧
    ¬ ∃ destination, Destined (overlapping .navigo).1.places ⟨["a", "b", "c"]⟩ destination ∧
      (overlapping .navigo).2.GoesOutAs Sample.medium (bare ["a", "b", "c"]) [⟨Sample.medium, 0⟩]
        ((bare ["a", "b", "c"]).toward destination) := by
  refine ⟨run_performAll _ _, fun ⟨destination, destined, goesOut⟩ => ?_⟩
  have answered : ((overlapping .navigo).2.receive Sample.medium (bare ["a", "b", "c"])
      [⟨Sample.medium, 0⟩]).1 = .ok (.send [⟨257⟩] ((bare ["a", "b", "c"]).toward .unknown)) := by
    decide +kernel
  have nowhere : destination = .unknown :=
    (Request.eq_of_toward_eq (goesOut.sent _ _ _ (Prod.ext answered rfl))).symm
  cases destined with
  | announced covers placed longest =>
    have known := History.isKnown_of_places placed
    rw [nowhere] at known
    cases known
  | unannounced none =>
    have announced : (⟨["a", "b"]⟩ : Name) ∈ (overlapping .navigo).1.places := by decide +kernel
    cases none _ announced

end Engine

end Overhear
