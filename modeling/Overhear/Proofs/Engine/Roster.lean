import Overhear.Proofs.Engine.Receive
import Overhear.Proofs.Score.Upkeep

/-! The timers of an engine: one for each request held back, and those of its scores. What a host does
with an engine changes the timers of the events it is about, and of the scores. -/
namespace Overhear.Engine

/-- The handle that counts for an event, among those that an engine holds. -/
def live (engine : Engine) : Event → Option Handle
  | .forward name => (engine.deferral? name).map (·.handle)
  | .decay name face => engine.book.live (.decay name face)
  | .refresh => engine.book.live .refresh

def roster (engine : Engine) : Roster := ⟨engine.timers, engine.live⟩

/-- The events of a request's name and of the scores. -/
def About (name : Name) (event : Event) : Prop := event = .forward name ∨ event.isUpkeep = true

theorem live_of_upkeep (engine : Engine) {event : Event} (upkeep : event.isUpkeep = true) :
    engine.live event = engine.book.live event := by
  cases event with
  | forward name => cases upkeep
  | decay name face => rfl
  | refresh => rfl

theorem live_forward_eq_some {engine : Engine} {name : Name} {handle : Handle} :
    engine.live (.forward name) = some handle ↔
      ∃ deferral, engine.deferral? name = some deferral ∧ deferral.handle = handle := by
  simp [live]

theorem deferral?_cancelDeferred (engine : Engine) (name other : Name) :
    (engine.cancelDeferred name).2.deferral? other =
      if other = name then none else engine.deferral? other := by
  unfold cancelDeferred
  split
  · rename_i idle
    split
    · rename_i same
      rw [same, idle]
    · rfl
  · by_cases same : other = name
    · subst same
      simp [deferral?]
    · simp [deferral?, Std.ExtTreeMap.getElem?_erase, same, Ne.symm same]

theorem next_cancelDeferred (engine : Engine) (name : Name) :
    (engine.cancelDeferred name).2.timers.next = engine.timers.next := by
  unfold cancelDeferred
  split
  · rfl
  · exact Timers.next_cancel _ _

theorem elapsed_cancelDeferred (engine : Engine) (name : Name) :
    (engine.cancelDeferred name).2.timers.elapsed = engine.timers.elapsed := by
  unfold cancelDeferred
  split
  · rfl
  · exact Timers.elapsed_cancel _ _

/-- A deferral takes the next handle. -/
theorem defer_fst (engine : Engine) (request : Request) (face : FaceId) (delay : Nanos) :
    (engine.defer request face delay).1 = .deferred face delay engine.timers.next := by
  rw [← next_cancelDeferred engine request.name]
  rfl

theorem deferral?_defer (engine : Engine) (request : Request) (face : FaceId) (delay : Nanos)
    (other : Name) :
    (engine.defer request face delay).2.deferral? other =
      if other = request.name then some ⟨engine.timers.next, face, request⟩
      else engine.deferral? other := by
  by_cases same : other = request.name
  · subst same
    simp [defer, deferral?, next_cancelDeferred]
  · have kept := deferral?_cancelDeferred engine request.name other
    rw [if_neg same] at kept ⊢
    rw [← kept]
    simp [defer, deferral?, Std.ExtTreeMap.getElem?_insert, Ne.symm same]

theorem deferral?_sendNow (engine : Engine) (request : Request) (faces : List FaceId) (other : Name) :
    (engine.sendNow request faces).2.deferral? other = engine.deferral? other := by
  unfold sendNow
  induction faces generalizing engine with
  | nil => rfl
  | cons face rest ih => exact ih (engine.creditRequest request.name face)

/-- What a score book does with its timers, the engine around it does. -/
theorem book_changes (engine : Engine) {book : ScoreBook Float} (upkeep : engine.book.Upkeep book) :
    Roster.Changes (fun event => event.isUpkeep = true) engine.roster
      ({ engine with book } : Engine).roster := by
  refine upkeep.graft rfl (fun event inScope => live_of_upkeep engine inScope) rfl
    (fun event inScope => live_of_upkeep _ inScope) ?_
  intro event outside
  cases event with
  | forward name => rfl
  | decay name face => exact False.elim (outside rfl)
  | refresh => exact False.elim (outside rfl)

theorem cancelDeferred_changes (engine : Engine) (name : Name) :
    Roster.Changes (· = .forward name) engine.roster (engine.cancelDeferred name).2.roster := by
  have gone := deferral?_cancelDeferred engine name
  cases known : engine.deferral? name with
  | none =>
    rw [cancelDeferred_of_idle known]
    exact .refl
  | some deferral =>
    rw [cancelDeferred_of_held known] at gone ⊢
    refine .release (· = .forward name) [deferral.handle] .refl (fun _ ended => ended) ?_ rfl ?_ ?_
    · intro handle
      simp [roster, live, known, eq_comm]
    · rintro event rfl
      simp [roster, live, gone]
    · intro event spared
      cases event with
      | forward other =>
        have different : other ≠ name := by
          intro same
          subst same
          exact spared rfl
        simp only [roster, live]
        rw [gone, if_neg different]
      | decay other face => rfl
      | refresh => rfl

theorem defer_changes (engine : Engine) (request : Request) (face : FaceId) (delay : Nanos) :
    Roster.Changes (· = .forward request.name) engine.roster
      (engine.defer request face delay).2.roster := by
  refine .engage (.forward request.name) delay
    (cancelDeferred_changes engine request.name) rfl ?_ rfl ?_
  · simp [roster, live, deferral?_cancelDeferred]
  · intro event
    cases event with
    | forward other =>
      by_cases same : other = request.name
      · subst same
        simp [roster, live, defer, deferral?]
      · have different : Event.forward other ≠ .forward request.name := by
          simpa using same
        rw [if_neg different]
        simp [roster, live, deferral?_defer, deferral?_cancelDeferred, same]
    | decay other face => rfl
    | refresh => rfl

theorem creditRequest_changes (engine : Engine) (name : Name) (face : FaceId) :
    Roster.Changes (fun event => event.isUpkeep = true) engine.roster
      (engine.creditRequest name face).roster :=
  book_changes engine (ScoreBook.creditRequest_upkeep _ _ face)

theorem sendNow_changes (engine : Engine) (request : Request) (faces : List FaceId) :
    Roster.Changes (fun event => event.isUpkeep = true) engine.roster
      (engine.sendNow request faces).2.roster := by
  unfold sendNow
  induction faces generalizing engine with
  | nil => exact .refl
  | cons face rest ih =>
    exact (creditRequest_changes engine request.name face).trans
      (ih (engine.creditRequest request.name face))

theorem Relayed.changes {engine : Engine} {request : Request} {face : FaceId} {others : List FaceId}
    {result : Except Random.SpanError Decision × Engine}
    (relayed : Relayed engine request face others result) :
    Roster.Changes (About request.name) engine.roster result.2.roster := by
  cases relayed with
  | sent tagged => exact (sendNow_changes engine _ _).widen fun event upkeep => .inr upkeep
  | @held sent tagged generator delay =>
    have changes := defer_changes { engine with generator } sent face delay
    rw [tagged.name] at changes
    exact changes.widen fun event same => .inl same
  | dropped => exact .refl
  | unbounded cause => exact .refl

theorem receive_changes (engine : Engine) (inFace : Face) (request : Request) (hops : List Hop) :
    Roster.Changes (About request.name) engine.roster
      (engine.receive inFace request hops).2.roster := by
  have received := receive_received engine inFace request hops
  generalize engine.receive inFace request hops = result at received
  cases received with
  | tooFar exceeds => exact .refl
  | overheard within held =>
    exact (cancelDeferred_changes engine request.name).widen fun event same => .inl same
  | produced within idle out =>
    exact (creditRequest_changes engine _ _).widen fun event upkeep => .inr upkeep
  | stranded within idle => exact .refl
  | relayed within idle relayed => exact relayed.changes

/-- Learning touches only destinations and scores. -/
theorem eq_of_learn {engine learned : Engine} {inFace : Face} {announced : Name}
    {tag : Option LocationTag} (success : engine.learn inFace announced tag = .ok learned) :
    ∃ destinations book, learned = { engine with destinations, book } ∧
      engine.book.Upkeep book := by
  simp only [learn, bind, Except.bind, pure, Except.pure] at success
  cases known : tag.filter (·.destination.isKnown) with
  | none =>
    simp only [known] at success
    exact ⟨_, _, (Except.ok.inj success).symm, ScoreBook.creditResponse_upkeep _ announced inFace.id⟩
  | some tag =>
    simp only [known] at success
    cases placed : (engine.destinations.insert announced tag.destination).mapError
        ForwardingError.forest with
    | error cause => simp [placed] at success
    | ok placement =>
      simp only [placed] at success
      exact ⟨_, _, (Except.ok.inj success).symm,
        (ScoreBook.setDestination_upkeep _ announced tag.destination).trans
          (ScoreBook.creditResponse_upkeep _ announced inFace.id)⟩

/-- A response changes the engine in two steps: the request of its name is given up, then the engine
learns, unless it refuses the response. -/
theorem respond_eq (engine : Engine) (pending : Pending) (inFace : Face) (response : Response) :
    ∃ destinations book,
      (engine.respond pending inFace response).2 =
        { (engine.cancelDeferred response.name).2 with destinations, book } ∧
      (engine.cancelDeferred response.name).2.book.Upkeep book := by
  unfold respond
  dsimp only
  generalize (engine.cancelDeferred response.name).2 = cancelled
  split
  · exact ⟨_, _, rfl, .refl _⟩
  · rename_i after learned
    split at learned
    · split at learned
      · cases learned
      · exact eq_of_learn learned
    · cases learned
      exact ⟨_, _, rfl, .refl _⟩

theorem respond_changes (engine : Engine) (pending : Pending) (inFace : Face) (response : Response) :
    Roster.Changes (About response.name) engine.roster
      (engine.respond pending inFace response).2.roster := by
  obtain ⟨destinations, book, same, upkeep⟩ := respond_eq engine pending inFace response
  rw [same]
  have cancelled := cancelDeferred_changes engine response.name
  have learned := book_changes (engine.cancelDeferred response.name).2 upkeep
  exact (cancelled.widen fun event same => .inl same).trans
    (learned.widen fun event upkeep => .inr upkeep)

theorem sweep_changes (engine : Engine) :
    Roster.Changes (fun event => event.isUpkeep = true) engine.roster engine.sweep.2.roster :=
  book_changes engine (ScoreBook.sweep_upkeep _)

theorem live_shutdown (engine : Engine) (event : Event) : engine.shutdown.live event = none := by
  cases event with
  | forward name => simp [live, shutdown, deferral?]
  | decay name face =>
    simp only [live, shutdown]
    exact ScoreBook.live_shutdown _ _
  | refresh => rfl

theorem shutdown_changes (engine : Engine) :
    Roster.Changes (fun _ => True) engine.roster engine.shutdown.roster := by
  -- First the requests held back are given up, then the scores let go of their timers.
  let idle : Engine :=
    { engine.withTimers (engine.timers.cancelAll (engine.deferred.toList.map (·.2.handle))) with
      deferred := ∅ }
  have given : Roster.Changes (fun _ => True) engine.roster idle.roster := by
    refine .release (fun event => event.isUpkeep = false)
      (engine.deferred.toList.map (·.2.handle)) .refl (fun _ _ => trivial) ?_ rfl ?_ ?_
    · intro handle
      simp only [List.mem_map, Prod.exists, Std.ExtTreeMap.mem_toList_iff_getElem?_eq_some]
      constructor
      · rintro ⟨name, deferral, known, rfl⟩
        exact ⟨.forward name, rfl, live_forward_eq_some.mpr ⟨deferral, known, rfl⟩⟩
      · rintro ⟨event, ended, counts⟩
        cases event with
        | forward name =>
          obtain ⟨deferral, known, same⟩ := live_forward_eq_some.mp counts
          exact ⟨name, deferral, known, same⟩
        | decay name face => cases ended
        | refresh => cases ended
    · intro event ended
      cases event with
      | forward name => simp [idle, roster, live, deferral?]
      | decay name face => cases ended
      | refresh => cases ended
    · intro event spared
      cases event with
      | forward name => exact False.elim (spared rfl)
      | decay name face => rfl
      | refresh => rfl
  exact given.trans ((book_changes idle (ScoreBook.shutdown_upkeep idle.book)).widen fun _ _ => trivial)

/-- A firing that does not count is ignored. -/
theorem fire_of_stale {engine : Engine} {handle : Handle} {event : Event}
    (stale : engine.live event ≠ some handle) : engine.fire handle event = (.stale, engine) := by
  cases event with
  | forward name =>
    cases known : engine.deferral? name with
    | none => simp [fire, known]
    | some deferral =>
      have other : deferral.handle ≠ handle := by simpa [live, known] using stale
      simp [fire, known, Option.filter, other]
  | decay name face => simp [fire, ScoreBook.fireDecay_of_stale ⟨name, face⟩ stale]
  | refresh => simp [fire, ScoreBook.fireRefresh_of_stale stale]

/-- The live timer of a request held back sends it. -/
theorem fire_forward {engine : Engine} {name : Name} {deferral : Deferral}
    (held : engine.deferral? name = some deferral) :
    engine.fire deferral.handle (.forward name) =
      (.sendRequest deferral.face deferral.request,
        { engine with deferred := engine.deferred.erase name }.creditRequest name deferral.face) := by
  simp [fire, held, Option.filter]

/-- What follows from a timer of the scores for their book follows for the engine around it. -/
theorem book_fired (engine : Engine) {book : ScoreBook Float} {event : Event} {inner : Roster}
    (upkeep : event.isUpkeep = true) (fired : engine.book.Ended event inner)
    (changes : Roster.Changes (fun event => event.isUpkeep = true) inner book.roster) :
    ∃ ended : Roster, ended.timers = engine.timers ∧
      (∀ other, ended.live other = if other = event then none else engine.live other) ∧
      Roster.Changes (fun event => event.isUpkeep = true) ended
        ({ engine with book } : Engine).roster := by
  let ended : Roster :=
    ⟨engine.timers, fun other => if other = event then none else engine.live other⟩
  refine ⟨ended, rfl, fun _ => rfl, ?_⟩
  refine changes.graft fired.1.symm ?_ rfl (fun other inScope => live_of_upkeep _ inScope) ?_
  · intro other inScope
    simp only [ended, fired.2, live_of_upkeep engine inScope]
  · intro other outside
    have different : other ≠ event := by
      intro same
      subst same
      exact outside upkeep
    simp only [ended, if_neg different]
    cases other with
    | forward name => rfl
    | decay name face => exact False.elim (outside rfl)
    | refresh => exact False.elim (outside rfl)

/-- A firing that counts ends its event; what else changes only concerns scores. -/
theorem fire_changes {engine : Engine} {handle : Handle} {event : Event}
    (counts : engine.live event = some handle) :
    ∃ ended : Roster, ended.timers = engine.timers ∧
      (∀ other, ended.live other = if other = event then none else engine.live other) ∧
      Roster.Changes (fun event => event.isUpkeep = true) ended
        (engine.fire handle event).2.roster := by
  cases event with
  | forward name =>
    obtain ⟨deferral, held, rfl⟩ := live_forward_eq_some.mp counts
    rw [fire_forward held]
    refine ⟨{ engine with deferred := engine.deferred.erase name : Engine }.roster, rfl, ?_,
      creditRequest_changes _ name deferral.face⟩
    intro other
    cases other with
    | forward other =>
      by_cases same : other = name
      · simp [roster, live, deferral?, same]
      · simp [roster, live, deferral?, Std.ExtTreeMap.getElem?_erase, same, Ne.symm same]
    | decay other face => rfl
    | refresh => rfl
  | decay name face =>
    obtain ⟨-, inner, fired, changes⟩ := ScoreBook.fireDecay_of_live ⟨name, face⟩ counts
    exact book_fired engine rfl fired changes
  | refresh =>
    obtain ⟨-, inner, fired, changes⟩ := ScoreBook.fireRefresh_of_live counts
    exact book_fired engine rfl fired changes

end Overhear.Engine
