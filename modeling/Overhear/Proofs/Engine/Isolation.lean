import Overhear.Proofs.Engine.Fate

/-! Requests held back under different names share one timer service with each other and with the scores.
What an engine does for one name still leaves those of the others alone, with their timers. -/
namespace Overhear

/-- The act is about what is held back under a name. Time passes for every name, and a shutdown ends all. -/
def Act.Concerns (act : Act) (name : Name) : Prop :=
  match act with
  | .receive _ request _ => request.name = name
  | .respond _ _ response => response.name = name
  | .detectLoop request => request.name = name
  | .expire pending => pending.name = name
  | .cancel other => other = name
  | .deliver firing => firing.event = .forward name
  | .refuse .. | .sweep => False
  | .shutdown | .popDue _ | .fireNext | .advance _ | .advanceTo _ => True

namespace Engine

variable {engine after : Engine} {name other : Name}

/-- What is held back under a name is the same, and its timer is armed as it was. -/
structure Spares (name : Name) (engine after : Engine) : Prop where
  deferral : after.deferral? name = engine.deferral? name
  timer : ∀ deferral, engine.deferral? name = some deferral →
    after.timers.armed? deferral.handle = engine.timers.armed? deferral.handle
  pending : ∀ deferral, engine.deferral? name = some deferral →
    after.timers.isPending deferral.handle = engine.timers.isPending deferral.handle
  armed : ∀ handle deadline, after.timers.armed? handle = some (deadline, .forward name) ↔
    engine.timers.armed? handle = some (deadline, .forward name)

theorem Spares.refl (name : Name) (engine : Engine) : Spares name engine engine where
  deferral := rfl
  timer _ _ := rfl
  pending _ _ := rfl
  armed _ _ := Iff.rfl

/-- Timers of other events may change, once an event other than this one has ended. -/
theorem spares_of_changes {ended : Roster} (sound : engine.roster.Sound) (endedSound : ended.Sound)
    (timers : ended.timers = engine.timers)
    (changes : Roster.Changes (· ≠ .forward name) ended after.roster)
    (kept : after.deferral? name = engine.deferral? name) : Spares name engine after := by
  have soundAfter : after.roster.Sound := endedSound.changes changes
  have armed : ∀ handle deadline, after.timers.armed? handle = some (deadline, .forward name) ↔
      engine.timers.armed? handle = some (deadline, .forward name) := by
    intro handle deadline
    rw [← timers]
    exact changes.armed_outside endedSound (fun different => different rfl) handle deadline
  have timer : ∀ deferral, engine.deferral? name = some deferral →
      after.timers.armed? deferral.handle = engine.timers.armed? deferral.handle := by
    intro deferral held
    -- Whatever the handle is armed for, before or after, it is armed for this name.
    have counts : engine.roster.live (.forward name) = some deferral.handle :=
      live_forward_eq_some.mpr ⟨deferral, held, rfl⟩
    have countsAfter : after.roster.live (.forward name) = some deferral.handle :=
      live_forward_eq_some.mpr ⟨deferral, kept.trans held, rfl⟩
    refine Option.ext ?_
    rintro ⟨deadline, event⟩
    constructor
    · intro found
      obtain rfl := soundAfter.matching _ _ deadline event countsAfter found
      exact (armed _ _).mp found
    · intro found
      obtain rfl := sound.matching _ _ deadline event counts found
      exact (armed _ _).mpr found
  refine ⟨kept, timer, fun deferral held => ?_, armed⟩
  have pending := sound.timers.isPending_iff deferral.handle
  rw [Bool.eq_iff_iff]
  refine (soundAfter.timers.isPending_iff deferral.handle).trans (Iff.trans ?_ pending.symm)
  exact Eq.to_iff (congrArg (Option.isSome · = true) (timer deferral held))

theorem ne_forward_of_upkeep {event : Event} (upkeep : event.isUpkeep = true) :
    event ≠ .forward name := by
  rintro rfl
  cases upkeep

theorem ne_forward_of_about (different : other ≠ name) {event : Event} (about : About other event) :
    event ≠ .forward name := by
  rcases about with rfl | upkeep
  · exact fun same => different (Event.forward.inj same)
  · exact ne_forward_of_upkeep upkeep

theorem spares_cancelDeferred (sound : engine.roster.Sound) (different : other ≠ name) :
    Spares name engine (engine.cancelDeferred other).2 := by
  refine spares_of_changes sound sound rfl ?_ ?_
  · exact (cancelDeferred_changes engine other).widen fun _ same =>
      ne_forward_of_about different (.inl same)
  · rw [deferral?_cancelDeferred, if_neg different.symm]

theorem spares_fire (sound : engine.roster.Sound) {handle : Handle} {event : Event}
    (different : event ≠ .forward name) : Spares name engine (engine.fire handle event).2 := by
  by_cases counts : engine.live event = some handle
  · obtain ⟨ended, timers, live, changes⟩ := fire_changes counts
    refine spares_of_changes sound (sound.ended timers live) timers ?_
      (deferral?_fire_of_event_ne different)
    exact changes.widen fun _ => ne_forward_of_upkeep
  · rw [fire_of_stale counts]
    exact .refl name engine

/-- An act that is not about a name spares what is held back under it. -/
theorem spares_perform (sound : engine.roster.Sound) {act : Act} (apart : ¬ act.Concerns name) :
    Spares name engine (engine.perform act).2 := by
  cases act with
  | receive inFace request hops =>
    refine spares_of_changes sound sound rfl ?_ (deferral?_receive_of_ne inFace request hops (Ne.symm apart))
    exact (receive_changes engine inFace request hops).widen fun _ => ne_forward_of_about apart
  | respond pending inFace response =>
    refine spares_of_changes sound sound rfl ?_ ?_
    · exact (respond_changes engine pending inFace response).widen fun _ => ne_forward_of_about apart
    · exact (deferral?_respond pending inFace response name).trans (if_neg (Ne.symm apart))
  | detectLoop request => exact spares_cancelDeferred sound apart
  | expire pending => exact spares_cancelDeferred sound apart
  | refuse inFace nack pending => exact .refl name engine
  | cancel other => exact spares_cancelDeferred sound apart
  | sweep =>
    refine spares_of_changes sound sound rfl ?_ rfl
    exact (sweep_changes engine).widen fun _ => ne_forward_of_upkeep
  | shutdown | popDue | fireNext | advance | advanceTo => exact absurd trivial apart
  | deliver firing => exact spares_fire sound apart

/-- In no state that an engine can be in does an act about other names, or the upkeep of the scores, touch
what is held back under a name. -/
theorem names_do_not_interfere {config : Config Float} {entropy : UInt64} {built : Engine}
    {history : History} (created : Engine.create config entropy = .ok built) (records : Records)
    (run : Run (built.withRecords records) history engine) {act : Act} (apart : ¬ act.Concerns name) :
    Spares name engine (engine.perform act).2 :=
  spares_perform (sound_of_run created records run) apart

/-- A relay holds two requests back, and the timer of the first has been popped. -/
def holdingTwo : History × Engine :=
  (Sample.relay .navigo).performAll [.fireNext, Sample.hears "b", Sample.hears "a"]

/-- Sending the first request, which arms timers for its score, leaves the second one waiting. -/
theorem names_do_not_interfere_sending :
    (holdingTwo.1.popped = [⟨⟨1⟩, .forward ⟨["a"]⟩⟩] ∧
      (holdingTwo.2.fire ⟨1⟩ (.forward ⟨["a"]⟩)).1 = .sendRequest ⟨257⟩ (Sample.request "a") ∧
      holdingTwo.2.deferral? ⟨["b"]⟩ = some ⟨⟨2⟩, ⟨257⟩, Sample.request "b"⟩ ∧
      holdingTwo.2.timers.isPending ⟨2⟩ = true) ∧
    Spares ⟨["b"]⟩ holdingTwo.2
      (holdingTwo.2.perform (.deliver ⟨⟨1⟩, .forward ⟨["a"]⟩⟩)).2 := by
  refine ⟨by decide +kernel, ?_⟩
  apply names_do_not_interfere (Sample.create_relay .navigo) {} (run_performAll _ _)
  simp [Act.Concerns]

end Engine

end Overhear
