import Overhear.Proofs.Engine.Roster
import Overhear.Proofs.Engine.Run
import Overhear.Proofs.Ledger

/-! The accounts of an engine with its timer service hold in every run: each request held back has one
timer, which is armed or on its way, and no other timer is armed for a request. -/
namespace Overhear.Engine

/-- Taking firings out of the timer service leaves the rest of the engine alone. -/
theorem effect_withTimers {engine : Engine} {firings : List (Firing Event)} {rest : Timers Event}
    (fired : engine.timers.Fired firings rest) :
    engine.roster.Effect firings [] (engine.withTimers rest).roster :=
  .fired fired fun event => by cases event <;> rfl

/-- What each act does to the timers, whatever the host delivers. -/
theorem effect_perform {engine : Engine} (act : Act) (sound : engine.timers.Sound) :
    engine.roster.Effect (engine.perform act).1.firings act.deliveries
      (engine.perform act).2.roster := by
  cases act with
  | receive inFace request hops => exact .changed (receive_changes engine inFace request hops)
  | respond pending inFace response =>
    exact .changed (respond_changes engine pending inFace response)
  | detectLoop request => exact .changed (cancelDeferred_changes engine request.name)
  | expire pending => exact .changed (cancelDeferred_changes engine pending.name)
  | refuse inFace nack pending =>
    have nothing : Roster.Changes (fun _ => False) engine.roster engine.roster := .refl
    exact .changed nothing
  | cancel name => exact .changed (cancelDeferred_changes engine name)
  | sweep => exact .changed (sweep_changes engine)
  | shutdown => exact .changed (shutdown_changes engine)
  | popDue limit => exact effect_withTimers (sound.move (.popDue limit))
  | fireNext => exact effect_withTimers (sound.move .fireNext)
  | advance step => exact effect_withTimers (sound.move (.advance step))
  | advanceTo target => exact effect_withTimers (sound.move (.advanceTo target))
  | deliver firing =>
    by_cases counts : engine.live firing.event = some firing.handle
    · obtain ⟨ended, timers, live, changes⟩ := fire_changes counts
      exact .consumed counts timers live changes
    · simp only [perform, fire_of_stale counts]
      exact .ignored counts

/-- Nothing counts in a new engine, whatever its timer service and its records were used for before. -/
theorem live_start (config : Config Float) (instanceName : Name) (seed : UInt64)
    (timers : Timers Event) (records : Records) (event : Event) :
    (((start config instanceName seed).withTimers timers).withRecords records).live event = none := by
  have unscored : ∀ key, (((start config instanceName seed).withTimers timers).withRecords
      records).book.faceScore? key = none := by
    simp [withRecords, withTimers, start, ScoreBook.faceScore?, ScoreBook.standing?]
  cases event with
  | forward name => simp [live, deferral?, withRecords, withTimers, start]
  | decay name face => exact ScoreBook.live_of_unscored unscored rfl (.decay name face)
  | refresh => rfl

/-- A new engine has no timers, whatever records it works on. -/
theorem ledger_start (config : Config Float) (instanceName : Name) (seed : UInt64)
    (records : Records) :
    ((start config instanceName seed).withRecords records).roster.Ledger [] [] :=
  .start rfl (live_start config instanceName seed {} records)

/-- The accounts hold after every history in which the host delivers only what it popped. -/
theorem ledger_run {start engine : Engine} {history : History}
    (initial : start.roster.Ledger [] []) (run : Run start history engine)
    (honest : history.Honest) : engine.roster.Ledger history.popped history.delivered := by
  induction run with
  | start => exact initial
  | act before act ih =>
    have ledger := ih honest.2
    exact ledger.effect (effect_perform act ledger.sound.timers) honest.1

/-- The requests held back and the armed timers belong to each other one by one. -/
structure Matched (engine : Engine) (history : History) : Prop where
  owned : ∀ name deferral, engine.deferral? name = some deferral →
    (∃ deadline, engine.timers.armed? deferral.handle = some (deadline, .forward name)) ∨
      (⟨deferral.handle, .forward name⟩ : Firing Event) ∈ history.popped ∧
        (⟨deferral.handle, .forward name⟩ : Firing Event) ∉ history.delivered
  pending : ∀ handle, engine.timers.isPending handle = true ↔
    ∃ entry, engine.timers.armed? handle = some entry
  queued : ∀ (slot : Slot) event, engine.timers.queue[slot]? = some event ↔
    engine.timers.armed? slot.handle = some (slot.deadline, event)
  held : ∀ handle deadline name, engine.timers.armed? handle = some (deadline, .forward name) →
    ∃ deferral, engine.deferral? name = some deferral ∧ deferral.handle = handle
  apart : ∀ first second a b, engine.deferral? first = some a → engine.deferral? second = some b →
    first ≠ second → a.handle ≠ b.handle

theorem deferrals_match_timers {config : Config Float} {entropy : UInt64} {built engine : Engine}
    {history : History} (created : Engine.create config entropy = .ok built) (records : Records)
    (run : Run (built.withRecords records) history engine) (honest : history.Honest) :
    engine.Matched history := by
  obtain ⟨instanceName, seed, rfl⟩ := eq_start_of_create created
  have ledger := ledger_run (ledger_start config instanceName seed records) run honest
  have counts : ∀ name deferral, engine.deferral? name = some deferral →
      engine.roster.live (.forward name) = some deferral.handle :=
    fun name deferral held => live_forward_eq_some.mpr ⟨deferral, held, rfl⟩
  constructor
  · intro name deferral held
    exact ledger.accounted _ _ (counts name deferral held)
  · intro handle
    exact (ledger.sound.timers.isPending_iff handle).trans Option.isSome_iff_exists
  · intro slot event
    exact ledger.sound.timers.queued_iff
  · intro handle deadline name armed
    exact live_forward_eq_some.mp (ledger.exact _ _ _ armed)
  · intro first second a b heldFirst heldSecond different same
    have shared := ledger.sound.exclusive _ _ _ (counts first a heldFirst)
      (same ▸ counts second b heldSecond)
    exact different (Event.forward.inj shared)

/-- A relay holds three requests back, one of them twice. The timer of the second is popped and delivered
two times, then that of the first is popped. -/
def lateDelivery : History × Engine :=
  (Sample.relay .navigo).performAll [Sample.hears "c", .fireNext,
    .deliver ⟨⟨2⟩, .forward ⟨["b"]⟩⟩, .deliver ⟨⟨2⟩, .forward ⟨["b"]⟩⟩, .fireNext,
    Sample.hears "a", Sample.hears "a", Sample.hears "b", Sample.hears "a"]

theorem deferrals_match_timers_late_delivery :
    lateDelivery.1.Honest ∧
      lateDelivery.1.popped = [⟨⟨3⟩, .forward ⟨["a"]⟩⟩, ⟨⟨2⟩, .forward ⟨["b"]⟩⟩] ∧
      (lateDelivery.2.deferral? ⟨["a"]⟩).isSome ∧ (lateDelivery.2.deferral? ⟨["c"]⟩).isSome ∧
      lateDelivery.2.Matched lateDelivery.1 := by
  have honest : lateDelivery.1.Honest := by decide +kernel
  have popped : lateDelivery.1.popped = [⟨⟨3⟩, .forward ⟨["a"]⟩⟩, ⟨⟨2⟩, .forward ⟨["b"]⟩⟩] := by
    decide +kernel
  refine ⟨honest, popped, by decide +kernel, by decide +kernel, ?_⟩
  exact deferrals_match_timers (Sample.create_relay .navigo) {} (run_performAll _ _) honest

end Overhear.Engine
