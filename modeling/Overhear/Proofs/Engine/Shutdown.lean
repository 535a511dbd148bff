import Overhear.Proofs.Engine.Fate
import Overhear.Proofs.Timers.Moves

/-! A shutdown ends all that an engine waits for. Firings that were popped before it are stale for good,
and no timer is armed until the next packet comes in. -/
namespace Overhear

/-- A request or a response came in; nothing else makes an idle engine arm a timer. -/
def Act.IsPacket : Act → Prop
  | .receive .. | .respond .. => True
  | _ => False

namespace ScoreBook

variable {α : Type} {book : ScoreBook α}

/-- No timer is pending in the service of a book, and the book waits for none. -/
structure Idle (book : ScoreBook α) : Prop where
  deadlines : book.timers.deadlines = ∅
  live : ∀ event, book.live event = none

theorem Idle.timers_forget (idle : book.Idle) (name : Name) :
    (book.forget name).timers = book.timers := by
  unfold forget
  split
  · rfl
  · exact Timers.cancelAll_of_idle idle.deadlines _

theorem Idle.forget (idle : book.Idle) (name : Name) : (book.forget name).Idle where
  deadlines := by
    rw [idle.timers_forget]
    exact idle.deadlines
  live event := by
    cases event with
    | forward other => rfl
    | decay other face =>
      rw [live_forget]
      split
      · rfl
      · exact idle.live _
    | refresh => exact (refreshTimer_forget book name).trans (idle.live .refresh)

/-- A sweep drops scores, none of which has a timer in an idle book. -/
theorem Idle.sweep (idle : book.Idle) :
    book.sweep.2.timers = book.timers ∧ book.sweep.2.Idle := by
  let Kept (after : ScoreBook α) : Prop := after.timers = book.timers ∧ after.Idle
  have start : Kept { book with records := (book.records.takeExpired book.now).2 } := by
    refine ⟨rfl, idle.deadlines, ?_⟩
    intro event
    rw [← idle.live event]
    cases event <;> rfl
  apply List.foldlRecOn (motive := Kept) _ _ start
  intro after kept name _
  exact ⟨(kept.2.timers_forget name).trans kept.1, kept.2.forget name⟩

end ScoreBook

namespace Engine

variable {engine later : Engine} {name : Name}

/-- Nothing is held back, no timer is pending, and none that fired counts. -/
structure Quiet (engine : Engine) : Prop where
  deferred : engine.deferred = ∅
  queue : engine.timers.queue = ∅
  deadlines : engine.timers.deadlines = ∅
  live : ∀ event, engine.live event = none

theorem Quiet.fire (quiet : engine.Quiet) (handle : Handle) (event : Event) :
    engine.fire handle event = (.stale, engine) := by
  apply fire_of_stale
  simp [quiet.live event]

theorem Quiet.cancelDeferred (quiet : engine.Quiet) (name : Name) :
    engine.cancelDeferred name = (false, engine) := by
  apply cancelDeferred_of_idle
  simp [deferral?, quiet.deferred]

/-- A quiet engine stays so with another service that is empty. -/
theorem Quiet.withTimers (quiet : engine.Quiet) {timers : Timers Event} (queue : timers.queue = ∅)
    (deadlines : timers.deadlines = ∅) : (engine.withTimers timers).Quiet where
  deferred := quiet.deferred
  queue := queue
  deadlines := deadlines
  live event := by
    rw [← quiet.live event]
    cases event <;> rfl

theorem Quiet.book (quiet : engine.Quiet) : engine.book.Idle where
  deadlines := quiet.deadlines
  live event := by
    cases event with
    | forward name => rfl
    | decay name face => exact quiet.live (.decay name face)
    | refresh => exact quiet.live .refresh

theorem Quiet.sweep (quiet : engine.Quiet) :
    engine.sweep.2.timers = engine.timers ∧ engine.sweep.2.Quiet := by
  obtain ⟨timers, idle⟩ := quiet.book.sweep
  have sameTimers : engine.sweep.2.timers = engine.timers := timers
  refine ⟨sameTimers, quiet.deferred, ?_, idle.deadlines, ?_⟩
  · rw [sameTimers]
    exact quiet.queue
  · intro event
    cases event with
    | forward name => exact quiet.live (.forward name)
    | decay name face => exact idle.live (.decay name face)
    | refresh => exact idle.live .refresh

theorem Quiet.shutdown (quiet : engine.Quiet) :
    engine.shutdown.timers = engine.timers ∧ engine.shutdown.Quiet := by
  have sameTimers : engine.shutdown.timers = engine.timers := by
    have given : engine.timers.cancelAll (engine.deferred.toList.map (·.2.handle)) = engine.timers :=
      Timers.cancelAll_of_idle quiet.deadlines _
    simp only [Engine.shutdown, Engine.timers, ScoreBook.shutdown] at given ⊢
    rw [given]
    exact Timers.cancelAll_of_idle quiet.deadlines _
  refine ⟨sameTimers, rfl, ?_, ?_, live_shutdown engine⟩
  · rw [sameTimers]
    exact quiet.queue
  · rw [sameTimers]
    exact quiet.deadlines

/-- What a quiet engine does when no packet comes in. -/
structure Rests (engine : Engine) (act : Act) : Prop where
  quiet : (engine.perform act).2.Quiet
  next : (engine.perform act).2.timers.next = engine.timers.next
  firings : (engine.perform act).1.firings = []

/-- An act that changes nothing leaves a quiet engine at rest. -/
theorem Quiet.rests (quiet : engine.Quiet) {act : Act} (same : (engine.perform act).2 = engine)
    (unpopped : (engine.perform act).1.firings = []) : engine.Rests act := by
  refine ⟨?_, ?_, unpopped⟩
  · rw [same]
    exact quiet
  · rw [same]

theorem Quiet.perform (quiet : engine.Quiet) {act : Act} (noPacket : ¬ act.IsPacket) :
    engine.Rests act := by
  have passed : ∀ target, (engine.withTimers (engine.timers.advanceTo target)).Quiet :=
    fun target => quiet.withTimers quiet.queue quiet.deadlines
  cases act with
  | receive | respond => exact absurd trivial noPacket
  | detectLoop request =>
    exact quiet.rests (congrArg Prod.snd (quiet.cancelDeferred request.name)) rfl
  | expire pending =>
    exact quiet.rests (congrArg Prod.snd (quiet.cancelDeferred pending.name)) rfl
  | refuse inFace nack pending => exact quiet.rests rfl rfl
  | cancel name => exact quiet.rests (congrArg Prod.snd (quiet.cancelDeferred name)) rfl
  | sweep => exact ⟨quiet.sweep.2, congrArg Timers.next quiet.sweep.1, rfl⟩
  | shutdown => exact ⟨quiet.shutdown.2, congrArg Timers.next quiet.shutdown.1, rfl⟩
  | popDue limit =>
    have nothing := Timers.popDue_of_empty quiet.queue limit
    apply quiet.rests <;> simp only [Engine.perform, nothing] <;> rfl
  | fireNext =>
    have nothing := Timers.fireNext_of_empty quiet.queue
    apply quiet.rests <;> simp only [Engine.perform, nothing] <;> rfl
  | advance step =>
    have jump := Timers.advance_of_empty quiet.queue step
    constructor <;> simp only [Engine.perform, jump]
    · exact passed _
    · rfl
    · rfl
  | advanceTo target => exact ⟨passed target, rfl, rfl⟩
  | deliver firing =>
    exact quiet.rests (congrArg Prod.snd (quiet.fire firing.handle firing.event)) rfl

/-- What has become of an engine that was quiet before. -/
structure Silent (before : Engine) (between : History) (later : Engine) : Prop where
  quiet : later.Quiet
  -- No handle was handed out, so no timer was armed in between.
  next : later.timers.next = before.timers.next
  unpopped : between.popped = []
  deaf : ∀ handle event, later.fire handle event = (.stale, later)

/-- A quiet engine stays so until a packet comes in. -/
theorem Quiet.silent (quiet : engine.Quiet) {between : History} (run : Run engine between later)
    (noPacket : ∀ step ∈ between, ¬ step.act.IsPacket) : Silent engine between later := by
  induction run with
  | start => exact ⟨quiet, rfl, rfl, quiet.fire⟩
  | act before act ih =>
    obtain ⟨last, earlier⟩ := List.forall_mem_cons.mp noPacket
    have silent := ih earlier
    have rests := silent.quiet.perform last
    refine ⟨rests.quiet, rests.next.trans silent.next, ?_, rests.quiet.fire⟩
    exact List.append_eq_nil_iff.mpr ⟨rests.firings, silent.unpopped⟩

/-- An engine that kept its accounts is quiet once it was shut down. -/
theorem quiet_shutdown {popped delivered : List (Firing Event)}
    (ledger : engine.roster.Ledger popped delivered) : engine.shutdown.Quiet := by
  have ledger := ledger.effect (.changed (shutdown_changes engine)) (by simp)
  have unarmed : ∀ handle, engine.shutdown.timers.armed? handle = none := by
    intro handle
    apply Option.eq_none_iff_forall_ne_some.mpr
    intro entry armed
    have counts : engine.shutdown.live entry.2 = some handle := ledger.exact handle entry.1 entry.2 armed
    simp [live_shutdown] at counts
  obtain ⟨queue, deadlines⟩ := ledger.sound.timers.eq_empty unarmed
  exact ⟨rfl, queue, deadlines, live_shutdown engine⟩

/-- Whatever an engine was doing, a shutdown leaves nothing pending. Whatever fired before it is stale for
good, also once packets come in again, and until then the engine arms nothing. -/
theorem shutdown_is_quiescent {config : Config Float} {entropy : UInt64} {built : Engine}
    {history : History} (created : Engine.create config entropy = .ok built) (records : Records)
    (run : Run (built.withRecords records) history engine) (honest : history.Honest) :
    engine.shutdown.Quiet ∧
      ∀ between later, Run engine.shutdown between later →
        (∀ firing ∈ history.popped,
          later.fire firing.handle firing.event = (.stale, later)) ∧
        ((∀ step ∈ between, ¬ step.act.IsPacket) → Silent engine.shutdown between later) := by
  obtain ⟨instanceName, seed, rfl⟩ := eq_start_of_create created
  have ledger := ledger_run (ledger_start config instanceName seed records) run honest
  have quiet := quiet_shutdown ledger
  have sound := ledger.sound.changes (shutdown_changes engine)
  refine ⟨quiet, fun between later laterRun => ⟨fun firing member => ?_, quiet.silent laterRun⟩⟩
  have below := Nat.lt_of_lt_of_le (ledger.spent firing member).1 (shutdown_changes engine).next_le
  exact fire_of_spent laterRun sound below (by simp [live_shutdown]) firing.event

/-- A consumer asks for something that no destination is known for. -/
def asks (component : String) : Act :=
  .receive Sample.medium { Sample.request component with tag := none } [⟨Sample.medium, 0⟩]

/-- A relay with a score. The timers of the score were popped, and that for its decay was delivered. Then
the timer of a request held back was popped, and another request is held back. -/
def interrupted : History × Engine :=
  (Sample.relay .navigo).performAll [Sample.hears "b", .fireNext, Sample.hears "a",
    .deliver ⟨⟨1⟩, .decay ⟨[]⟩ ⟨257⟩⟩, .fireNext, .fireNext, asks "c"]

/-- The host delivers what it popped after the shutdown, some of it twice, and goes on. -/
def aftermath : List Act :=
  [.fireNext, .deliver ⟨⟨1⟩, .decay ⟨[]⟩ ⟨257⟩⟩, .shutdown, .deliver ⟨⟨2⟩, .refresh⟩, .sweep,
    .cancel ⟨["b"]⟩, .deliver ⟨⟨2⟩, .refresh⟩, .deliver ⟨⟨4⟩, .forward ⟨["a"]⟩⟩]

theorem shutdown_is_quiescent_interrupted :
    interrupted.1.Honest ∧
      (interrupted.1.popped =
          [⟨⟨4⟩, .forward ⟨["a"]⟩⟩, ⟨⟨1⟩, .decay ⟨[]⟩ ⟨257⟩⟩, ⟨⟨2⟩, .refresh⟩] ∧
        interrupted.2.timers.deadlines.keys = [⟨3⟩, ⟨5⟩] ∧
        interrupted.2.isDeferred ⟨["b"]⟩ = true) ∧
      interrupted.2.shutdown.Quiet ∧
      Silent interrupted.2.shutdown (interrupted.2.shutdown.performAll aftermath).1
        (interrupted.2.shutdown.performAll aftermath).2 ∧
      ∀ firing ∈ interrupted.1.popped,
        (interrupted.2.shutdown.performAll [Sample.hears "a"]).2.fire firing.handle firing.event =
          (.stale, (interrupted.2.shutdown.performAll [Sample.hears "a"]).2) := by
  have honest : interrupted.1.Honest := by decide +kernel
  obtain ⟨quiet, later⟩ := shutdown_is_quiescent (Sample.create_relay .navigo) {}
    (run_performAll _ _) honest
  have silent := (later _ _ (run_performAll _ aftermath)).2
    (by simp [aftermath, performAll, Act.IsPacket])
  have stale := (later _ _ (run_performAll _ [Sample.hears "a"])).1
  exact ⟨honest, by decide +kernel, quiet, silent, stale⟩

end Engine

end Overhear
