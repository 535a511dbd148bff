import Overhear.Proofs.Engine.Journal
import Overhear.Proofs.Host.Loop
import Overhear.Proofs.Score.Arming
import Overhear.Proofs.Score.Lifetimes
import Overhear.Proofs.Settings
import Overhear.Proofs.Timers.Calls
import Overhear.Proofs.Timers.Weight

/-! The firing loop of a host ends. A fired request is gone for good, and the timer of a score or of a
refresh comes back only later than it fired, so the timers due by a limit run out. -/
namespace Overhear

namespace ScoreBook

variable {α : Type} {book after : ScoreBook α}

/-- At most one timer was armed, and for later than now. -/
def Rearms (book after : ScoreBook α) : Prop :=
  after.timers = book.timers ∨
    ∃ period event, 0 < period ∧ after.timers = (book.timers.arm period event).2

variable [Scalar α]

theorem rearms_fireDecay (positive : 0 < book.config.decayPeriod) (handle : Handle) (key : ScoreKey) :
    book.Rearms (book.fireDecay handle key).2 :=
  (timers_fireDecay book handle key).imp_right fun same => ⟨_, _, positive, same⟩

theorem rearms_fireRefresh (positive : 0 < book.config.refreshPeriod) (handle : Handle) :
    book.Rearms (book.fireRefresh handle).2 :=
  (timers_fireRefresh book handle).imp_right fun same => ⟨_, _, positive, same⟩

theorem config_enter (book : ScoreBook α) (entry : Entry) : (book.enter entry).config = book.config := by
  cases entry with
  | retimed timers => rfl
  | request key => exact (postpones_creditRequest book key.name key.face).config
  | learned key destination =>
    have credited := postpones_creditUpward Stats.countResponse
      (destination.elim book (book.setDestination key.name)) key.name key.face
    cases destination <;> exact credited.config
  | fired firing => exact config_perform book (.deliver firing)
  | swept => exact config_perform book .sweep
  | closed => rfl

theorem config_foldl_enter (entries : List Entry) (book : ScoreBook α) :
    (entries.foldl enter book).config = book.config := by
  induction entries generalizing book with
  | nil => rfl
  | cons entry rest ih => exact (ih (book.enter entry)).trans (config_enter book entry)

end ScoreBook

namespace Engine

variable {engine after : Engine} {limit : Nanos}

/-- An engine that some host can bring about. It acts on the engine as it likes, also on the scores and on
the timer service directly, and takes out and delivers timers in whatever way. -/
inductive Reached (start : Engine) : Engine → Prop where
  | start : Reached start start
  | act {engine : Engine} (before : Reached start engine) (act : Act) :
      Reached start (engine.perform act).2
  | scores {engine : Engine} (before : Reached start engine) (act : ScoreBook.Act) :
      Reached start { engine with book := (engine.book.perform act).2 }
  | arm {engine : Engine} (before : Reached start engine) (delay : Nanos) (event : Event) :
      Reached start (engine.withTimers (engine.timers.arm delay event).2)
  | disarm {engine : Engine} (before : Reached start engine) (handle : Handle) :
      Reached start (engine.withTimers (engine.timers.cancel handle))

theorem config_book_fire (engine : Engine) (handle : Handle) (event : Event) :
    (engine.fire handle event).2.book.config = engine.book.config := by
  cases event with
  | forward name =>
    by_cases counts : engine.live (.forward name) = some handle
    · obtain ⟨deferral, held, rfl⟩ := live_forward_eq_some.mp counts
      rw [fire_forward held]
      exact (ScoreBook.postpones_creditRequest engine.book name.statistics deferral.face).config
    · rw [fire_of_stale counts]
  | decay name face => exact (ScoreBook.postpones_fireDecay engine.book handle ⟨name, face⟩).config
  | refresh => exact (ScoreBook.postpones_fireRefresh engine.book handle).config

theorem Journals.config {history : History} {journal : List Entry}
    (journals : Journals engine history after journal) : after.book.config = engine.book.config := by
  rw [journals.book, ScoreBook.config_foldl_enter]

/-- No act changes the settings of the scores. -/
theorem config_book_perform (engine : Engine) (act : Act) :
    (engine.perform act).2.book.config = engine.book.config := by
  have cancelled : ∀ name, (engine.cancelDeferred name).2.book.config = engine.book.config := by
    intro name
    rw [book_cancelDeferred]
    rfl
  cases act with
  | receive inFace request hops =>
    obtain ⟨entries, journals⟩ := journals_receive engine inFace request hops
    exact journals.config
  | respond pending inFace response =>
    obtain ⟨entries, journals⟩ := journals_respond engine pending inFace response
    exact journals.config
  | detectLoop request => exact cancelled request.name
  | expire pending => exact cancelled pending.name
  | cancel name => exact cancelled name
  | sweep => exact ScoreBook.config_perform engine.book .sweep
  | refuse | shutdown | popDue | fireNext | advance | advanceTo => rfl
  | deliver firing => exact config_book_fire engine firing.handle firing.event

/-- What a loop relies on: the timer service is sound, and scores and refreshes wait for a while. -/
structure Paced (engine : Engine) : Prop where
  sound : engine.timers.Sound
  decay : 0 < engine.book.config.decayPeriod
  refresh : 0 < engine.book.config.refreshPeriod

theorem Paced.of_config (paced : engine.Paced) (sound : after.timers.Sound)
    (same : after.book.config = engine.book.config) : after.Paced :=
  ⟨sound, same ▸ paced.decay, same ▸ paced.refresh⟩

theorem Paced.fire (paced : engine.Paced) (handle : Handle) (event : Event) :
    (engine.fire handle event).2.Paced := by
  have effect := effect_perform (.deliver ⟨handle, event⟩) paced.sound
  exact paced.of_config (effect.sound_timers paced.sound) (config_book_fire engine handle event)

theorem Paced.reached {start : Engine} (paced : start.Paced) (reached : Reached start engine) :
    engine.Paced := by
  induction reached with
  | start => exact paced
  | @act engine _ act ih =>
    have effect := effect_perform act ih.sound
    exact ih.of_config (effect.sound_timers ih.sound) (config_book_perform engine act)
  | @scores engine _ act ih =>
    have effect := ScoreBook.effect_perform act ih.sound
    exact ih.of_config (effect.sound_timers ih.sound) (ScoreBook.config_perform engine.book act)
  | arm _ delay event ih => exact ih.of_config (ih.sound.arm delay event) rfl
  | disarm _ handle ih => exact ih.of_config (ih.sound.cancel handle) rfl

theorem check_of_create {config : Config Float} {entropy : UInt64}
    (created : Engine.create config entropy = .ok engine) : config.check = .ok () := by
  cases checked : config.check with
  | ok => rfl
  | error cause => simp [Engine.create, checked, bind, Except.bind] at created

theorem paced_of_create {config : Config Float} {entropy : UInt64} {built : Engine}
    (created : Engine.create config entropy = .ok built) (calls : List (Timers.Call Event))
    (records : Records) :
    ((built.withTimers (Timers.Run.after calls).timers).withRecords records).Paced := by
  have accepted := check_of_create created
  obtain ⟨instanceName, seed, rfl⟩ := eq_start_of_create created
  exact ⟨(Timers.Run.kept_after calls).logged.account.sound, Config.decayPeriod_pos accepted,
    Config.refreshPeriod_pos accepted⟩

/-- A timer for a request counts one. -/
def requestWeight (_ : Slot) (event : Event) : Nat := if event.isUpkeep then 0 else 1

/-- A timer counts by how far before the end of the limit it is due. -/
def earlyWeight (limit : Nanos) (slot : Slot) (_ : Event) : Nat := limit + 1 - slot.deadline

theorem earlyWeight_le (limit : Nanos) {slot : Slot} {now : Nanos} (later : now < slot.deadline)
    (event : Event) : earlyWeight limit slot event ≤ limit - now := by
  have less := Nat.sub_le_sub_left later (limit + 1)
  rwa [Nat.add_sub_add_right] at less

theorem lt_earlyWeight (slot : Slot) (due : slot.deadline ≤ limit) (event : Event) :
    limit - slot.deadline < earlyWeight limit slot event := by
  rw [earlyWeight, Nat.succ_sub due]
  exact Nat.lt_succ_self _

/-- How many requests wait, and how far before the limit the timers are due. -/
def remainingWork (limit : Nanos) (engine : Engine) : Nat × Nat :=
  (engine.timers.weight requestWeight, engine.timers.weight (earlyWeight limit))

/-- No firing makes a request wait. -/
theorem requests_fire_le (engine : Engine) (handle : Handle) (event : Event) :
    (engine.fire handle event).2.timers.weight requestWeight ≤ engine.timers.weight requestWeight := by
  by_cases counts : engine.live event = some handle
  · obtain ⟨ended, timers, -, changes⟩ := fire_changes counts
    have light : ∀ (slot : Slot) (event : Event), event.isUpkeep = true → requestWeight slot event = 0 :=
      fun slot event upkeep => if_pos upkeep
    rw [← timers]
    exact changes.weight_le light
  · rw [fire_of_stale counts]

/-- A timer that was armed for later than now is not due as early as one that is due now. -/
theorem early_le_of_rearms {book after : ScoreBook Float} (rearms : book.Rearms after) :
    after.timers.weight (earlyWeight limit) ≤
      limit - book.timers.elapsed + book.timers.weight (earlyWeight limit) := by
  rcases rearms with same | ⟨period, event, positive, same⟩
  · rw [same]
    exact Nat.le_add_left _ _
  · rw [same]
    have added := Timers.weight_arm_le (earlyWeight limit) book.timers period event
    have late : earlyWeight limit ⟨book.timers.elapsed + period, book.timers.next⟩ event ≤
        limit - book.timers.elapsed := earlyWeight_le limit (Nat.lt_add_of_pos_right positive) event
    exact Nat.le_trans added (Nat.add_le_add_right late _)

theorem Paced.early_fire_le (paced : engine.Paced) (limit : Nanos) (handle : Handle) {event : Event}
    (upkeep : event.isUpkeep = true) :
    (engine.fire handle event).2.timers.weight (earlyWeight limit) ≤
      limit - engine.timers.elapsed + engine.timers.weight (earlyWeight limit) := by
  cases event with
  | forward name => cases upkeep
  | decay name face =>
    exact early_le_of_rearms (ScoreBook.rearms_fireDecay paced.decay handle ⟨name, face⟩)
  | refresh => exact early_le_of_rearms (ScoreBook.rearms_fireRefresh paced.refresh handle)

/-- A timer of the scores that fires leaves less time before the limit. -/
theorem Paced.early_turn_lt (paced : engine.Paced) {firing : Firing Event} {rest : Timers Event}
    (popped : engine.timers.popDue limit = some (firing, rest))
    (upkeep : firing.event.isUpkeep = true) :
    ((engine.withTimers rest).fire firing.handle firing.event).2.timers.weight (earlyWeight limit) <
      engine.timers.weight (earlyWeight limit) := by
  obtain ⟨deadline, inTime, elapsed, early⟩ := Timers.weight_popDue (earlyWeight limit) popped
  have paused : (engine.withTimers rest).Paced := paced.of_config (paced.sound.popDue popped).sound rfl
  have later : deadline ≤ rest.elapsed := elapsed ▸ Nat.le_max_right _ _
  have ahead : limit - deadline < earlyWeight limit ⟨deadline, firing.handle⟩ firing.event :=
    lt_earlyWeight ⟨deadline, firing.handle⟩ inTime firing.event
  calc ((engine.withTimers rest).fire firing.handle firing.event).2.timers.weight (earlyWeight limit)
      ≤ limit - rest.elapsed + rest.weight (earlyWeight limit) :=
        paused.early_fire_le limit firing.handle upkeep
    _ ≤ limit - deadline + rest.weight (earlyWeight limit) :=
        Nat.add_le_add_right (Nat.sub_le_sub_left later limit) _
    _ < earlyWeight limit ⟨deadline, firing.handle⟩ firing.event + rest.weight (earlyWeight limit) :=
        Nat.add_lt_add_right ahead _
    _ = engine.timers.weight (earlyWeight limit) := early.symm

/-- Each turn of the loop leaves fewer requests waiting, or no more of them and less time before the limit. -/
theorem remainingWork_falls (paced : engine.Paced) {delivery : Delivery TimerOutcome}
    (due : TimerDriven.fireDue limit engine = some (delivery, after)) :
    after.Paced ∧ Prod.Lex (· < ·) (· < ·) (after.remainingWork limit) (engine.remainingWork limit) := by
  obtain ⟨firing, rest, popped, delivered⟩ := TimerDriven.fireDue_eq_some.mp due
  obtain rfl : ((engine.withTimers rest).fire firing.handle firing.event).2 = after :=
    congrArg Prod.snd delivered
  have paused : (engine.withTimers rest).Paced := paced.of_config (paced.sound.popDue popped).sound rfl
  refine ⟨paused.fire firing.handle firing.event, ?_⟩
  have requests := requests_fire_le (engine.withTimers rest) firing.handle firing.event
  obtain ⟨deadline, -, -, taken⟩ := Timers.weight_popDue requestWeight popped
  cases upkeep : firing.event.isUpkeep with
  | false =>
    have counted : requestWeight ⟨deadline, firing.handle⟩ firing.event = 1 := by simp [requestWeight, upkeep]
    have fewer : rest.weight requestWeight < engine.timers.weight requestWeight := by
      change engine.timers.weight requestWeight = _ at taken
      rw [taken, counted]
      exact Nat.lt_add_of_pos_left Nat.one_pos
    exact .left _ _ (Nat.lt_of_le_of_lt requests fewer)
  | true =>
    have light : requestWeight ⟨deadline, firing.handle⟩ firing.event = 0 := if_pos upkeep
    have level : rest.weight requestWeight = engine.timers.weight requestWeight := by
      change engine.timers.weight requestWeight = _ at taken
      rw [taken, light, Nat.zero_add]
    have nearer := paced.early_turn_lt popped upkeep
    rcases Nat.lt_or_eq_of_le (Nat.le_trans requests (Nat.le_of_eq level)) with fewer | same
    · exact .left _ _ fewer
    · unfold remainingWork
      rw [same]
      exact .right _ nearer

/-- Whatever state a host has brought an engine to, the loop that delivers all timers due by a limit takes
finitely many turns, and no timer due by then is left. -/
theorem firing_loop_ends {config : Config Float} {entropy : UInt64} {built engine : Engine}
    (created : Engine.create config entropy = .ok built) (calls : List (Timers.Call Event))
    (records : Records)
    (reached : Reached ((built.withTimers (Timers.Run.after calls).timers).withRecords records) engine)
    (limit : Nanos) :
    ∃ (deliveries : List (Delivery TimerOutcome)) (final : Engine),
      (∀ most, deliveries.length ≤ most →
        TimerDriven.drain limit most engine = (deliveries, final)) ∧
      TimerDriven.fireDue limit final = none ∧
      (∀ slot ∈ final.timers.queue, limit < slot.deadline) ∧
      ∀ (handle : Handle) (deadline : Nanos), final.timers.deadlines[handle]? = some deadline → limit < deadline := by
  have paced := (paced_of_create created calls records).reached reached
  obtain ⟨deliveries, final, loop, pacedFinal⟩ := TimerDriven.exists_loop (remainingWork limit)
    (fun _ _ _ paced due => remainingWork_falls paced due) paced
  have drained : ∀ slot ∈ final.timers.queue, limit < slot.deadline :=
    Timers.popDue_eq_none_iff.mp (TimerDriven.fireDue_eq_none_iff.mp loop.rests)
  refine ⟨deliveries, final, loop.drain, loop.rests, drained, ?_⟩
  intro handle deadline dated
  exact drained ⟨deadline, handle⟩ ((pacedFinal.sound.mem_queue_iff _).mpr dated)

/-- A relay that holds a request back and has credited another one, with the clock moved past all timers. -/
def overdue : Engine :=
  let held := Sample.holding .navigo
  let credited := { held with book := (held.book.perform (.creditRequest ⟨["b"]⟩ ⟨257⟩)).2 }
  (credited.perform (.advanceTo (Nanos.ofSeconds 25))).2

theorem reached_overdue : Reached (Sample.relay .navigo) overdue :=
  .act (.scores (.act .start (Sample.hears "a")) (.creditRequest ⟨["b"]⟩ ⟨257⟩)) _

theorem firing_loop_ends_overdue :
    (∀ slot ∈ overdue.timers.queue.keys, slot.deadline < overdue.timers.elapsed) ∧
      (TimerDriven.drain (Nanos.ofSeconds 40) 9 overdue).1.map (·.time) =
        [25, 25, 25, 31, 35, 37].map Nanos.ofSeconds ∧
      ∃ (deliveries : List (Delivery TimerOutcome)) (final : Engine),
        (∀ most, deliveries.length ≤ most →
          TimerDriven.drain (Nanos.ofSeconds 40) most overdue = (deliveries, final)) ∧
        TimerDriven.fireDue (Nanos.ofSeconds 40) final = none ∧
        (∀ slot ∈ final.timers.queue, Nanos.ofSeconds 40 < slot.deadline) ∧
        ∀ (handle : Handle) (deadline : Nanos), final.timers.deadlines[handle]? = some deadline →
          Nanos.ofSeconds 40 < deadline := by
  refine ⟨by decide +kernel, by decide +kernel, ?_⟩
  exact firing_loop_ends (Sample.create_relay .navigo) [] {} reached_overdue (Nanos.ofSeconds 40)

end Engine

end Overhear
