import Overhear.Proofs.Host.Rhythm

/-! A host with a score book alone. Between two firing loops it does what it likes with the scores, and others
may arm timers in the same service. -/
namespace Overhear.ScoreBook

variable {α : Type} {book after : ScoreBook α}

theorem sound_withTimers (sound : book.roster.Sound) {firings : List (Firing Event)}
    {rest : Timers Event} (fired : book.timers.Fired firings rest) :
    (book.withTimers rest).roster.Sound :=
  sound.fired fired fun event => by cases event <;> rfl

/-- A book in which nothing counts yet is sound, whatever its timer service was used for before. -/
theorem sound_of_empty (config : ScoreConfig α) (calls : List (Timers.Call Event)) (records : Records) :
    ({ config, timers := (Timers.Run.after calls).timers, records } : ScoreBook α).roster.Sound := by
  have idle := live_of_unscored (Session.faceScore?_begun config (Timers.Run.after calls).timers records) rfl
  exact (Roster.Balance.start (Timers.Run.kept_after calls).logged.account.sound idle).sound

theorem Delivered.congr [Scalar α] {firing : Firing Event} {counted other : Prop}
    (delivered : book.Delivered firing counted after) (same : counted ↔ other) :
    book.Delivered firing other after :=
  propext same ▸ delivered

variable [Scalar α]

/-- What a host does with a book while the clock stands still. -/
inductive Between (book : ScoreBook α) : ScoreBook α → Prop where
  | act (act : Act) (still : act.IsStill) : Between book (book.perform act).2
  | arm (delay : Nanos) (event : Event) :
      Between book (book.withTimers (book.timers.arm delay event).2)

def host : Host (ScoreBook α) (Option Bool) α where
  book := id
  counted outcome := outcome = some true
  acts := Between

theorem upkeep_perform (book : ScoreBook α) {act : Act} (still : act.IsStill) :
    book.Upkeep (book.perform act).2 := by
  cases act with
  | openScore key => exact openScore_upkeep book key
  | creditRequest name face => exact creditRequest_upkeep book name face
  | creditResponse name face => exact creditResponse_upkeep book name face
  | update key => exact modifyStats_upkeep book key _
  | updateLongest name face => exact updateLongest_upkeep book name face
  | decay key => exact modifyStats_upkeep book key _
  | refreshTouched => exact refreshTouched_upkeep book
  | setDestination name destination => exact setDestination_upkeep book name destination
  | forget name => exact forget_upkeep book name
  | sweep => exact sweep_upkeep book
  | shutdown | move | deliver => exact still.elim

theorem Between.steady (between : book.Between after) (sound : book.roster.Sound) :
    book.Steady after := by
  cases between with
  | act act still => exact steady_perform sound still
  | arm delay event => exact (grows_arm book delay event).steady sound.timers

theorem Between.sound (between : book.Between after) (sound : book.roster.Sound) :
    after.roster.Sound := by
  cases between with
  | act act still => exact sound.changes (upkeep_perform book still)
  | arm delay event => exact sound.armed rfl fun other => by cases other <;> rfl

/-- Delivering a firing to the book. -/
theorem delivered_fire (sound : book.timers.Sound) (firing : Firing Event) :
    book.Delivered firing ((TimerDriven.fire book firing.handle firing.event).1 = some true)
      (TimerDriven.fire book firing.handle firing.event).2 := by
  obtain ⟨handle, event⟩ := firing
  cases event with
  | forward name => exact (Grows.refl book).delivered sound (fun _ => by simp) _
  | decay name face =>
    refine (delivered_fireDecay sound handle ⟨name, face⟩).congr ?_
    exact ⟨congrArg some, Option.some.inj⟩
  | refresh => exact (grows_fireRefresh book handle).delivered sound (fun _ => by simp) _

theorem sound_fire (sound : book.roster.Sound) (firing : Firing Event) :
    (TimerDriven.fire book firing.handle firing.event).2.roster.Sound := by
  have same : (TimerDriven.fire book firing.handle firing.event).2 = book.fire firing := by
    obtain ⟨handle, event⟩ := firing
    cases event <;> rfl
  rw [same]
  exact ((effect_perform (.deliver firing) sound.timers).follows sound).sound

theorem host_keeps : (host : Host (ScoreBook α) (Option Bool) α).Keeps fun book => book.roster.Sound where
  timers sound := sound.timers
  act sound between := ⟨Between.sound between sound, Between.steady between sound⟩
  turn {limit book after delivery} sound due := by
    obtain ⟨firing, rest, popped, result⟩ := TimerDriven.fireDue_eq_some.mp due
    have paused := sound_withTimers sound (sound.timers.popDue popped)
    have delivered := delivered_fire paused.timers firing
    obtain ⟨rfl, rfl⟩ := Prod.mk.inj result
    exact ⟨sound_fire paused firing, delivered.now.symm, delivered.turns sound.timers popped⟩
  pass {limit book} sound rests :=
    ⟨sound_withTimers sound (sound.timers.advanceTo limit),
      Timers.popDue_eq_none_iff.mp (TimerDriven.fireDue_eq_none_iff.mp rests), rfl⟩

end Overhear.ScoreBook
