import Overhear.Proofs.Timers.Log

/-! What a host gets from a timer service over a whole run of calls. No timer is lost, none fires twice,
and none fires out of order. -/
namespace Overhear.Timers

variable {ε : Type} {timers : Timers ε}

inductive Call (ε : Type) where
  | arm (delay : Nanos) (event : ε)
  | cancel (handle : Handle)
  | move (move : Move)

/-- The shots of a drain, with what the clock read at each of them. -/
def shotsUpTo (limit : Nanos) : Nat → Timers ε → List (Shot ε)
  | 0, _ => []
  | count + 1, timers =>
      match timers.firstSlot?, timers.popDue limit with
      | some slot, some (firing, rest) =>
          ⟨slot, firing.event, rest.elapsed⟩ :: shotsUpTo limit count rest
      | _, _ => []

/-- What happens in a move. -/
def notes (timers : Timers ε) : Move → Log ε
  | .popDue limit => (shotsUpTo limit 1 timers).map .fired
  | .fireNext => (timers.nextDeadline?.elim [] fun limit => shotsUpTo limit 1 timers).map .fired
  | .advance step =>
      (shotsUpTo (timers.elapsed + step) timers.queue.size timers).map .fired ++
        [.passed (timers.advance step).2.elapsed]
  | .advanceTo target => [.passed (timers.advanceTo target).elapsed]

theorem map_firing_shotsUpTo (limit : Nanos) (count : Nat) (timers : Timers ε) :
    (shotsUpTo limit count timers).map Shot.firing = (popUpTo limit count timers).1 := by
  induction count generalizing timers with
  | zero => rfl
  | succ count ih =>
    unfold shotsUpTo popUpTo
    cases popped : timers.popDue limit with
    | none => simp
    | some result =>
      obtain ⟨slot, first, -, -, sameHandle, -⟩ := popDue_eq_some popped
      simp only [first, List.map_cons, ih]
      simp only [Shot.firing, ← sameHandle]

theorem popped_popDue (timers : Timers ε) (limit : Nanos) :
    timers.popped (timers.popDue limit) = popUpTo limit 1 timers := by
  simp only [popUpTo]
  cases timers.popDue limit <;> rfl

theorem popped_fireNext (timers : Timers ε) :
    timers.popped timers.fireNext =
      timers.nextDeadline?.elim ([], timers) fun limit => popUpTo limit 1 timers := by
  unfold fireNext
  cases timers.nextDeadline? with
  | none => rfl
  | some limit => exact popped_popDue timers limit

theorem Logged.popUpTo {log : Log ε} (logged : Logged log timers) (limit : Nanos) (count : Nat) :
    Logged (log ++ (shotsUpTo limit count timers).map .fired) (popUpTo limit count timers).2 := by
  induction count generalizing log timers with
  | zero => simpa [shotsUpTo, Timers.popUpTo] using logged
  | succ count ih =>
    unfold shotsUpTo Timers.popUpTo
    cases popped : timers.popDue limit with
    | none => simpa using logged
    | some result =>
      obtain ⟨slot, first, -⟩ := popDue_eq_some popped
      simpa [first] using ih (logged.pop first popped)

/-- A move goes on with a log by what happens in it. -/
theorem Logged.move {log : Log ε} (logged : Logged log timers) (move : Move) :
    Logged (log ++ timers.notes move) (timers.move move).2 := by
  cases move with
  | popDue limit =>
    simp only [Timers.move, popped_popDue]
    exact logged.popUpTo limit 1
  | fireNext =>
    simp only [Timers.move, notes, popped_fireNext]
    cases timers.nextDeadline? with
    | none => simpa using logged
    | some limit => exact logged.popUpTo limit 1
  | advance step =>
    rw [notes, ← List.append_assoc]
    exact (logged.popUpTo (timers.elapsed + step) timers.queue.size).pass (timers.elapsed + step)
  | advanceTo target => exact logged.pass target

/-- The firings that the host gets from a move are the shots in it. -/
theorem map_firing_notes (timers : Timers ε) (move : Move) :
    (timers.notes move).shots.map Shot.firing = (timers.move move).1 := by
  cases move with
  | popDue limit =>
    simp only [notes, Log.shots_map_fired, Timers.move, popped_popDue, map_firing_shotsUpTo]
  | fireNext =>
    simp only [notes, Log.shots_map_fired, Timers.move, popped_fireNext]
    cases timers.nextDeadline? with
    | none => rfl
    | some limit => exact map_firing_shotsUpTo limit 1 timers
  | advance step =>
    simp only [notes, Log.shots_append, Log.shots_map_fired, List.map_append, map_firing_shotsUpTo]
    exact List.append_nil _
  | advanceTo target => rfl

theorem handles_notes (timers : Timers ε) (move : Move) : (timers.notes move).handles = [] := by
  cases move with
  | popDue limit => exact Log.handles_map_fired _
  | fireNext => exact Log.handles_map_fired _
  | advance step =>
    rw [notes, Log.handles_append, Log.handles_map_fired]
    rfl
  | advanceTo target => rfl

/-- What a host was given over a run of calls, the log of the run and the service that it left. -/
structure Run (ε : Type) where
  handed : List Handle := []
  told : List (Firing ε) := []
  log : Log ε := []
  timers : Timers ε := {}

namespace Run

def call (run : Run ε) : Call ε → Run ε
  | .arm delay event =>
      let (handle, timers) := run.timers.arm delay event
      { run with
        handed := run.handed ++ [handle]
        log := run.log ++ [.armed ⟨run.timers.elapsed + delay, handle⟩ event]
        timers }
  | .cancel handle =>
      { run with
        log := if run.timers.isPending handle then run.log ++ [.cancelled handle] else run.log
        timers := run.timers.cancel handle }
  | .move move =>
      let (firings, timers) := run.timers.move move
      { run with told := run.told ++ firings, log := run.log ++ run.timers.notes move, timers }

/-- A new service after a run of calls. -/
def after (calls : List (Call ε)) : Run ε := calls.foldl call {}

/-- The log is one of the service, and it tells what the host was given. -/
structure Kept (run : Run ε) : Prop where
  logged : Logged run.log run.timers
  handed : run.log.handles = run.handed
  told : run.log.shots.map Shot.firing = run.told

theorem Kept.call {run : Run ε} (kept : run.Kept) (call : Call ε) : (run.call call).Kept := by
  cases call with
  | arm delay event =>
    refine ⟨kept.logged.arm delay event, ?_, ?_⟩
    · rw [Run.call, Log.handles_append, kept.handed]
      rfl
    · rw [Run.call, Log.shots_append, List.map_append, kept.told]
      exact List.append_nil _
  | cancel handle =>
    simp only [Run.call]
    cases pending : run.timers.isPending handle with
    | true =>
      refine ⟨kept.logged.cancel handle pending, ?_, ?_⟩
      · rw [if_pos rfl, Log.handles_append, kept.handed]
        exact List.append_nil _
      · rw [if_pos rfl, Log.shots_append, List.map_append, kept.told]
        exact List.append_nil _
    | false =>
      rw [cancel_of_not_pending pending]
      exact kept
  | move move =>
    refine ⟨kept.logged.move move, ?_, ?_⟩
    · rw [Run.call, Log.handles_append, handles_notes, List.append_nil, kept.handed]
    · rw [Run.call, Log.shots_append, List.map_append, kept.told, map_firing_notes]

theorem kept_after (calls : List (Call ε)) : (after calls).Kept := by
  have start : ({} : Run ε).Kept := ⟨.new, rfl, rfl⟩
  unfold after
  generalize ({} : Run ε) = run at start
  induction calls generalizing run with
  | nil => exact start
  | cons call calls ih => exact ih (run.call call) (start.call call)

inductive Stage where
  | pending
  | cancelled
  | fired

def Stands (run : Run ε) (handle : Handle) : Stage → Prop
  | .pending => run.timers.isPending handle = true
  | .cancelled => handle ∈ run.log.cancelled
  | .fired => handle ∈ run.told.map Firing.handle

/-- No timer of a run was lost, doubled or put out of order. -/
structure Faithful (run : Run ε) : Prop where
  handed : run.log.handles = run.handed
  told : run.log.shots.map Shot.firing = run.told
  distinct : run.handed.Nodup
  tables : ∀ slot : Slot,
    slot ∈ run.timers.queue ↔ run.timers.deadlines[slot.handle]? = some slot.deadline
  waiting : ∀ (slot : Slot) (event : ε),
    run.timers.queue[slot]? = some event → (slot, event) ∈ run.log.armings
  stage : ∀ handle ∈ run.handed, ∃! stage, run.Stands handle stage
  once : (run.told.map Firing.handle).Nodup
  due : ∀ shot ∈ run.log.shots,
    (shot.slot, shot.event) ∈ run.log.armings ∧ shot.slot.deadline ≤ shot.reading
  inOrder : run.log.shots.Pairwise fun first second => compare first.slot second.slot = .lt
  clock : run.log.clock.Pairwise (· ≤ ·) ∧ run.timers.elapsed = run.log.clock.getLastD 0
  prompt : ∀ limit : Nanos, run.timers.popDue limit = none ↔
    ∀ slot ∈ run.timers.queue, limit < slot.deadline
  drained : ∀ (step : Nanos), ∀ slot ∈ (run.timers.advance step).2.queue,
    run.timers.elapsed + step < slot.deadline

/-- Where a timer stands is decided by the account of its service. -/
theorem Kept.stage {run : Run ε} (kept : run.Kept) {handle : Handle} (given : handle ∈ run.handed) :
    ∃! stage, run.Stands handle stage := by
  have account := kept.logged.account
  have fired : run.told.map Firing.handle = run.log.fired := by
    rw [← kept.told, List.map_map]
    rfl
  have pending_iff := account.sound.isPending_iff handle
  have ended : ∀ shot ∈ run.log.shots, shot.slot.handle = handle →
      run.timers.armed? handle = none ∧ handle ∉ run.log.cancelled := by
    rintro shot member rfl
    exact (account.fired shot member).2
  have unfired (still : run.timers.armed? handle ≠ none ∨ handle ∈ run.log.cancelled) :
      handle ∉ run.log.fired := by
    intro member
    obtain ⟨shot, shotMember, same⟩ := List.mem_map.mp member
    obtain ⟨disarmed, spared⟩ := ended shot shotMember same
    exact still.elim (fun armed => armed disarmed) spared
  rcases account.placed handle (kept.handed ▸ given) with armed | cancelled | shot
  · have present := Option.isSome_iff_ne_none.mp armed
    refine ⟨.pending, pending_iff.mpr armed, fun stage stands => ?_⟩
    cases stage with
    | pending => rfl
    | cancelled => exact absurd (account.cancelled handle stands).2 present
    | fired => exact absurd (fired ▸ stands) (unfired (.inl present))
  · refine ⟨.cancelled, cancelled, fun stage stands => ?_⟩
    cases stage with
    | pending =>
      have present := Option.isSome_iff_ne_none.mp (pending_iff.mp stands)
      exact absurd (account.cancelled handle cancelled).2 present
    | cancelled => rfl
    | fired => exact absurd (fired ▸ stands) (unfired (.inr cancelled))
  · have stands : run.Stands handle .fired := by simpa only [Stands, fired] using shot
    refine ⟨.fired, stands, fun stage stands => ?_⟩
    cases stage with
    | pending =>
      have present := Option.isSome_iff_ne_none.mp (pending_iff.mp stands)
      exact absurd shot (unfired (.inl present))
    | cancelled => exact absurd shot (unfired (.inr stands))
    | fired => rfl

end Run

/-- In a sound service the two tables hold the same slots. -/
theorem Sound.mem_queue_iff (sound : timers.Sound) (slot : Slot) :
    slot ∈ timers.queue ↔ timers.deadlines[slot.handle]? = some slot.deadline := by
  rw [Std.ExtTreeMap.mem_iff_isSome_getElem?, Option.isSome_iff_exists]
  constructor
  · rintro ⟨event, queued⟩
    exact sound.dated slot event queued
  · exact sound.queued slot.handle slot.deadline

theorem Account.nodup_fired {log : Log ε} (account : Account log timers) : log.fired.Nodup := by
  rw [Log.fired, List.Nodup, List.pairwise_map]
  refine account.ordered.imp_of_mem ?_
  intro first second firstMember secondMember before same
  -- Slots of one handle are equal, for the handle was handed out once.
  have firstArmed := (account.fired first firstMember).1
  have secondArmed := (account.fired second secondMember).1
  have equal := List.inj_on_of_nodup_map account.distinct firstArmed secondArmed same
  have level : first.slot = second.slot := congrArg Prod.fst equal
  rw [level, Std.compare_self] at before
  cases before

theorem advance_drained (timers : Timers ε) (step : Nanos) :
    ∀ slot ∈ (timers.advance step).2.queue, timers.elapsed + step < slot.deadline := by
  have empty := popDue_popUpTo (timers.elapsed + step) timers.queue.size (Nat.le_refl _)
  have later := popDue_eq_none_iff.mp empty
  exact later

/-- Whatever a host calls, each timer of a new service ends at most once and in the firing order. -/
theorem timers_fire_once_in_order (calls : List (Call ε)) : (Run.after calls).Faithful := by
  have kept := Run.kept_after calls
  have account := kept.logged.account
  exact {
    handed := kept.handed
    told := kept.told
    distinct := kept.handed ▸ account.distinct
    tables := account.sound.mem_queue_iff
    waiting := fun slot event queued =>
      account.source slot.handle slot.deadline event (account.sound.queued_iff.mp queued)
    stage := fun _ given => kept.stage given
    once := by
      rw [← kept.told, List.map_map]
      exact account.nodup_fired
    due := fun shot member => ⟨(account.fired shot member).1, account.due shot member⟩
    inOrder := account.ordered
    clock := ⟨account.forward, account.now⟩
    prompt := fun _ => popDue_eq_none_iff
    drained := advance_drained _ }

/-- Timers of one deadline fire in the order of their arming, also when the clock is past them. -/
example : (Run.after [.arm 5 "first", .arm 3 "gone", .arm 5 "second", .cancel ⟨2⟩, .cancel ⟨2⟩,
      .move (.advanceTo 9), .arm 0 "third", .move (.popDue 7), .move (.advance 1)]).told =
    [⟨⟨1⟩, "first"⟩, ⟨⟨3⟩, "second"⟩, ⟨⟨4⟩, "third"⟩] := by decide +kernel

end Overhear.Timers
