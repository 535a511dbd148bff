import Mathlib.Data.List.Nodup
import Overhear.Proofs.Timers.Moves

/-! What happens to timers from their arming to their end, kept in a log. A timer ends once, by a
cancellation or by firing, and over a whole run timers fire in the order of their slots. -/
namespace Overhear.Timers

variable {ε : Type} {timers : Timers ε}

/-- A timer that fired from its slot, and what the clock read then. -/
structure Shot (ε : Type) where
  slot : Slot
  event : ε
  reading : Nanos

def Shot.firing (shot : Shot ε) : Firing ε := ⟨shot.slot.handle, shot.event⟩

/-- One line of the log of a service. A timer is only noted as cancelled if it was pending until then. -/
inductive Note (ε : Type) where
  | armed (slot : Slot) (event : ε)
  | cancelled (handle : Handle)
  | fired (shot : Shot ε)
  | passed (reading : Nanos)

/-- What happened so far, the earliest first. -/
abbrev Log (ε : Type) := List (Note ε)

namespace Log

def armings (log : Log ε) : List (Slot × ε) :=
  log.filterMap fun | .armed slot event => some (slot, event) | _ => none

def handles (log : Log ε) : List Handle := log.armings.map (·.1.handle)

def cancelled (log : Log ε) : List Handle :=
  log.filterMap fun | .cancelled handle => some handle | _ => none

def shots (log : Log ε) : List (Shot ε) :=
  log.filterMap fun | .fired shot => some shot | _ => none

def fired (log : Log ε) : List Handle := log.shots.map (·.slot.handle)

/-- What the clock read each time that it may have moved. -/
def clock (log : Log ε) : List Nanos :=
  log.filterMap fun | .fired shot => some shot.reading | .passed reading => some reading | _ => none

@[simp] theorem handles_append (log more : Log ε) :
    handles (log ++ more) = log.handles ++ more.handles := by
  simp [handles, armings]

@[simp] theorem shots_append (log more : Log ε) : shots (log ++ more) = log.shots ++ more.shots :=
  List.filterMap_append

@[simp] theorem handles_map_fired (shots : List (Shot ε)) : handles (shots.map .fired) = [] := by
  simp [handles, armings]

@[simp] theorem shots_map_fired (shots : List (Shot ε)) : Log.shots (shots.map .fired) = shots := by
  simp [Log.shots]

end Log

/-- A service reached from a new one by single steps, with the log of them. -/
inductive Logged : Log ε → Timers ε → Prop where
  | new : Logged [] {}
  | arm {log : Log ε} {timers : Timers ε} (before : Logged log timers) (delay : Nanos) (event : ε) :
      Logged (log ++ [.armed ⟨timers.elapsed + delay, timers.next⟩ event]) (timers.arm delay event).2
  | cancel {log : Log ε} {timers : Timers ε} (before : Logged log timers) (handle : Handle)
      (pending : timers.isPending handle = true) :
      Logged (log ++ [.cancelled handle]) (timers.cancel handle)
  | pop {log : Log ε} {timers rest : Timers ε} {limit : Nanos} {firing : Firing ε} {slot : Slot}
      (before : Logged log timers) (first : timers.firstSlot? = some slot)
      (popped : timers.popDue limit = some (firing, rest)) :
      Logged (log ++ [.fired ⟨slot, firing.event, rest.elapsed⟩]) rest
  | pass {log : Log ε} {timers : Timers ε} (before : Logged log timers) (target : Nanos) :
      Logged (log ++ [.passed (timers.advanceTo target).elapsed]) (timers.advanceTo target)

/-- What the log of a service says is what became of its timers. -/
structure Account (log : Log ε) (timers : Timers ε) : Prop where
  sound : timers.Sound
  issued : ∀ handle ∈ log.handles, handle.number < timers.next.number
  distinct : log.handles.Nodup
  source : ∀ handle deadline event, timers.armed? handle = some (deadline, event) →
    ((⟨deadline, handle⟩ : Slot), event) ∈ log.armings
  cancelled : ∀ handle ∈ log.cancelled, handle ∈ log.handles ∧ timers.armed? handle = none
  fired : ∀ shot ∈ log.shots, (shot.slot, shot.event) ∈ log.armings ∧
    timers.armed? shot.slot.handle = none ∧ shot.slot.handle ∉ log.cancelled
  placed : ∀ handle ∈ log.handles,
    (timers.armed? handle).isSome ∨ handle ∈ log.cancelled ∨ handle ∈ log.fired
  ordered : log.shots.Pairwise fun first second => compare first.slot second.slot = .lt
  past : ∀ shot ∈ log.shots, shot.slot.deadline ≤ timers.elapsed ∧
    ∀ handle deadline event, timers.armed? handle = some (deadline, event) →
      compare shot.slot ⟨deadline, handle⟩ = .lt
  due : ∀ shot ∈ log.shots, shot.slot.deadline ≤ shot.reading
  forward : log.clock.Pairwise (· ≤ ·)
  behind : ∀ reading ∈ log.clock, reading ≤ timers.elapsed
  now : timers.elapsed = log.clock.getLastD 0

theorem Account.new : Account ([] : Log ε) {} where
  sound := .empty
  issued := by simp [Log.handles, Log.armings]
  distinct := List.nodup_nil
  source := by simp [armed?]
  cancelled := by simp [Log.cancelled]
  fired := by simp [Log.shots]
  placed := by simp [Log.handles, Log.armings]
  ordered := List.Pairwise.nil
  past := by simp [Log.shots]
  due := by simp [Log.shots]
  forward := List.Pairwise.nil
  behind := by simp [Log.clock]
  now := rfl

theorem Account.mem_handles_of_fired {log : Log ε} (account : Account log timers) {shot : Shot ε}
    (member : shot ∈ log.shots) : shot.slot.handle ∈ log.handles :=
  List.mem_map.mpr ⟨_, (account.fired shot member).1, rfl⟩

/-- A new timer gets a handle that nothing has, and a slot after all that fired. -/
theorem Account.arm {log : Log ε} (account : Account log timers) (delay : Nanos) (event : ε) :
    Account (log ++ [.armed ⟨timers.elapsed + delay, timers.next⟩ event])
      (timers.arm delay event).2 := by
  generalize written : log ++ [.armed ⟨timers.elapsed + delay, timers.next⟩ event] = longer
  have armings : longer.armings = log.armings ++ [(⟨timers.elapsed + delay, timers.next⟩, event)] := by
    simp [← written, Log.armings]
  have handles : longer.handles = log.handles ++ [timers.next] := by simp [Log.handles, armings]
  have cancelled : longer.cancelled = log.cancelled := by simp [← written, Log.cancelled]
  have shots : longer.shots = log.shots := by simp [← written, Log.shots]
  have clock : longer.clock = log.clock := by simp [← written, Log.clock]
  have old : ∀ handle ∈ log.handles, handle ≠ timers.next := by
    rintro handle member rfl
    exact Nat.lt_irrefl _ (account.issued _ member)
  have kept : ∀ handle ∈ log.handles,
      (timers.arm delay event).2.armed? handle = timers.armed? handle := by
    intro handle member
    rw [armed?_arm, if_neg (old handle member)]
  constructor
  · exact account.sound.arm delay event
  · intro handle member
    rw [handles] at member
    rcases List.mem_append.mp member with before | new
    · exact Nat.lt_succ_of_lt (account.issued handle before)
    · rw [List.mem_singleton.mp new]
      exact Nat.lt_succ_self _
  · rw [handles]
    refine account.distinct.append (List.nodup_singleton _) ?_
    intro handle before new
    exact old handle before (List.mem_singleton.mp new)
  · intro handle deadline found armed
    rw [armed?_arm] at armed
    rw [armings]
    split at armed
    · rename_i new
      cases armed
      exact List.mem_append_right _ (by simp [new])
    · exact List.mem_append_left _ (account.source handle deadline found armed)
  · intro handle member
    rw [cancelled] at member
    obtain ⟨known, disarmed⟩ := account.cancelled handle member
    exact ⟨handles ▸ List.mem_append_left _ known, (kept handle known).trans disarmed⟩
  · intro shot member
    rw [shots] at member
    obtain ⟨source, disarmed, spared⟩ := account.fired shot member
    refine ⟨armings ▸ List.mem_append_left _ source, ?_, cancelled ▸ spared⟩
    exact (kept _ (account.mem_handles_of_fired member)).trans disarmed
  · intro handle member
    rw [Log.fired, cancelled, shots, armed?_arm]
    rw [handles] at member
    rcases List.mem_append.mp member with before | new
    · rw [if_neg (old handle before)]
      exact account.placed handle before
    · simp [List.mem_singleton.mp new]
  · exact shots ▸ account.ordered
  · intro shot member
    rw [shots] at member
    obtain ⟨reached, before⟩ := account.past shot member
    refine ⟨reached, fun handle deadline found armed => ?_⟩
    rw [armed?_arm] at armed
    split at armed
    · rename_i new
      cases armed
      -- What fired was due by now, and at the same deadline the older handle comes first.
      have issued := account.issued _ (account.mem_handles_of_fired member)
      rw [Slot.compare_lt_iff, new]
      rcases Nat.lt_or_eq_of_le (Nat.le_trans reached (Nat.le_add_right _ delay)) with below | level
      · exact .inl below
      · exact .inr ⟨level, issued⟩
    · exact before handle deadline found armed
  · exact shots ▸ account.due
  · exact clock ▸ account.forward
  · exact clock ▸ account.behind
  · exact clock ▸ account.now

/-- A cancellation ends a timer that is armed, so one that has not fired. -/
theorem Account.cancel {log : Log ε} (account : Account log timers) {handle : Handle}
    (pending : timers.isPending handle = true) :
    Account (log ++ [.cancelled handle]) (timers.cancel handle) := by
  generalize written : log ++ [.cancelled handle] = longer
  have armings : longer.armings = log.armings := by simp [← written, Log.armings]
  have handles : longer.handles = log.handles := by simp [Log.handles, armings]
  have cancelled : longer.cancelled = log.cancelled ++ [handle] := by simp [← written, Log.cancelled]
  have shots : longer.shots = log.shots := by simp [← written, Log.shots]
  have clock : longer.clock = log.clock := by simp [← written, Log.clock]
  have still : ∀ other entry, (timers.cancel handle).armed? other = some entry →
      timers.armed? other = some entry := by
    intro other entry armed
    rw [armed?_cancel] at armed
    split at armed
    · cases armed
    · exact armed
  have gone : ∀ other, timers.armed? other = none → (timers.cancel handle).armed? other = none := by
    intro other disarmed
    rw [armed?_cancel, disarmed, ite_self]
  obtain ⟨⟨deadline, event⟩, armed⟩ :=
    Option.isSome_iff_exists.mp ((account.sound.isPending_iff handle).mp pending)
  constructor
  · exact account.sound.cancel handle
  · rw [handles, next_cancel]
    exact account.issued
  · exact handles ▸ account.distinct
  · intro other deadline found armed
    rw [armings]
    exact account.source other deadline found (still other _ armed)
  · intro other member
    rw [cancelled] at member
    rw [handles]
    rcases List.mem_append.mp member with before | now
    · obtain ⟨known, disarmed⟩ := account.cancelled other before
      exact ⟨known, gone other disarmed⟩
    · rw [List.mem_singleton.mp now, armed?_cancel, if_pos rfl]
      exact ⟨List.mem_map.mpr ⟨_, account.source handle deadline event armed, rfl⟩, rfl⟩
  · intro shot member
    rw [shots] at member
    obtain ⟨source, disarmed, spared⟩ := account.fired shot member
    refine ⟨armings ▸ source, gone _ disarmed, ?_⟩
    rw [cancelled, List.mem_append, not_or, List.mem_singleton]
    refine ⟨spared, ?_⟩
    rintro rfl
    simp [disarmed] at armed
  · intro other member
    rw [handles] at member
    rw [Log.fired, cancelled, shots, armed?_cancel]
    by_cases same : other = handle
    · simp [same]
    · rw [if_neg same]
      rcases account.placed other member with armed | before | fired
      · exact .inl armed
      · exact .inr (.inl (List.mem_append_left _ before))
      · exact .inr (.inr fired)
  · exact shots ▸ account.ordered
  · intro shot member
    rw [shots] at member
    obtain ⟨reached, before⟩ := account.past shot member
    rw [elapsed_cancel]
    exact ⟨reached, fun other deadline found armed => before other deadline found (still other _ armed)⟩
  · exact shots ▸ account.due
  · exact clock ▸ account.forward
  · rw [clock, elapsed_cancel]
    exact account.behind
  · rw [clock, elapsed_cancel]
    exact account.now

/-- A reading that is not behind the clock goes on with the earlier ones. -/
theorem Account.tick {log : Log ε} (account : Account log timers) {reading : Nanos}
    (later : timers.elapsed ≤ reading) :
    (log.clock ++ [reading]).Pairwise (· ≤ ·) ∧
      ∀ earlier ∈ log.clock ++ [reading], earlier ≤ reading := by
  have behind : ∀ earlier ∈ log.clock, earlier ≤ reading :=
    fun earlier member => Nat.le_trans (account.behind earlier member) later
  constructor
  · rw [List.pairwise_append]
    refine ⟨account.forward, List.pairwise_singleton _ _, ?_⟩
    intro earlier before last now
    rw [List.mem_singleton.mp now]
    exact behind earlier before
  · intro earlier member
    rcases List.mem_append.mp member with before | now
    · exact behind earlier before
    · exact Nat.le_of_eq (List.mem_singleton.mp now)

/-- What pops is the first timer of all that are armed, so nothing later in the order fired before it. -/
theorem Account.pop {log : Log ε} (account : Account log timers) {rest : Timers ε} {limit : Nanos}
    {firing : Firing ε} {slot : Slot} (first : timers.firstSlot? = some slot)
    (popped : timers.popDue limit = some (firing, rest)) :
    Account (log ++ [.fired ⟨slot, firing.event, rest.elapsed⟩]) rest := by
  have fired := account.sound.popDue popped
  obtain ⟨found, sameFirst, -, queued, sameHandle, left⟩ := popDue_eq_some popped
  obtain rfl : slot = found := Option.some.inj (first.symm.trans sameFirst)
  have elapsed : rest.elapsed = max timers.elapsed slot.deadline := by rw [left]
  have later : timers.elapsed ≤ rest.elapsed := elapsed ▸ Nat.le_max_left _ _
  -- Until now the timer that popped was armed, so it was not cancelled, and all that fired came before it.
  have armed := account.sound.queued_iff.mp queued
  have source := account.source _ _ _ armed
  have disarmed : rest.armed? slot.handle = none := by simp [fired.remaining, sameHandle]
  have still : ∀ other entry, rest.armed? other = some entry →
      other ≠ slot.handle ∧ timers.armed? other = some entry := by
    rintro other entry armed
    refine ⟨fun same => by simp [same, disarmed] at armed, ?_⟩
    rw [fired.remaining] at armed
    split at armed
    · cases armed
    · exact armed
  have gone : ∀ other, timers.armed? other = none → rest.armed? other = none := by
    intro other before
    rw [fired.remaining, before, ite_self]
  generalize written : log ++ [.fired ⟨slot, firing.event, rest.elapsed⟩] = longer
  have armings : longer.armings = log.armings := by simp [← written, Log.armings]
  have handles : longer.handles = log.handles := by simp [Log.handles, armings]
  have cancelled : longer.cancelled = log.cancelled := by simp [← written, Log.cancelled]
  have shots : longer.shots = log.shots ++ [⟨slot, firing.event, rest.elapsed⟩] := by
    simp [← written, Log.shots]
  have clock : longer.clock = log.clock ++ [rest.elapsed] := by simp [← written, Log.clock]
  constructor
  · exact fired.sound
  · rw [handles, fired.next]
    exact account.issued
  · exact handles ▸ account.distinct
  · intro other deadline event armed
    rw [armings]
    exact account.source other deadline event (still other _ armed).2
  · intro other member
    rw [cancelled] at member
    obtain ⟨known, before⟩ := account.cancelled other member
    exact ⟨handles ▸ known, gone other before⟩
  · intro shot member
    rw [shots] at member
    rw [armings, cancelled]
    rcases List.mem_append.mp member with before | now
    · obtain ⟨sourced, disarmed, spared⟩ := account.fired shot before
      exact ⟨sourced, gone _ disarmed, spared⟩
    · rw [List.mem_singleton.mp now]
      refine ⟨source, disarmed, fun member => ?_⟩
      simp [(account.cancelled _ member).2] at armed
  · intro other member
    rw [handles] at member
    rw [Log.fired, cancelled, shots, List.map_append, List.mem_append]
    by_cases same : other = slot.handle
    · simp [same]
    · rw [fired.remaining, if_neg (by simpa [sameHandle] using same)]
      rcases account.placed other member with armed | before | fired
      · exact .inl armed
      · exact .inr (.inl before)
      · exact .inr (.inr (.inl fired))
  · rw [shots, List.pairwise_append]
    refine ⟨account.ordered, List.pairwise_singleton _ _, ?_⟩
    intro shot before last now
    rw [List.mem_singleton.mp now]
    exact (account.past shot before).2 _ _ _ armed
  · intro shot member
    rw [shots] at member
    rcases List.mem_append.mp member with before | now
    · obtain ⟨reached, ahead⟩ := account.past shot before
      exact ⟨Nat.le_trans reached later,
        fun other deadline event armed => ahead other deadline event (still other _ armed).2⟩
    · rw [List.mem_singleton.mp now]
      refine ⟨elapsed ▸ Nat.le_max_right _ _, fun other deadline event armed => ?_⟩
      obtain ⟨different, armed⟩ := still other _ armed
      have waiting : timers.queue[(⟨deadline, other⟩ : Slot)]? = some event :=
        account.sound.queued_iff.mpr armed
      have member := Std.ExtTreeMap.mem_iff_isSome_getElem?.mpr (Option.isSome_of_eq_some waiting)
      exact (firstSlot?_eq_some first).2 _ member fun same => different (congrArg Slot.handle same)
  · intro shot member
    rw [shots] at member
    rcases List.mem_append.mp member with before | now
    · exact account.due shot before
    · rw [List.mem_singleton.mp now]
      exact elapsed ▸ Nat.le_max_right _ _
  · exact clock ▸ (account.tick later).1
  · exact clock ▸ (account.tick later).2
  · simp [clock]

/-- Time that passes changes nothing but the reading of the clock. -/
theorem Account.pass {log : Log ε} (account : Account log timers) (target : Nanos) :
    Account (log ++ [.passed (timers.advanceTo target).elapsed]) (timers.advanceTo target) := by
  have later : timers.elapsed ≤ (timers.advanceTo target).elapsed := Nat.le_max_left _ _
  generalize written : log ++ [.passed (timers.advanceTo target).elapsed] = longer
  have armings : longer.armings = log.armings := by simp [← written, Log.armings]
  have handles : longer.handles = log.handles := by simp [Log.handles, armings]
  have cancelled : longer.cancelled = log.cancelled := by simp [← written, Log.cancelled]
  have shots : longer.shots = log.shots := by simp [← written, Log.shots]
  have fired : longer.fired = log.fired := by simp [Log.fired, shots]
  have clock : longer.clock = log.clock ++ [(timers.advanceTo target).elapsed] := by
    simp [← written, Log.clock]
  constructor
  · exact (account.sound.advanceTo target).sound
  · exact handles ▸ account.issued
  · exact handles ▸ account.distinct
  · exact armings ▸ account.source
  · exact cancelled ▸ handles ▸ account.cancelled
  · exact shots ▸ armings ▸ cancelled ▸ account.fired
  · exact handles ▸ cancelled ▸ fired ▸ account.placed
  · exact shots ▸ account.ordered
  · intro shot member
    rw [shots] at member
    obtain ⟨reached, ahead⟩ := account.past shot member
    exact ⟨Nat.le_trans reached later, ahead⟩
  · exact shots ▸ account.due
  · exact clock ▸ (account.tick later).1
  · exact clock ▸ (account.tick later).2
  · simp [clock]

theorem Logged.account {log : Log ε} {timers : Timers ε} (logged : Logged log timers) :
    Account log timers := by
  induction logged with
  | new => exact .new
  | arm _ delay event ih => exact ih.arm delay event
  | cancel _ handle pending ih => exact ih.cancel pending
  | pop _ first popped ih => exact ih.pop first popped
  | pass _ target ih => exact ih.pass target

end Overhear.Timers
