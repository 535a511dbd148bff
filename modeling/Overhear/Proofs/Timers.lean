import Overhear.Timers

/-! What is armed in a timer service: each handle with its deadline and its event. In a sound service
the queue and the deadlines tell of the same timers, and each of their handles was handed out. -/
namespace Overhear.Timers

variable {ε : Type}

/-- The deadline and the event of an armed timer. -/
def armed? (timers : Timers ε) (handle : Handle) : Option (Nanos × ε) := do
  let deadline ← timers.deadlines[handle]?
  let event ← timers.queue[(⟨deadline, handle⟩ : Slot)]?
  return (deadline, event)

/-- The two tables of a service agree, and the next handle is above all that are armed. -/
structure Sound (timers : Timers ε) : Prop where
  queued : ∀ (handle : Handle) (deadline : Nanos), timers.deadlines[handle]? = some deadline →
    ∃ event, timers.queue[(⟨deadline, handle⟩ : Slot)]? = some event
  dated : ∀ (slot : Slot) (event : ε), timers.queue[slot]? = some event →
    timers.deadlines[slot.handle]? = some slot.deadline
  handedOut : ∀ (handle : Handle) (deadline : Nanos), timers.deadlines[handle]? = some deadline →
    handle.number < timers.next.number

theorem armed?_eq_some {timers : Timers ε} {handle : Handle} {deadline : Nanos} {event : ε} :
    timers.armed? handle = some (deadline, event) ↔
      timers.deadlines[handle]? = some deadline ∧
        timers.queue[(⟨deadline, handle⟩ : Slot)]? = some event := by
  cases dated : timers.deadlines[handle]? with
  | none => simp [armed?, dated]
  | some found =>
    cases queued : timers.queue[(⟨found, handle⟩ : Slot)]? with
    | none =>
      simp only [armed?, dated, queued, Option.bind_eq_bind, Option.bind_some, Option.bind_none]
      simp only [reduceCtorEq, Option.some.injEq, false_iff, not_and]
      intro same
      subst same
      simp [queued]
    | some other =>
      simp only [armed?, dated, queued, Option.bind_eq_bind, Option.bind_some, Option.pure_def,
        Option.some.injEq, Prod.mk.injEq]
      constructor
      · rintro ⟨rfl, rfl⟩
        exact ⟨rfl, queued⟩
      · rintro ⟨rfl, same⟩
        exact ⟨rfl, Option.some.inj (queued.symm.trans same)⟩

theorem armed?_of_undated {timers : Timers ε} {handle : Handle}
    (undated : timers.deadlines[handle]? = none) : timers.armed? handle = none := by
  simp [armed?, undated]

/-- In a sound service the armed timers are those that have a deadline. -/
theorem Sound.isPending_iff {timers : Timers ε} (sound : timers.Sound) (handle : Handle) :
    timers.isPending handle = true ↔ (timers.armed? handle).isSome := by
  rw [isPending, Std.ExtTreeMap.contains_eq_isSome_getElem?]
  cases dated : timers.deadlines[handle]? with
  | none => simp [armed?_of_undated dated]
  | some deadline =>
    obtain ⟨event, queued⟩ := sound.queued handle deadline dated
    simp [armed?_eq_some.mpr ⟨dated, queued⟩]

/-- In a sound service the armed timers are those in the queue. -/
theorem Sound.queued_iff {timers : Timers ε} (sound : timers.Sound) {slot : Slot} {event : ε} :
    timers.queue[slot]? = some event ↔
      timers.armed? slot.handle = some (slot.deadline, event) := by
  rw [armed?_eq_some]
  exact ⟨fun queued => ⟨sound.dated slot event queued, queued⟩, And.right⟩

theorem Sound.handedOut_of_armed {timers : Timers ε} (sound : timers.Sound) {handle : Handle}
    {entry : Nanos × ε} (armed : timers.armed? handle = some entry) :
    handle.number < timers.next.number :=
  sound.handedOut handle entry.1 (armed?_eq_some.mp armed).1

/-- A sound service of which no timer is armed is empty. -/
theorem Sound.eq_empty {timers : Timers ε} (sound : timers.Sound)
    (unarmed : ∀ handle, timers.armed? handle = none) : timers.queue = ∅ ∧ timers.deadlines = ∅ := by
  constructor
  · rw [Std.ExtTreeMap.eq_empty_iff_forall_not_mem]
    intro slot member
    obtain ⟨event, queued⟩ := Option.isSome_iff_exists.mp
      (Std.ExtTreeMap.mem_iff_isSome_getElem?.mp member)
    have armed := sound.queued_iff.mp queued
    simp [unarmed] at armed
  · rw [Std.ExtTreeMap.eq_empty_iff_forall_not_mem]
    intro handle member
    have pending := (sound.isPending_iff handle).mp (Std.ExtTreeMap.contains_iff_mem.mpr member)
    simp [unarmed] at pending

theorem Sound.empty : (({} : Timers ε)).Sound where
  queued := by simp
  dated := by simp
  handedOut := by simp

@[simp] theorem arm_fst (timers : Timers ε) (delay : Nanos) (event : ε) :
    (timers.arm delay event).1 = timers.next := rfl

@[simp] theorem next_arm (timers : Timers ε) (delay : Nanos) (event : ε) :
    (timers.arm delay event).2.next = ⟨timers.next.number + 1⟩ := rfl

@[simp] theorem elapsed_arm (timers : Timers ε) (delay : Nanos) (event : ε) :
    (timers.arm delay event).2.elapsed = timers.elapsed := rfl

theorem armed?_arm (timers : Timers ε) (delay : Nanos) (event : ε) (handle : Handle) :
    (timers.arm delay event).2.armed? handle =
      if handle = timers.next then some (timers.elapsed + delay, event)
      else timers.armed? handle := by
  by_cases same : handle = timers.next
  · subst same
    rw [if_pos rfl, armed?_eq_some]
    simp [arm]
  · have other : ¬ timers.next = handle := fun equal => same equal.symm
    simp [armed?, arm, Std.ExtTreeMap.getElem?_insert, other, same]

/-- Handles that were handed out before stay as they are. -/
theorem armed?_arm_of_lt {timers : Timers ε} {handle : Handle}
    (below : handle.number < timers.next.number) (delay : Nanos) (event : ε) :
    (timers.arm delay event).2.armed? handle = timers.armed? handle := by
  have other : handle ≠ timers.next := fun same => Nat.ne_of_lt below (congrArg Handle.number same)
  rw [armed?_arm, if_neg other]

theorem Sound.arm {timers : Timers ε} (sound : timers.Sound) (delay : Nanos) (event : ε) :
    (timers.arm delay event).2.Sound where
  queued handle deadline dated := by
    simp only [Timers.arm, Std.ExtTreeMap.getElem?_insert, Std.compare_eq_iff_eq] at dated ⊢
    by_cases same : timers.next = handle
    · rw [if_pos same] at dated
      cases same
      cases dated
      exact ⟨event, by simp⟩
    · rw [if_neg same] at dated
      obtain ⟨found, queued⟩ := sound.queued handle deadline dated
      exact ⟨found, by simp [same, queued]⟩
  dated slot found queued := by
    simp only [Timers.arm, Std.ExtTreeMap.getElem?_insert, Std.compare_eq_iff_eq] at queued ⊢
    by_cases same : (⟨timers.elapsed + delay, timers.next⟩ : Slot) = slot
    · cases same
      simp
    · rw [if_neg same] at queued
      have dated := sound.dated slot found queued
      have other : ¬ timers.next = slot.handle := by
        intro equal
        have below := sound.handedOut _ _ dated
        rw [← equal] at below
        exact Nat.lt_irrefl _ below
      simp [other, dated]
  handedOut handle deadline dated := by
    simp only [Timers.arm, Std.ExtTreeMap.getElem?_insert, Std.compare_eq_iff_eq] at dated ⊢
    by_cases same : timers.next = handle
    · cases same
      exact Nat.lt_succ_self _
    · rw [if_neg same] at dated
      exact Nat.lt_succ_of_lt (sound.handedOut handle deadline dated)

@[simp] theorem next_cancel (timers : Timers ε) (handle : Handle) :
    (timers.cancel handle).next = timers.next := by
  unfold cancel
  split <;> rfl

@[simp] theorem elapsed_cancel (timers : Timers ε) (handle : Handle) :
    (timers.cancel handle).elapsed = timers.elapsed := by
  unfold cancel
  split <;> rfl

theorem deadlines_cancel (timers : Timers ε) (handle other : Handle) :
    (timers.cancel handle).deadlines[other]? =
      if other = handle then none else timers.deadlines[other]? := by
  unfold cancel
  split
  · rename_i undated
    by_cases same : other = handle
    · subst same
      simp [undated]
    · simp [same]
  · by_cases same : other = handle
    · simp [same]
    · have different : ¬ handle = other := fun equal => same equal.symm
      simp [Std.ExtTreeMap.getElem?_erase, same, different]

theorem queue_cancel_of_ne (timers : Timers ε) {handle : Handle} {slot : Slot}
    (other : slot.handle ≠ handle) :
    (timers.cancel handle).queue[slot]? = timers.queue[slot]? := by
  unfold cancel
  split
  · rfl
  · rename_i deadline _
    have different : ¬ (⟨deadline, handle⟩ : Slot) = slot := by
      intro same
      subst same
      exact other rfl
    simp [Std.ExtTreeMap.getElem?_erase, different]

theorem armed?_cancel (timers : Timers ε) (handle other : Handle) :
    (timers.cancel handle).armed? other = if other = handle then none else timers.armed? other := by
  by_cases same : other = handle
  · rw [if_pos same]
    exact armed?_of_undated (by rw [deadlines_cancel, if_pos same])
  · rw [if_neg same]
    simp only [armed?, deadlines_cancel, if_neg same]
    congr
    funext deadline
    rw [queue_cancel_of_ne timers same]

theorem Sound.cancel {timers : Timers ε} (sound : timers.Sound) (handle : Handle) :
    (timers.cancel handle).Sound where
  queued other deadline dated := by
    rw [deadlines_cancel] at dated
    by_cases same : other = handle
    · simp [same] at dated
    · rw [if_neg same] at dated
      rw [queue_cancel_of_ne timers same]
      exact sound.queued other deadline dated
  dated slot event queued := by
    by_cases same : slot.handle = handle
    · -- A slot of the handle that is still queued would be the very one that was erased.
      exfalso
      subst same
      unfold Timers.cancel at queued
      split at queued
      · rename_i undated
        simp [sound.dated slot event queued] at undated
      · rename_i deadline dated
        by_cases erased : (⟨deadline, slot.handle⟩ : Slot) = slot
        · simp [erased] at queued
        · simp only [Std.ExtTreeMap.getElem?_erase, Std.compare_eq_iff_eq, if_neg erased] at queued
          have aligned := dated.symm.trans (sound.dated slot event queued)
          exact erased (by rw [Option.some.inj aligned])
    · rw [queue_cancel_of_ne timers same] at queued
      rw [deadlines_cancel, if_neg same]
      exact sound.dated slot event queued
  handedOut other deadline dated := by
    rw [deadlines_cancel] at dated
    by_cases same : other = handle
    · simp [same] at dated
    · rw [if_neg same] at dated
      rw [next_cancel]
      exact sound.handedOut other deadline dated

theorem cancel_of_not_pending {timers : Timers ε} {handle : Handle}
    (idle : timers.isPending handle = false) :
    timers.cancel handle = timers := by
  rw [isPending, Std.ExtTreeMap.contains_eq_isSome_getElem?] at idle
  simp [cancel, Option.not_isSome_iff_eq_none.mp (Bool.eq_false_iff.mp idle)]

/-- Nothing can be disarmed in a service without timers. -/
theorem cancelAll_of_idle {timers : Timers ε} (idle : timers.deadlines = ∅) (handles : List Handle) :
    timers.cancelAll handles = timers := by
  unfold cancelAll
  induction handles with
  | nil => rfl
  | cons handle rest ih =>
    have undated : timers.isPending handle = false := by simp [isPending, idle]
    rw [List.foldl_cons, cancel_of_not_pending undated]
    exact ih

@[simp] theorem next_cancelAll (timers : Timers ε) (handles : List Handle) :
    (timers.cancelAll handles).next = timers.next := by
  unfold cancelAll
  induction handles generalizing timers with
  | nil => rfl
  | cons handle rest ih => rw [List.foldl_cons, ih, next_cancel]

@[simp] theorem elapsed_cancelAll (timers : Timers ε) (handles : List Handle) :
    (timers.cancelAll handles).elapsed = timers.elapsed := by
  unfold cancelAll
  induction handles generalizing timers with
  | nil => rfl
  | cons handle rest ih => rw [List.foldl_cons, ih, elapsed_cancel]

theorem armed?_cancelAll (timers : Timers ε) (handles : List Handle) (other : Handle) :
    (timers.cancelAll handles).armed? other =
      if other ∈ handles then none else timers.armed? other := by
  unfold cancelAll
  induction handles generalizing timers with
  | nil => simp
  | cons handle rest ih =>
    rw [List.foldl_cons, ih, armed?_cancel]
    by_cases later : other ∈ rest <;> by_cases now : other = handle <;> simp [later, now]

theorem Sound.cancelAll {timers : Timers ε} (sound : timers.Sound) (handles : List Handle) :
    (timers.cancelAll handles).Sound := by
  unfold Timers.cancelAll
  induction handles generalizing timers with
  | nil => exact sound
  | cons handle rest ih => exact ih (sound.cancel handle)

/-- `firings` left the service, and nothing else changed but the clock. -/
structure Fired (timers : Timers ε) (firings : List (Firing ε)) (rest : Timers ε) : Prop where
  sound : rest.Sound
  next : rest.next = timers.next
  armed : ∀ firing ∈ firings, ∃ deadline,
    timers.armed? firing.handle = some (deadline, firing.event)
  distinct : (firings.map Firing.handle).Nodup
  remaining : ∀ handle, rest.armed? handle =
    if handle ∈ firings.map Firing.handle then none else timers.armed? handle

theorem Fired.refl {timers : Timers ε} (sound : timers.Sound) : timers.Fired [] timers where
  sound := sound
  next := rfl
  armed := by simp
  distinct := List.nodup_nil
  remaining := by simp

/-- What fires after a timer was still armed when that one fired. -/
theorem Fired.cons {timers middle rest : Timers ε} {firing : Firing ε} {firings : List (Firing ε)}
    (first : timers.Fired [firing] middle) (others : middle.Fired firings rest) :
    timers.Fired (firing :: firings) rest := by
  have still : ∀ handle entry, middle.armed? handle = some entry →
      handle ≠ firing.handle ∧ timers.armed? handle = some entry := by
    intro handle entry armed
    rw [first.remaining] at armed
    by_cases same : handle = firing.handle
    · simp [same] at armed
    · exact ⟨same, by simpa [same] using armed⟩
  refine ⟨others.sound, others.next.trans first.next, ?_, ?_, ?_⟩
  · intro later member
    rcases List.mem_cons.mp member with rfl | later_member
    · exact first.armed later (by simp)
    · obtain ⟨deadline, armed⟩ := others.armed later later_member
      exact ⟨deadline, (still _ _ armed).2⟩
  · rw [List.map_cons, List.nodup_cons]
    refine ⟨?_, others.distinct⟩
    intro member
    obtain ⟨later, later_member, same⟩ := List.mem_map.mp member
    obtain ⟨deadline, armed⟩ := others.armed later later_member
    exact (still _ _ armed).1 same
  · intro handle
    rw [others.remaining, first.remaining]
    by_cases same : handle = firing.handle <;>
      by_cases later : handle ∈ firings.map Firing.handle <;> simp [same, later]

theorem popDue_eq_some {timers rest : Timers ε} {limit : Nanos} {firing : Firing ε}
    (popped : timers.popDue limit = some (firing, rest)) :
    ∃ slot : Slot, timers.firstSlot? = some slot ∧ slot.deadline ≤ limit ∧
      timers.queue[slot]? = some firing.event ∧ firing.handle = slot.handle ∧
      rest = { timers with
        elapsed := max timers.elapsed slot.deadline
        queue := timers.queue.erase slot
        deadlines := timers.deadlines.erase slot.handle } := by
  unfold popDue at popped
  obtain ⟨slot, first, popped⟩ := Option.bind_eq_some_iff.mp popped
  obtain ⟨event, queued, popped⟩ := Option.bind_eq_some_iff.mp popped
  split at popped
  · rename_i due
    obtain ⟨rfl, rfl⟩ := Prod.mk.inj (Option.some.inj popped)
    exact ⟨slot, first, due, queued, rfl, rfl⟩
  · cases popped

theorem Sound.popDue {timers rest : Timers ε} (sound : timers.Sound) {limit : Nanos}
    {firing : Firing ε} (popped : timers.popDue limit = some (firing, rest)) :
    timers.Fired [firing] rest := by
  obtain ⟨slot, -, -, queued, sameHandle, rfl⟩ := popDue_eq_some popped
  have armed := sound.queued_iff.mp queued
  -- Taking the slot out of both tables is what cancelling its handle does.
  have erased : timers.cancel slot.handle = { timers with
      queue := timers.queue.erase slot
      deadlines := timers.deadlines.erase slot.handle } := by
    simp [Timers.cancel, sound.dated slot _ queued]
  have cancelled := sound.cancel slot.handle
  rw [erased] at cancelled
  refine ⟨⟨cancelled.queued, cancelled.dated, cancelled.handedOut⟩, rfl, ?_, by simp, ?_⟩
  · intro only member
    rw [List.mem_singleton.mp member, sameHandle]
    exact ⟨_, armed⟩
  · intro handle
    have remaining := armed?_cancel timers slot.handle handle
    rw [erased] at remaining
    simp only [List.map_cons, List.map_nil, List.mem_singleton, sameHandle]
    exact remaining

theorem Sound.fireNext {timers rest : Timers ε} (sound : timers.Sound) {firing : Firing ε}
    (popped : timers.fireNext = some (firing, rest)) : timers.Fired [firing] rest := by
  obtain ⟨limit, -, popped⟩ := Option.bind_eq_some_iff.mp popped
  exact sound.popDue popped

theorem Sound.advanceTo {timers : Timers ε} (sound : timers.Sound) (target : Nanos) :
    timers.Fired [] (timers.advanceTo target) where
  sound := ⟨sound.queued, sound.dated, sound.handedOut⟩
  next := rfl
  armed := by simp
  distinct := List.nodup_nil
  remaining := by simp [Timers.advanceTo, armed?]

theorem Sound.popUpTo {timers : Timers ε} (sound : timers.Sound) (limit : Nanos) (count : Nat) :
    timers.Fired (popUpTo limit count timers).1 (popUpTo limit count timers).2 := by
  induction count generalizing timers with
  | zero => exact .refl sound
  | succ count ih =>
    unfold Timers.popUpTo
    split
    · exact .refl sound
    · rename_i firing rest popped
      have first := sound.popDue popped
      exact first.cons (ih first.sound)

/-- Moving the clock after the last firing takes nothing more out. -/
theorem Fired.advanceTo {timers rest : Timers ε} {firings : List (Firing ε)}
    (fired : timers.Fired firings rest) (target : Nanos) :
    timers.Fired firings (rest.advanceTo target) :=
  ⟨(fired.sound.advanceTo target).sound, fired.next, fired.armed, fired.distinct, fired.remaining⟩

theorem Sound.advance {timers : Timers ε} (sound : timers.Sound) (step : Nanos) :
    timers.Fired (timers.advance step).1 (timers.advance step).2 :=
  (sound.popUpTo (timers.elapsed + step) timers.queue.size).advanceTo _

end Overhear.Timers
