import Overhear.Proofs.Timers.Calls

/-! A jump of the clock. It fires all that is due at its end and nothing else, in the order of the slots, and
leaves the rest armed as it was; so a jump may be made in two parts. -/
namespace Overhear.Timers

variable {ε : Type} {timers middle rest after : Timers ε} {limit : Nanos} {firing : Firing ε}
  {firings : List (Firing ε)} {due : List (Slot × ε)}

/-- The timers that are due by a limit with their events, in the order of their slots. -/
structure IsDue (timers : Timers ε) (limit : Nanos) (due : List (Slot × ε)) : Prop where
  inOrder : due.Pairwise fun first second => compare first.1 second.1 = .lt
  mem_iff : ∀ slot event, (slot, event) ∈ due ↔
    timers.armed? slot.handle = some (slot.deadline, event) ∧ slot.deadline ≤ limit

def firingOf (entry : Slot × ε) : Firing ε := ⟨entry.1.handle, entry.2⟩

theorem IsDue.nodup (isDue : timers.IsDue limit due) : due.Nodup := by
  refine isDue.inOrder.imp fun before same => ?_
  rw [same, Std.compare_self] at before
  cases before

/-- An order without ties leaves one list only. -/
theorem IsDue.unique {other : List (Slot × ε)} (isDue : timers.IsDue limit due)
    (isOther : timers.IsDue limit other) : due = other := by
  have same : List.Perm due other := by
    refine (List.perm_ext_iff_of_nodup isDue.nodup isOther.nodup).mpr ?_
    rintro ⟨slot, event⟩
    rw [isDue.mem_iff, isOther.mem_iff]
  refine same.eq_of_pairwise ?_ isDue.inOrder isOther.inOrder
  intro first second _ _ before behind
  rw [Std.OrientedCmp.gt_of_lt before] at behind
  cases behind

theorem Sound.mem_queue_of_armed (sound : timers.Sound) {slot : Slot} {event : ε}
    (armed : timers.armed? slot.handle = some (slot.deadline, event)) : slot ∈ timers.queue :=
  (sound.mem_queue_iff slot).mpr (armed?_eq_some.mp armed).1

/-- Nothing is due when nothing pops. -/
theorem IsDue.nil (sound : timers.Sound) (rests : timers.popDue limit = none) : timers.IsDue limit [] where
  inOrder := .nil
  mem_iff slot event := by
    refine iff_of_false List.not_mem_nil ?_
    rintro ⟨armed, reached⟩
    have late := popDue_eq_none_iff.mp rests slot (sound.mem_queue_of_armed armed)
    exact Nat.not_le_of_lt late reached

/-- What pops is due before all that is due after it. -/
theorem IsDue.cons {slot : Slot} (sound : timers.Sound) (first : timers.firstSlot? = some slot)
    (popped : timers.popDue limit = some (firing, rest)) (isDue : rest.IsDue limit due) :
    timers.IsDue limit ((slot, firing.event) :: due) := by
  have fired := sound.popDue popped
  obtain ⟨found, sameFirst, reached, queued, sameHandle, -⟩ := popDue_eq_some popped
  obtain rfl : slot = found := Option.some.inj (first.symm.trans sameFirst)
  have armed := sound.queued_iff.mp queued
  have remaining (handle : Handle) :
      rest.armed? handle = if handle = slot.handle then none else timers.armed? handle := by
    simpa [sameHandle] using fired.remaining handle
  have later : ∀ other event, (other, event) ∈ due →
      other.handle ≠ slot.handle ∧ timers.armed? other.handle = some (other.deadline, event) := by
    intro other event member
    have still := ((isDue.mem_iff other event).mp member).1
    rw [remaining] at still
    split at still
    · cases still
    · exact ⟨‹_›, still⟩
  constructor
  · refine List.pairwise_cons.mpr ⟨?_, isDue.inOrder⟩
    rintro ⟨other, event⟩ member
    obtain ⟨different, still⟩ := later other event member
    apply (firstSlot?_eq_some first).2 other (sound.mem_queue_of_armed still)
    intro same
    exact different (congrArg Slot.handle same)
  · intro other event
    rw [List.mem_cons, isDue.mem_iff, remaining]
    by_cases same : other.handle = slot.handle
    · -- A timer has one slot, so an entry with this handle is the one that popped.
      rw [if_pos same, same, armed]
      constructor
      · rintro (entry | ⟨gone, -⟩)
        · obtain ⟨rfl, rfl⟩ := Prod.mk.inj entry
          exact ⟨rfl, reached⟩
        · cases gone
      · rintro ⟨entry, -⟩
        obtain ⟨level, rfl⟩ := Prod.mk.inj (Option.some.inj entry)
        exact .inl (Prod.ext (congrArg₂ Slot.mk level.symm same) rfl)
    · rw [if_neg same]
      refine or_iff_right fun entry => same ?_
      rw [(Prod.mk.inj entry).1]

/-- A drain that may pop as often as there are timers fires all that is due. -/
theorem Sound.exists_isDue (sound : timers.Sound) (limit : Nanos) (count : Nat) (enough : timers.queue.size ≤ count) :
    ∃ due, timers.IsDue limit due ∧ (Timers.popUpTo limit count timers).1 = due.map firingOf := by
  induction count generalizing timers with
  | zero =>
    have empty : timers.queue = ∅ := Std.ExtTreeMap.eq_empty_iff_size_eq_zero.mpr (Nat.le_zero.mp enough)
    exact ⟨[], .nil sound (popDue_of_empty empty limit), rfl⟩
  | succ count ih =>
    unfold Timers.popUpTo
    split
    · rename_i rests
      exact ⟨[], .nil sound rests, rfl⟩
    · rename_i firing rest popped
      obtain ⟨slot, first, -, -, sameHandle, -⟩ := popDue_eq_some popped
      have fewer := size_queue_popDue popped
      obtain ⟨due, isDue, fired⟩ := ih (sound.popDue popped).sound (by omega)
      refine ⟨(slot, firing.event) :: due, .cons sound first popped isDue, ?_⟩
      rw [List.map_cons, ← fired, firingOf, ← sameHandle]

/-- What a jump to a limit gives, and the service that it leaves. -/
structure Delivers (timers : Timers ε) (limit : Nanos) (firings : List (Firing ε)) (after : Timers ε) :
    Prop where
  fired : ∃ due, timers.IsDue limit due ∧ firings = due.map firingOf
  elapsed : after.elapsed = limit
  next : after.next = timers.next
  sound : after.Sound
  remaining : ∀ handle deadline event, after.armed? handle = some (deadline, event) ↔
    timers.armed? handle = some (deadline, event) ∧ limit < deadline

theorem IsDue.mem_handles (isDue : timers.IsDue limit due) (handle : Handle) :
    handle ∈ (due.map firingOf).map Firing.handle ↔
      ∃ deadline event, timers.armed? handle = some (deadline, event) ∧ deadline ≤ limit := by
  rw [List.map_map, List.mem_map]
  constructor
  · rintro ⟨⟨slot, event⟩, member, rfl⟩
    exact ⟨slot.deadline, event, (isDue.mem_iff slot event).mp member⟩
  · rintro ⟨deadline, event, armed, reached⟩
    exact ⟨(⟨deadline, handle⟩, event), (isDue.mem_iff _ _).mpr ⟨armed, reached⟩, rfl⟩

theorem elapsed_popUpTo_le (behind : timers.elapsed ≤ limit) (count : Nat) :
    (popUpTo limit count timers).2.elapsed ≤ limit := by
  induction count generalizing timers with
  | zero => exact behind
  | succ count ih =>
    unfold popUpTo
    split
    · exact behind
    · rename_i firing rest popped
      obtain ⟨slot, -, reached, -, -, rfl⟩ := popDue_eq_some popped
      exact ih (Nat.max_le.mpr ⟨behind, reached⟩)

theorem Sound.delivers (sound : timers.Sound) (step : Nanos) :
    timers.Delivers (timers.elapsed + step) (timers.advance step).1 (timers.advance step).2 := by
  have drained := sound.advance step
  obtain ⟨due, isDue, fired⟩ := sound.exists_isDue (timers.elapsed + step) timers.queue.size (Nat.le_refl _)
  have handles := isDue.mem_handles
  rw [← fired] at handles
  refine ⟨⟨due, isDue, fired⟩, ?_, drained.next, drained.sound, fun handle deadline event => ?_⟩
  · exact Nat.max_eq_right (elapsed_popUpTo_le (Nat.le_add_right _ step) _)
  · rw [drained.remaining]
    split
    · rename_i member
      obtain ⟨found, other, armed, reached⟩ := (handles handle).mp member
      refine iff_of_false nofun ?_
      rintro ⟨same, late⟩
      obtain ⟨rfl, -⟩ := Prod.mk.inj (Option.some.inj (armed.symm.trans same))
      exact Nat.not_le_of_lt late reached
    · rename_i spared
      refine (and_iff_left_of_imp fun armed => ?_).symm
      by_contra reached
      exact spared ((handles handle).mpr ⟨deadline, event, armed, Nat.not_lt.mp reached⟩)

/-- After a jump nothing that is armed is due. -/
theorem Delivers.idle (delivers : timers.Delivers limit firings after) :
    ∀ slot ∈ after.queue, after.elapsed < slot.deadline := by
  intro slot member
  obtain ⟨event, queued⟩ := Option.isSome_iff_exists.mp (Std.ExtTreeMap.mem_iff_isSome_getElem?.mp member)
  rw [delivers.elapsed]
  exact ((delivers.remaining _ _ _).mp (delivers.sound.queued_iff.mp queued)).2

/-- A jump goes on with another one to a later limit. -/
theorem Delivers.trans {later : Nanos} {more : List (Firing ε)}
    (first : timers.Delivers limit firings middle) (second : middle.Delivers later more after)
    (ahead : limit ≤ later) : timers.Delivers later (firings ++ more) after := by
  obtain ⟨early, isEarly, rfl⟩ := first.fired
  obtain ⟨late, isLate, rfl⟩ := second.fired
  have after_early : ∀ entry ∈ late, limit < entry.1.deadline := fun entry member =>
    ((first.remaining _ _ _).mp ((isLate.mem_iff entry.1 entry.2).mp member).1).2
  refine ⟨⟨early ++ late, ⟨?_, fun slot event => ?_⟩, List.map_append.symm⟩, second.elapsed,
    second.next.trans first.next, second.sound, fun handle deadline event => ?_⟩
  · refine List.pairwise_append.mpr ⟨isEarly.inOrder, isLate.inOrder, fun one early other late => ?_⟩
    have reached := ((isEarly.mem_iff one.1 one.2).mp early).2
    exact Slot.compare_lt_iff.mpr (.inl (Nat.lt_of_le_of_lt reached (after_early other late)))
  · rw [List.mem_append, isEarly.mem_iff, isLate.mem_iff, first.remaining]
    constructor
    · rintro (⟨armed, reached⟩ | ⟨⟨armed, -⟩, reached⟩)
      · exact ⟨armed, Nat.le_trans reached ahead⟩
      · exact ⟨armed, reached⟩
    · rintro ⟨armed, reached⟩
      rcases Nat.lt_or_ge limit slot.deadline with late | early
      · exact .inr ⟨⟨armed, late⟩, reached⟩
      · exact .inl ⟨armed, early⟩
  · rw [second.remaining, first.remaining]
    constructor
    · rintro ⟨⟨armed, -⟩, late⟩
      exact ⟨armed, late⟩
    · rintro ⟨armed, late⟩
      exact ⟨⟨armed, Nat.lt_of_le_of_lt ahead late⟩, late⟩

/-- What is armed, the clock and the next handle are all that there is to a sound service. -/
theorem Sound.ext {other : Timers ε} (sound : timers.Sound) (otherSound : other.Sound)
    (elapsed : timers.elapsed = other.elapsed) (next : timers.next = other.next)
    (armed : ∀ handle, timers.armed? handle = other.armed? handle) : timers = other := by
  have queue : timers.queue = other.queue := by
    apply Std.ExtTreeMap.ext_getElem?
    intro slot
    refine Option.ext fun event => ?_
    rw [sound.queued_iff, otherSound.queued_iff, armed]
  have deadlines : timers.deadlines = other.deadlines := by
    apply Std.ExtTreeMap.ext_getElem?
    intro handle
    refine Option.ext fun deadline => ?_
    have slotted := sound.mem_queue_iff ⟨deadline, handle⟩
    rw [queue, otherSound.mem_queue_iff] at slotted
    exact slotted.symm
  cases timers
  cases other
  simp_all

theorem Delivers.unique {others : List (Firing ε)} {otherAfter : Timers ε}
    (delivers : timers.Delivers limit firings after) (again : timers.Delivers limit others otherAfter) :
    firings = others ∧ after = otherAfter := by
  obtain ⟨due, isDue, rfl⟩ := delivers.fired
  obtain ⟨other, isOther, rfl⟩ := again.fired
  refine ⟨by rw [isDue.unique isOther], delivers.sound.ext again.sound
    (delivers.elapsed.trans again.elapsed.symm) (delivers.next.trans again.next.symm) fun handle => ?_⟩
  refine Option.ext fun ⟨deadline, event⟩ => ?_
  rw [delivers.remaining, again.remaining]

theorem Sound.advance_add (sound : timers.Sound) (step more : Nanos) :
    timers.advance (step + more) = ((timers.advance step).1 ++ ((timers.advance step).2.advance more).1,
      ((timers.advance step).2.advance more).2) := by
  have first := sound.delivers step
  have second := first.sound.delivers more
  rw [first.elapsed] at second
  have whole := sound.delivers (step + more)
  rw [← Nat.add_assoc] at whole
  obtain ⟨firings, after⟩ := whole.unique (first.trans second (Nat.le_add_right _ more))
  exact Prod.ext firings after

/-- However a service was used, a jump of its clock fires exactly the timers that are due at its end, in the
order of their slots. The clock then reads that end, and the other timers are armed as before, none of
them due. Two jumps fire what one jump over both steps fires, and leave the same service. -/
theorem advance_fires_all_due (calls : List (Call ε)) (step more : Nanos) :
    let timers := (Run.after calls).timers
    let (firings, after) := timers.advance step
    timers.Sound ∧ timers.Delivers (timers.elapsed + step) firings after ∧
      (∀ slot ∈ after.queue, after.elapsed < slot.deadline) ∧
      timers.advance (step + more) = (firings ++ (after.advance more).1, (after.advance more).2) := by
  have sound := (Run.kept_after calls).logged.account.sound
  have delivers := sound.delivers step
  exact ⟨sound, delivers, delivers.idle, sound.advance_add step more⟩

/-- A timer that is overdue fires with the others, in its place, and those of one deadline as they were armed. -/
theorem advance_fires_all_due_overdue :
    let timers := (Run.after [.arm 9 "later", .arm 3 "overdue", .arm 9 "last", .move (.advanceTo 5),
      .arm 4 "new", .arm 5 "waiting"]).timers
    (timers.advance 4).1.map Firing.event = ["overdue", "later", "last", "new"] ∧
      ⟨10, ⟨5⟩⟩ ∈ (timers.advance 4).2.queue ∧ (timers.advance 4).2.elapsed < 10 ∧
      timers.advance (4 + 1) = ((timers.advance 4).1 ++ ((timers.advance 4).2.advance 1).1,
        ((timers.advance 4).2.advance 1).2) := by
  intro timers
  obtain ⟨-, -, idle, split⟩ := advance_fires_all_due [.arm 9 "later", .arm 3 "overdue", .arm 9 "last",
    .move (.advanceTo 5), .arm 4 "new", .arm 5 "waiting"] 4 1
  have waiting : ⟨10, ⟨5⟩⟩ ∈ (timers.advance 4).2.queue :=
    Std.ExtTreeMap.contains_iff_mem.mp (by decide +kernel)
  exact ⟨by decide +kernel, waiting, idle _ waiting, split⟩

end Overhear.Timers
