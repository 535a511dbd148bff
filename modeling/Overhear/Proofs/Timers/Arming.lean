import Mathlib.Algebra.Group.Nat.Defs
import Overhear.Proofs.Timers.Moves

/-! The timers that were armed since some point in time, and whether their deadlines are in range: as spans from
the start of the clock, no longer than the longest. -/
namespace Overhear

/-- The spans up to the longest make up twice 2^63 seconds. -/
theorem Nanos.longest_succ : longest + 1 = ofSeconds (2 ^ 63) + ofSeconds (2 ^ 63) := rfl

theorem Slot.deadline_le {first second : Slot} (before : (compare first second).isLE = true) :
    first.deadline ≤ second.deadline := by
  rw [Slot.compare_eq, Ordering.isLE_then_iff_or, Nat.compare_eq_lt] at before
  rcases before with less | ⟨level, -⟩
  · exact Nat.le_of_lt less
  · exact Nat.le_of_eq (Nat.compare_eq_eq.mp level)

namespace Timers

variable {ε : Type} {waits : ε → Nanos → Prop} {timers middle after : Timers ε}

/-- Every timer that was handed out since is armed, for a wait that starts where the clock stood and is one
for its event. -/
def Arms (waits : ε → Nanos → Prop) (timers after : Timers ε) : Prop :=
  ∀ handle : Handle, timers.next.number ≤ handle.number → handle.number < after.next.number →
    ∃ wait event, waits event wait ∧ after.armed? handle = some (timers.elapsed + wait, event)

/-- A wait that starts now ends at a point in time that can be represented. -/
def Fits (timers : Timers ε) (_ : ε) (wait : Nanos) : Prop := timers.elapsed + wait ≤ Nanos.longest

theorem Arms.of_next (same : after.next = timers.next) : timers.Arms waits after := by
  intro handle new below
  rw [same] at below
  exact absurd below (Nat.not_lt_of_le new)

theorem Arms.mono {other : ε → Nanos → Prop} (arms : timers.Arms waits after)
    (included : ∀ event wait, waits event wait → other event wait) : timers.Arms other after := by
  intro handle new below
  obtain ⟨wait, event, waited, armed⟩ := arms handle new below
  exact ⟨wait, event, included event wait waited, armed⟩

/-- What a service armed counts from where its clock stands and its handles go on. -/
theorem Arms.of_start (arms : middle.Arms waits after) (next : middle.next = timers.next)
    (elapsed : middle.elapsed = timers.elapsed) : timers.Arms waits after := by
  unfold Arms
  rw [← next, ← elapsed]
  exact arms

/-- Timers that were armed earlier must stay as they are. -/
theorem Arms.trans (first : timers.Arms waits middle) (second : middle.Arms waits after)
    (elapsed : middle.elapsed = timers.elapsed)
    (kept : ∀ handle : Handle, handle.number < middle.next.number →
      after.armed? handle = middle.armed? handle) : timers.Arms waits after := by
  intro handle new below
  rcases Nat.lt_or_ge handle.number middle.next.number with earlier | later
  · obtain ⟨wait, event, waited, armed⟩ := first handle new earlier
    exact ⟨wait, event, waited, (kept handle earlier).trans armed⟩
  · obtain ⟨wait, event, waited, armed⟩ := second handle later below
    exact ⟨wait, event, waited, elapsed ▸ armed⟩

theorem arms_arm (timers : Timers ε) {wait : Nanos} {event : ε} (waited : waits event wait) :
    timers.Arms waits (timers.arm wait event).2 := by
  intro handle new below
  have same : handle = timers.next := by
    have equal := Nat.le_antisymm (Nat.le_of_lt_succ below) new
    cases handle
    exact congrArg Handle.mk equal
  exact ⟨wait, event, waited, by rw [armed?_arm, if_pos same]⟩

/-- In the first half of the range all waits fit that are no longer than the second half. -/
theorem fits_of_early {event : ε} {wait : Nanos} (early : timers.elapsed < Nanos.ofSeconds (2 ^ 63))
    (short : wait ≤ Nanos.ofSeconds (2 ^ 63)) : timers.Fits event wait := by
  have below := Nat.add_lt_add_of_lt_of_le early short
  rw [← Nanos.longest_succ] at below
  exact Nat.le_of_lt_succ below

/-- At the end of the first half no other waits do. -/
theorem le_of_fits {event : ε} {wait : Nanos} (half : timers.elapsed + 1 = Nanos.ofSeconds (2 ^ 63))
    (fits : timers.Fits event wait) : wait ≤ Nanos.ofSeconds (2 ^ 63) := by
  have below := Nat.succ_le_succ fits
  rw [Nat.succ_eq_add_one, Nat.succ_eq_add_one, Nanos.longest_succ, Nat.add_right_comm, half] at below
  exact Nat.le_of_add_le_add_left below

/-- Whether the timer of a handle fits is told by how it is armed. -/
theorem Arms.fits (arms : timers.Arms timers.Fits after) (handle : Handle)
    (new : timers.next.number ≤ handle.number) (below : handle.number < after.next.number)
    {wait : Nanos} {event : ε} (armed : after.armed? handle = some (timers.elapsed + wait, event)) :
    timers.Fits event wait := by
  obtain ⟨other, _, fits, same⟩ := arms handle new below
  obtain ⟨equal, -⟩ := Prod.mk.inj (Option.some.inj (same.symm.trans armed))
  rw [Nat.add_left_cancel equal] at fits
  exact fits

theorem fits_of_arms_both {first second : Nanos} {event other : ε}
    (arms : timers.Arms timers.Fits ((timers.arm first event).2.arm second other).2) :
    timers.Fits event first ∧ timers.Fits other second := by
  have apart : timers.next ≠ (timers.arm first event).2.next :=
    fun same => Nat.ne_of_lt (Nat.lt_succ_self _) (congrArg Handle.number same)
  constructor
  · apply arms.fits timers.next (Nat.le_refl _) (Nat.lt_succ_of_lt (Nat.lt_succ_self _))
    rw [armed?_arm, if_neg apart, armed?_arm, if_pos rfl]
  · apply arms.fits (timers.arm first event).2.next (Nat.le_succ _) (Nat.lt_succ_self _)
    rw [armed?_arm, if_pos rfl, elapsed_arm]

theorem inRange_iff : timers.inRange = true ↔ ∀ slot ∈ timers.queue, slot.deadline ≤ Nanos.longest := by
  cases last : timers.queue.maxKey? with
  | none => simp [inRange, Std.ExtTreeMap.maxKey?_eq_none_iff.mp last]
  | some slot =>
    obtain ⟨member, greatest⟩ := Std.ExtTreeMap.maxKey?_eq_some_iff_mem_and_forall.mp last
    simp only [inRange, last, Option.all_some, decide_eq_true_eq]
    exact ⟨fun fits other queued => Nat.le_trans (Slot.deadline_le (greatest other queued)) fits,
      fun all => all slot member⟩

theorem Sound.inRange_iff (sound : timers.Sound) : timers.inRange = true ↔
    ∀ handle deadline event, timers.armed? handle = some (deadline, event) → deadline ≤ Nanos.longest := by
  rw [Timers.inRange_iff]
  constructor
  · intro fits handle deadline event armed
    have queued : timers.queue[(⟨deadline, handle⟩ : Slot)]? = some event := sound.queued_iff.mpr armed
    exact fits ⟨deadline, handle⟩ (Std.ExtTreeMap.mem_iff_isSome_getElem?.mpr (Option.isSome_of_eq_some queued))
  · intro fits slot member
    obtain ⟨event, queued⟩ := Option.isSome_iff_exists.mp (Std.ExtTreeMap.mem_iff_isSome_getElem?.mp member)
    exact fits slot.handle slot.deadline event (sound.queued_iff.mp queued)

/-- A service stays in range when all that is armed anew fits. -/
theorem Arms.inRange (arms : timers.Arms timers.Fits after) (sound : timers.Sound) (later : after.Sound)
    (inRange : timers.inRange = true)
    (armed : ∀ handle entry, after.armed? handle = some entry →
      timers.armed? handle = some entry ∨ timers.next.number ≤ handle.number) : after.inRange = true := by
  refine later.inRange_iff.mpr fun handle deadline event present => ?_
  rcases armed handle _ present with before | new
  · exact sound.inRange_iff.mp inRange handle deadline event before
  · obtain ⟨wait, other, fits, same⟩ := arms handle new (later.handedOut_of_armed present)
    obtain ⟨rfl, -⟩ := Prod.mk.inj (Option.some.inj (present.symm.trans same))
    exact fits

end Timers

end Overhear
