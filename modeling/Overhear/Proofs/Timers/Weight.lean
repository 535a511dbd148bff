import Overhear.Proofs.Roster
import Overhear.Proofs.Timers.Moves

/-! What the timers of a service weigh together, each by its place and event. A timer that is taken out
takes its own weight away, and one that is armed adds no more than its own. -/
namespace Overhear

namespace Timers

variable {ε : Type} (weigh : Slot → ε → Nat)

/-- The weights of a queue of timers, added up. -/
def queueWeight (queue : Std.ExtTreeMap Slot ε) : Nat :=
  queue.toList.foldr (fun entry others => weigh entry.1 entry.2 + others) 0

/-- What the timers of a service weigh. -/
def weight (timers : Timers ε) : Nat := queueWeight weigh timers.queue

theorem nodup_toList (queue : Std.ExtTreeMap Slot ε) : queue.toList.Nodup := by
  refine queue.ordered_keys_toList.imp ?_
  intro first second before same
  subst same
  rw [Std.compare_self] at before
  cases before

/-- A queue is one of its timers and the others. -/
theorem queueWeight_of_queued {queue : Std.ExtTreeMap Slot ε} {slot : Slot} {event : ε}
    (queued : queue[slot]? = some event) :
    queueWeight weigh queue = weigh slot event + queueWeight weigh (queue.erase slot) := by
  have removed : (slot, event) ∉ (queue.erase slot).toList := by
    simp [Std.ExtTreeMap.mem_toList_iff_getElem?_eq_some]
  have parts : List.Perm queue.toList ((slot, event) :: (queue.erase slot).toList) := by
    refine (List.perm_ext_iff_of_nodup (nodup_toList queue)
      (List.nodup_cons.mpr ⟨removed, nodup_toList _⟩)).mpr ?_
    rintro ⟨other, found⟩
    simp only [List.mem_cons, Prod.mk.injEq, Std.ExtTreeMap.mem_toList_iff_getElem?_eq_some,
      Std.ExtTreeMap.getElem?_erase, Std.compare_eq_iff_eq]
    by_cases same : slot = other
    · subst same
      simp [queued, eq_comm]
    · simp [same, Ne.symm same]
  refine (parts.foldr_eq' ?_ 0).trans rfl
  intro first _ second _ others
  exact Nat.add_left_comm _ _ others

theorem queueWeight_erase_le (queue : Std.ExtTreeMap Slot ε) (slot : Slot) :
    queueWeight weigh (queue.erase slot) ≤ queueWeight weigh queue := by
  cases queued : queue[slot]? with
  | some event =>
    rw [queueWeight_of_queued weigh queued]
    exact Nat.le_add_left _ _
  | none =>
    have absent : queue.erase slot = queue := by
      apply Std.ExtTreeMap.ext_getElem?
      intro other
      rw [Std.ExtTreeMap.getElem?_erase]
      split
      · rename_i same
        rw [← Std.compare_eq_iff_eq.mp same, queued]
      · rfl
    exact Nat.le_of_eq (congrArg _ absent)

theorem queueWeight_insert_le (queue : Std.ExtTreeMap Slot ε) (slot : Slot) (event : ε) :
    queueWeight weigh (queue.insert slot event) ≤ weigh slot event + queueWeight weigh queue := by
  have others : (queue.insert slot event).erase slot = queue.erase slot := by
    apply Std.ExtTreeMap.ext_getElem?
    intro other
    simp only [Std.ExtTreeMap.getElem?_erase, Std.ExtTreeMap.getElem?_insert]
    split <;> rfl
  rw [queueWeight_of_queued weigh Std.ExtTreeMap.getElem?_insert_self, others]
  exact Nat.add_le_add_left (queueWeight_erase_le weigh queue slot) _

theorem weight_arm_le (timers : Timers ε) (delay : Nanos) (event : ε) :
    weight weigh (timers.arm delay event).2 ≤
      weigh ⟨timers.elapsed + delay, timers.next⟩ event + weight weigh timers :=
  queueWeight_insert_le weigh timers.queue _ event

theorem weight_cancel_le (timers : Timers ε) (handle : Handle) :
    weight weigh (timers.cancel handle) ≤ weight weigh timers := by
  unfold cancel
  split
  · exact Nat.le_refl _
  · exact queueWeight_erase_le weigh timers.queue _

theorem weight_cancelAll_le (timers : Timers ε) (handles : List Handle) :
    weight weigh (timers.cancelAll handles) ≤ weight weigh timers := by
  unfold cancelAll
  induction handles generalizing timers with
  | nil => exact Nat.le_refl _
  | cons handle rest ih => exact Nat.le_trans (ih (timers.cancel handle)) (weight_cancel_le weigh _ _)

/-- A timer that fires takes its weight out of the service. -/
theorem weight_popDue {timers rest : Timers ε} {limit : Nanos} {firing : Firing ε}
    (popped : timers.popDue limit = some (firing, rest)) :
    ∃ deadline, deadline ≤ limit ∧ rest.elapsed = max timers.elapsed deadline ∧
      weight weigh timers = weigh ⟨deadline, firing.handle⟩ firing.event + weight weigh rest := by
  obtain ⟨slot, -, due, queued, sameHandle, rfl⟩ := popDue_eq_some popped
  refine ⟨slot.deadline, due, rfl, ?_⟩
  rw [sameHandle]
  exact queueWeight_of_queued weigh queued

end Timers

/-- Changes do not add weight when nothing that they may arm weighs anything. -/
theorem Roster.Changes.weight_le {scope : Event → Prop} {roster after : Roster}
    (changes : Changes scope roster after) {weigh : Slot → Event → Nat}
    (light : ∀ slot event, scope event → weigh slot event = 0) :
    after.timers.weight weigh ≤ roster.timers.weight weigh := by
  induction changes with
  | refl => exact Nat.le_refl _
  | @engage middle after event delay _ inScope _ timers _ ih =>
    have added := Timers.weight_arm_le weigh middle.timers delay event
    rw [light _ event inScope, Nat.zero_add] at added
    rw [timers]
    exact Nat.le_trans added ih
  | @release middle after _ handles _ _ _ timers _ _ ih =>
    rw [timers]
    exact Nat.le_trans (Timers.weight_cancelAll_le weigh middle.timers handles) ih

end Overhear
