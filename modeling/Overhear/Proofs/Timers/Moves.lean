import Overhear.Proofs.Timers

/-! The moves of a host's clock. What fires is always the first timer in the queue, and a jump ahead fires
all that came due on the way. -/
namespace Overhear

theorem Slot.compare_lt_iff {first second : Slot} :
    compare first second = .lt ↔ first.deadline < second.deadline ∨
      first.deadline = second.deadline ∧ first.handle.number < second.handle.number := by
  rw [Slot.compare_eq, Ordering.then_eq_lt, Nat.compare_eq_lt, Nat.compare_eq_eq]
  exact or_congr_right (and_congr_right fun _ => Nat.compare_eq_lt)

namespace Timers

variable {ε : Type} {timers rest : Timers ε} {limit : Nanos} {firing : Firing ε}

/-- The ways in which a host moves time and takes out timers. -/
inductive Move where
  | popDue (limit : Nanos)
  | fireNext
  | advance (step : Nanos)
  | advanceTo (target : Nanos)

/-- What a pop took out, and the service it left. -/
def popped (timers : Timers ε) : Option (Firing ε × Timers ε) → List (Firing ε) × Timers ε
  | none => ([], timers)
  | some (firing, rest) => ([firing], rest)

def move (timers : Timers ε) : Move → List (Firing ε) × Timers ε
  | .popDue limit => timers.popped (timers.popDue limit)
  | .fireNext => timers.popped timers.fireNext
  | .advance step => timers.advance step
  | .advanceTo target => ([], timers.advanceTo target)

theorem Sound.popped (sound : timers.Sound) {result : Option (Firing ε × Timers ε)}
    (fired : ∀ firing rest, result = some (firing, rest) → timers.Fired [firing] rest) :
    timers.Fired (timers.popped result).1 (timers.popped result).2 := by
  cases result with
  | none => exact .refl sound
  | some one => exact fired one.1 one.2 rfl

theorem Sound.move (sound : timers.Sound) (move : Move) :
    timers.Fired (timers.move move).1 (timers.move move).2 := by
  cases move with
  | popDue limit => exact sound.popped fun _ _ => sound.popDue
  | fireNext => exact sound.popped fun _ _ => sound.fireNext
  | advance step => exact sound.advance step
  | advanceTo target => exact sound.advanceTo target

theorem elapsed_le_popDue (popped : timers.popDue limit = some (firing, rest)) :
    timers.elapsed ≤ rest.elapsed := by
  obtain ⟨slot, -, -, -, -, rfl⟩ := popDue_eq_some popped
  exact Nat.le_max_left _ _

theorem elapsed_le_popped {result : Option (Firing ε × Timers ε)}
    (later : ∀ firing rest, result = some (firing, rest) → timers.elapsed ≤ rest.elapsed) :
    timers.elapsed ≤ (timers.popped result).2.elapsed := by
  cases result with
  | none => exact Nat.le_refl _
  | some one => exact later one.1 one.2 rfl

/-- The clock never goes back. -/
theorem elapsed_le_move (timers : Timers ε) (move : Move) :
    timers.elapsed ≤ (timers.move move).2.elapsed := by
  cases move with
  | popDue limit => exact elapsed_le_popped fun _ _ => elapsed_le_popDue
  | fireNext =>
    apply elapsed_le_popped
    intro firing rest popped
    obtain ⟨limit, -, popped⟩ := Option.bind_eq_some_iff.mp popped
    exact elapsed_le_popDue popped
  | advance step => exact Nat.le_trans (Nat.le_add_right _ step) (Nat.le_max_right _ _)
  | advanceTo target => exact Nat.le_max_left _ _

/-- The first slot stands in the queue, before all others. -/
theorem firstSlot?_eq_some {slot : Slot} (first : timers.firstSlot? = some slot) :
    slot ∈ timers.queue ∧ ∀ other ∈ timers.queue, other ≠ slot → compare slot other = .lt := by
  obtain ⟨others, keys⟩ := List.head?_eq_some_iff.mp first
  have ordered := Std.ExtTreeMap.ordered_keys (t := timers.queue)
  rw [keys] at ordered
  constructor
  · rw [← Std.ExtTreeMap.mem_keys, keys]
    exact .head _
  · intro other member different
    rw [← Std.ExtTreeMap.mem_keys, keys] at member
    rcases List.mem_cons.mp member with same | later
    · exact absurd same different
    · exact (List.pairwise_cons.mp ordered).1 other later

theorem firstSlot?_eq_none (empty : timers.firstSlot? = none) (slot : Slot) : slot ∉ timers.queue := by
  rw [← Std.ExtTreeMap.mem_keys, List.head?_eq_none_iff.mp empty]
  exact List.not_mem_nil

/-- Nothing pops when nothing in the queue is due. -/
theorem popDue_eq_none_iff :
    timers.popDue limit = none ↔ ∀ slot ∈ timers.queue, limit < slot.deadline := by
  cases first : timers.firstSlot? with
  | none =>
    have empty := firstSlot?_eq_none first
    simp only [popDue, first, Option.bind_eq_bind, Option.bind_none, true_iff]
    exact fun slot member => absurd member (empty slot)
  | some slot =>
    obtain ⟨member, least⟩ := firstSlot?_eq_some first
    obtain ⟨event, queued⟩ := Option.isSome_iff_exists.mp
      (Std.ExtTreeMap.mem_iff_isSome_getElem?.mp member)
    simp only [popDue, first, queued, Option.bind_eq_bind, Option.bind_some, ite_eq_right_iff,
      reduceCtorEq, imp_false, Nat.not_le]
    constructor
    · intro late other otherMember
      by_cases same : other = slot
      · exact same ▸ late
      · rcases Slot.compare_lt_iff.mp (least other otherMember same) with below | ⟨level, -⟩
        · exact Nat.lt_trans late below
        · exact level ▸ late
    · exact fun late => late slot member

theorem size_queue_popDue (popped : timers.popDue limit = some (firing, rest)) :
    rest.queue.size + 1 = timers.queue.size := by
  obtain ⟨slot, first, -, -, -, rfl⟩ := popDue_eq_some popped
  have member := Std.ExtTreeMap.contains_iff_mem.mpr (firstSlot?_eq_some first).1
  have some : timers.queue.size ≠ 0 := fun none => by
    rw [Std.ExtTreeMap.eq_empty_iff_size_eq_zero.mpr none, Std.ExtTreeMap.contains_empty] at member
    cases member
  rw [Std.ExtTreeMap.size_erase, if_pos member]
  exact Nat.succ_pred_eq_of_ne_zero some

/-- A drain of as many pops as there are timers leaves none that is due. -/
theorem popDue_popUpTo (limit : Nanos) (count : Nat) (enough : timers.queue.size ≤ count) :
    (popUpTo limit count timers).2.popDue limit = none := by
  induction count generalizing timers with
  | zero =>
    have empty : timers.queue = ∅ := Std.ExtTreeMap.eq_empty_iff_size_eq_zero.mpr (Nat.le_zero.mp enough)
    rw [popUpTo, popDue_eq_none_iff, empty]
    exact fun slot member => absurd member Std.ExtTreeMap.not_mem_empty
  | succ count ih =>
    unfold popUpTo
    split
    · assumption
    · rename_i firing rest popped
      have fewer := size_queue_popDue popped
      exact ih (by omega)

theorem popDue_of_empty (empty : timers.queue = ∅) (limit : Nanos) : timers.popDue limit = none := by
  rw [popDue_eq_none_iff, empty]
  exact fun slot member => absurd member Std.ExtTreeMap.not_mem_empty

theorem fireNext_of_empty (empty : timers.queue = ∅) : timers.fireNext = none := by
  have unslotted : timers.firstSlot? = none := by simp [firstSlot?, empty]
  simp [fireNext, nextDeadline?, unslotted]

theorem advance_of_empty (empty : timers.queue = ∅) (step : Nanos) :
    timers.advance step = ([], timers.advanceTo (timers.elapsed + step)) := by
  have size : timers.queue.size = 0 := by simp [empty]
  simp only [advance, popAllDue, size, popUpTo]

end Timers

end Overhear
