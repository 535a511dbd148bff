import Mathlib.Logic.Relation
import Overhear.Proofs.Destinations.Insertion

/-! Walks toward the root of the forest of destinations. The entries on a walk are different ones, so a
walk of as many steps as there are entries sees all that is above an entry. -/
namespace Overhear.Destinations

variable {index : Destinations} {id above : Nat}

/-- `parent` is the parent of `child`. -/
def HangsUnder (index : Destinations) (child parent : Nat) : Prop := index.parent? child = some parent

/-- The entry so many links above an entry. -/
def climb? (index : Destinations) : Nat → Nat → Option Nat
  | 0, id => some id
  | steps + 1, id => index.parent? id >>= index.climb? steps

theorem climb?_succ_eq_some {steps : Nat} :
    index.climb? (steps + 1) id = some above ↔
      ∃ parent, index.HangsUnder id parent ∧ index.climb? steps parent = some above :=
  Option.bind_eq_some_iff

/-- What is at or above an entry is what some number of steps leads to. -/
theorem climb?_reaches : (∃ steps, index.climb? steps id = some above) ↔
    Relation.ReflTransGen index.HangsUnder id above := by
  constructor
  · rintro ⟨steps, reached⟩
    induction steps generalizing id with
    | zero =>
      cases reached
      exact .refl
    | succ steps ih =>
      obtain ⟨parent, up, rest⟩ := climb?_succ_eq_some.mp reached
      exact .head up (ih rest)
  · intro path
    induction path using Relation.ReflTransGen.head_induction_on with
    | refl => exact ⟨0, rfl⟩
    | head up _ ih =>
      obtain ⟨steps, reached⟩ := ih
      exact ⟨steps + 1, climb?_succ_eq_some.mpr ⟨_, up, reached⟩⟩

theorem walkMeets_iff (steps : Nat) (start : Nat) :
    index.walkMeets id steps (some start) = true ↔
      ∃ count < steps, index.climb? count start = some id := by
  induction steps generalizing start with
  | zero => simp [walkMeets]
  | succ steps ih =>
    rw [walkMeets, Bool.or_eq_true, beq_iff_eq]
    constructor
    · rintro (rfl | later)
      · exact ⟨0, Nat.succ_pos steps, rfl⟩
      · cases up : index.parent? start with
        | none => cases steps <;> simp [up, walkMeets] at later
        | some parent =>
          rw [up] at later
          obtain ⟨count, less, reached⟩ := (ih parent).mp later
          exact ⟨count + 1, Nat.succ_lt_succ less, climb?_succ_eq_some.mpr ⟨parent, up, reached⟩⟩
    · rintro ⟨count, less, reached⟩
      cases count with
      | zero => exact .inl (Option.some.inj reached)
      | succ count =>
        obtain ⟨parent, up, rest⟩ := climb?_succ_eq_some.mp reached
        have up : index.parent? start = some parent := up
        rw [up]
        exact .inr ((ih parent).mpr ⟨count, Nat.lt_of_succ_lt_succ less, rest⟩)

theorem lt_size_iff : id < index.size ↔ ∃ entry, index.entry? id = some entry :=
  ⟨fun present => ⟨_, Array.getElem?_eq_getElem present⟩,
    fun ⟨_, found⟩ => (Array.getElem?_eq_some_iff.mp found).1⟩

/-- A parent is an entry too. -/
theorem Linked.lt_size (linked : index.Linked) (up : index.HangsUnder id above) : above < index.size :=
  lt_size_iff.mpr (linked.exists_parent up)

/-- A walk visits different entries, which all exist, and none of a higher rank than the first. -/
theorem climb?_path {rank : Nat → Nat} (linked : index.Linked)
    (falls : ∀ child parent, index.parent? child = some parent → rank parent < rank child)
    (steps : Nat) (present : id < index.size) (reached : index.climb? steps id = some above) :
    ∃ visited : List Nat, visited.length = steps + 1 ∧ visited.Nodup ∧
      ∀ other ∈ visited, other < index.size ∧ rank other ≤ rank id := by
  induction steps generalizing id with
  | zero => exact ⟨[id], rfl, List.nodup_singleton id, by simp [present]⟩
  | succ steps ih =>
    obtain ⟨parent, up, rest⟩ := climb?_succ_eq_some.mp reached
    have lower := falls id parent up
    obtain ⟨visited, length, distinct, inside⟩ := ih (linked.lt_size up) rest
    have fresh : id ∉ visited := fun member => by
      have bound := (inside id member).2
      omega
    refine ⟨id :: visited, by simp [length], List.nodup_cons.mpr ⟨fresh, distinct⟩, ?_⟩
    intro other member
    rcases List.mem_cons.mp member with rfl | later
    · exact ⟨present, Nat.le_refl _⟩
    · obtain ⟨exists_other, bound⟩ := inside other later
      exact ⟨exists_other, by omega⟩

/-- A walk has fewer steps than there are entries. -/
theorem Sound.climb?_lt_size (sound : index.Sound) {steps : Nat} (present : id < index.size)
    (reached : index.climb? steps id = some above) : steps < index.size := by
  obtain ⟨rank, falls⟩ := sound.acyclic
  obtain ⟨visited, length, distinct, inside⟩ := climb?_path sound.linked falls steps present reached
  have bound : visited.length ≤ (List.range index.size).length :=
    distinct.length_le_of_subset fun other member => List.mem_range.mpr (inside other member).1
  rw [length, List.length_range] at bound
  exact bound

/-- Every walk from an entry passes a root and ends there. -/
theorem Sound.climb?_size (sound : index.Sound) (present : id < index.size) :
    index.climb? index.size id = none := by
  apply Option.eq_none_iff_forall_ne_some.mpr
  intro above reached
  exact Nat.lt_irrefl _ (sound.climb?_lt_size present reached)

/-- The bounded search of an attachment meets all that is at or above an entry. -/
theorem Sound.isAtOrAbove_iff (sound : index.Sound) {start : Nat} (present : start < index.size) :
    index.isAtOrAbove id start = true ↔ Relation.ReflTransGen index.HangsUnder start id := by
  rw [isAtOrAbove, walkMeets_iff, ← climb?_reaches]
  constructor
  · rintro ⟨steps, -, reached⟩
    exact ⟨steps, reached⟩
  · rintro ⟨steps, reached⟩
    exact ⟨steps, sound.climb?_lt_size present reached, reached⟩

/-- No entry is above itself. -/
theorem Sound.not_above_self (sound : index.Sound) (id : Nat) :
    ¬ Relation.TransGen index.HangsUnder id id := by
  obtain ⟨rank, falls⟩ := sound.acyclic
  have lower : ∀ above, Relation.TransGen index.HangsUnder id above → rank above < rank id := by
    intro above path
    induction path with
    | single up => exact falls _ _ up
    | tail _ up ih => exact Nat.lt_trans (falls _ _ up) ih
  intro loop
  exact Nat.lt_irrefl _ (lower id loop)

end Overhear.Destinations
