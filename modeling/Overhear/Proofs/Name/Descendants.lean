import Overhear.Proofs.Name.Bytes
import Overhear.Proofs.Name.Order

/-! The names under a name in a sorted list. They are one run of it, which starts right after the place of the
name, whether the name is in the list itself or not. -/
namespace Overhear.Name

variable {above between below name : Name} {sorted : List Name}

theorem isLE_of_covers (covered : above.covers below = true) : (compare above below).isLE = true := by
  rcases covers_iff_eq_or_strictlyCovers.mp covered with rfl | under
  · exact Std.ReflCmp.isLE_rfl
  · rw [compare_of_strictlyCovers under]
    rfl

/-- What stands from a name up to one that it covers is covered as well. -/
theorem covers_of_between (after : (compare above between).isLE = true)
    (before : (compare between below).isLE = true) (covered : above.covers below = true) :
    above.covers between = true := by
  obtain ⟨rest, split⟩ := covers_iff.mp covered
  have before : (compare between.components below.components).isLE = true := before
  rw [← split] at before
  exact covers_iff.mpr (prefix_of_between above.components between.components rest
    (Ordering.isLE_iff_ne_gt.mp after) (Ordering.isLE_iff_ne_gt.mp before))

/-- How the names under a name stand in a sorted list: right after its place, in one run that cannot be made
longer, and nowhere else. -/
structure RunsUnder (sorted : List Name) (name : Name) (before run rest : List Name) : Prop where
  split : sorted = before ++ (run ++ rest)
  before : ∀ other ∈ before, (compare other name).isLE = true
  after : ∀ other ∈ run ++ rest, compare name other = .lt
  under : ∀ other ∈ run, name.strictlyCovers other = true
  ends : ∀ other ∈ rest.head?, name.strictlyCovers other = false
  whole : ∀ other ∈ sorted, name.strictlyCovers other = true ↔ other ∈ run

theorem lt_of_mem_dropWhile (order : sorted.Pairwise fun a b => compare a b = .lt) (name : Name) :
    ∀ other ∈ sorted.dropWhile fun other => compare name other != .lt, compare name other = .lt := by
  induction sorted with
  | nil => simp
  | cons first rest ih =>
    obtain ⟨next, order⟩ := List.pairwise_cons.mp order
    by_cases after : compare name first = .lt
    · rw [List.dropWhile_cons_of_neg (by simp [after])]
      intro other member
      rcases List.mem_cons.mp member with rfl | later
      · exact after
      · exact Std.TransCmp.lt_trans after (next other later)
    · rw [List.dropWhile_cons_of_pos (by simpa using after)]
      exact ih order

/-- A scan from the place of a name finds the run of the names under it. -/
theorem runsUnder_descendantsIn (order : sorted.Pairwise fun a b => compare a b = .lt) (name : Name) :
    ∃ before rest, RunsUnder sorted name before (descendantsIn sorted name) rest := by
  let place (other : Name) : Bool := compare name other != .lt
  refine ⟨sorted.takeWhile place, (sorted.dropWhile place).dropWhile name.strictlyCovers, ?_⟩
  have run : descendantsIn sorted name ++ (sorted.dropWhile place).dropWhile name.strictlyCovers =
      sorted.dropWhile place := List.takeWhile_append_dropWhile
  constructor
  · rw [run, List.takeWhile_append_dropWhile]
  · intro other member
    have earlier : compare name other ≠ .lt := by simpa [place] using List.mem_takeWhile_imp member
    exact Ordering.isLE_iff_ne_gt.mpr (mt Std.OrientedCmp.lt_of_gt earlier)
  · rw [run]
    exact lt_of_mem_dropWhile order name
  · exact fun other member => List.mem_takeWhile_imp member
  · intro other first
    have stop := List.head?_dropWhile_not name.strictlyCovers (sorted.dropWhile place)
    rw [Option.mem_def.mp first] at stop
    simpa using stop
  · intro other member
    rw [descendantsIn_eq_filter order, List.mem_filter, and_iff_right member]

theorem hasDescendantIn_iff_next? : hasDescendantIn sorted name = true ↔
    ∃ next ∈ next? sorted name, name.strictlyCovers next = true := by
  simp [hasDescendantIn, Option.any_eq_true]

/-- Names are ordered component by component and components by their bytes, and in this order a name is
followed directly by all that lies under it: it comes before what it covers, and it covers what stands
between. In a sorted list the names under a name are therefore the longest run after its place, and there
is one exactly when the first name after its place is. -/
theorem descendants_follow_directly :
    (∀ first second : Name, compare first second = .lt ↔ first.bytes < second.bytes) ∧
    (∀ above below : Name, above.covers below = true → (compare above below).isLE = true) ∧
    (∀ above between below : Name, (compare above between).isLE = true →
      (compare between below).isLE = true → above.covers below = true → above.covers between = true) ∧
    ∀ (sorted : List Name) (name : Name), sorted.Pairwise (fun a b => compare a b = .lt) →
      (∃ before rest, RunsUnder sorted name before (descendantsIn sorted name) rest) ∧
      ((∃ other ∈ sorted, name.strictlyCovers other = true) ↔
        ∃ next ∈ next? sorted name, name.strictlyCovers next = true) ∧
      (hasDescendantIn sorted name = true ↔ ∃ other ∈ sorted, name.strictlyCovers other = true) := by
  refine ⟨fun _ _ => compare_eq_lt_iff, fun _ _ => isLE_of_covers, fun _ _ _ => covers_of_between,
    fun sorted name order => ⟨runsUnder_descendantsIn order name, ?_, hasDescendantIn_iff order name⟩⟩
  rw [← hasDescendantIn_iff order name, hasDescendantIn_iff_next?]

/-- The name itself may be missing, and a name whose text comes in between stands after the run. -/
theorem descendants_follow_directly_around :
    let name : Name := ⟨["a"]⟩
    let sorted : List Name := [⟨["a", "b"]⟩, ⟨["a", "b", "c"]⟩, ⟨["a!"]⟩, ⟨["a0", "b"]⟩]
    sorted.Pairwise (fun a b => compare a b = .lt) ∧
      (compare name ⟨["a", "b", "c"]⟩).isLE = true ∧
      name.covers ⟨["a", "b"]⟩ = true ∧
      (∃ before rest, RunsUnder sorted name before [⟨["a", "b"]⟩, ⟨["a", "b", "c"]⟩] rest) ∧
      hasDescendantIn sorted name = true := by
  intro name sorted
  obtain ⟨-, first, between, runs⟩ := descendants_follow_directly
  have order : sorted.Pairwise (fun a b => compare a b = .lt) := by decide
  have least := first name ⟨["a", "b", "c"]⟩ (by decide)
  have run : descendantsIn sorted name = [⟨["a", "b"]⟩, ⟨["a", "b", "c"]⟩] := by decide
  obtain ⟨follows, -, exists_iff⟩ := runs sorted name order
  exact ⟨order, least, between name ⟨["a", "b"]⟩ ⟨["a", "b", "c"]⟩ (by decide) (by decide) (by decide),
    run ▸ follows, exists_iff.mpr ⟨⟨["a", "b"]⟩, .head _, by decide⟩⟩

end Overhear.Name
