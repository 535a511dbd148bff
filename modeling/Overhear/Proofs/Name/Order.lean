import Mathlib.Data.List.TakeWhile
import Overhear.Name

/-! Names above and below each other. In the order of names all that lies under a name directly follows
it, and the names above a name are nested. -/
namespace Overhear.Name

variable {above name below : Name}

theorem covers_iff : above.covers below = true ↔ above.components <+: below.components :=
  List.isPrefixOf_iff_prefix

theorem covers_self (name : Name) : name.covers name = true := covers_iff.mpr List.prefix_rfl

theorem covers_trans (first : above.covers name = true) (second : name.covers below = true) :
    above.covers below = true :=
  covers_iff.mpr ((covers_iff.mp first).trans (covers_iff.mp second))

/-- Of two names at or above one name, the shorter is at or above the longer. -/
theorem covers_of_length_le {other : Name} (first : above.covers below = true) (second : other.covers below = true)
    (shorter : above.length ≤ other.length) : above.covers other = true :=
  covers_iff.mpr (List.prefix_of_prefix_length_le (covers_iff.mp first) (covers_iff.mp second) shorter)

theorem strictlyCovers_iff :
    above.strictlyCovers below = true ↔
      above.components <+: below.components ∧ above.length < below.length := by
  simp only [strictlyCovers, Bool.and_eq_true, decide_eq_true_eq, covers_iff, and_comm]

theorem strictlyCovers_trans (first : above.strictlyCovers name = true)
    (second : name.strictlyCovers below = true) : above.strictlyCovers below = true := by
  rw [strictlyCovers_iff] at *
  exact ⟨first.1.trans second.1, Nat.lt_trans first.2 second.2⟩

theorem not_strictlyCovers_self (name : Name) : name.strictlyCovers name = false := by
  simp [strictlyCovers]

/-- Of two names above the same one the longer lies under the other. -/
theorem strictlyCovers_of_length (first : above.strictlyCovers below = true)
    (second : name.strictlyCovers below = true) (shorter : above.length < name.length) :
    above.strictlyCovers name = true := by
  rw [strictlyCovers_iff] at *
  exact ⟨List.prefix_of_prefix_length_le first.1 second.1 (Nat.le_of_lt shorter), shorter⟩

private theorem compare_append (components rest : List String) (more : rest ≠ []) :
    compare components (components ++ rest) = .lt := by
  induction components with
  | nil =>
    obtain ⟨head, tail, rfl⟩ := List.exists_cons_of_ne_nil more
    rfl
  | cons head tail ih =>
    rw [List.cons_append, List.compare_cons_cons, Std.ReflOrd.compare_self]
    exact ih

theorem compare_of_strictlyCovers (under : above.strictlyCovers below = true) :
    compare above below = .lt := by
  obtain ⟨⟨rest, split⟩, shorter⟩ := strictlyCovers_iff.mp under
  have more : rest ≠ [] := by
    intro same
    subst same
    simp [length, ← split] at shorter
  show compare above.components below.components = .lt
  rw [← split]
  exact compare_append above.components rest more

/-- A list between another one and its extension starts with that other one. -/
theorem prefix_of_between : ∀ (components between rest : List String),
    compare components between ≠ .gt → compare between (components ++ rest) ≠ .gt →
    components <+: between
  | [], between, rest, _, _ => List.nil_prefix
  | head :: tail, [], rest, low, _ => absurd List.compare_cons_nil low
  | head :: tail, first :: others, rest, low, high => by
    rw [List.compare_cons_cons] at low
    rw [List.cons_append, List.compare_cons_cons] at high
    cases order : compare head first with
    | lt =>
      rw [Std.OrientedCmp.gt_of_lt order] at high
      exact absurd rfl high
    | gt =>
      rw [order] at low
      exact absurd rfl low
    | eq =>
      have same : head = first := Std.LawfulEqOrd.eq_of_compare order
      subst same
      rw [order] at low high
      exact List.cons_prefix_cons.mpr ⟨rfl, prefix_of_between tail others rest low high⟩

/-- What stands between a name and one under it lies under it as well. -/
theorem strictlyCovers_of_between {between : Name} (under : above.strictlyCovers below = true)
    (after : compare above between = .lt) (before : compare between below = .lt) :
    above.strictlyCovers between = true := by
  obtain ⟨⟨rest, split⟩, -⟩ := strictlyCovers_iff.mp under
  have before : compare between.components below.components = .lt := before
  have after : compare above.components between.components = .lt := after
  have start := prefix_of_between above.components between.components rest
    (by simp [after]) (by simp [split, before])
  refine strictlyCovers_iff.mpr ⟨start, ?_⟩
  refine Nat.lt_of_le_of_ne start.length_le fun same => ?_
  rw [start.eq_of_length same, Std.ReflOrd.compare_self] at after
  cases after

/-- In a list that is sorted by name and starts after `name`, what lies under it comes first. -/
private theorem takeWhile_strictlyCovers {sorted : List Name}
    (order : sorted.Pairwise fun a b => compare a b = .lt)
    (after : ∀ other ∈ sorted, compare name other = .lt) :
    sorted.takeWhile name.strictlyCovers = sorted.filter name.strictlyCovers := by
  induction sorted with
  | nil => rfl
  | cons first rest ih =>
    obtain ⟨next, order⟩ := List.pairwise_cons.mp order
    cases under : name.strictlyCovers first with
    | true =>
      rw [List.takeWhile_cons_of_pos under, List.filter_cons_of_pos under,
        ih order fun other member => after other (.tail _ member)]
    | false =>
      rw [List.takeWhile_cons_of_neg (by simp [under]), List.filter_cons_of_neg (by simp [under])]
      refine (List.filter_eq_nil_iff.mpr fun other member otherUnder => ?_).symm
      have between := strictlyCovers_of_between otherUnder (after first (.head _)) (next other member)
      simp [under] at between

/-- The run after a name in a sorted list holds exactly the names under it. -/
theorem descendantsIn_eq_filter {sorted : List Name}
    (order : sorted.Pairwise fun a b => compare a b = .lt) (name : Name) :
    descendantsIn sorted name = sorted.filter name.strictlyCovers := by
  unfold descendantsIn
  induction sorted with
  | nil => rfl
  | cons first rest ih =>
    obtain ⟨next, rest_order⟩ := List.pairwise_cons.mp order
    by_cases after : compare name first = .lt
    · rw [List.dropWhile_cons_of_neg (by simp [after])]
      refine takeWhile_strictlyCovers order fun other member => ?_
      rcases List.mem_cons.mp member with rfl | later
      · exact after
      · exact Std.TransCmp.lt_trans after (next other later)
    · have apart : name.strictlyCovers first ≠ true := mt compare_of_strictlyCovers after
      rw [List.dropWhile_cons_of_pos (by simpa using after), List.filter_cons_of_neg apart]
      exact ih rest_order

/-- Looking at the name after it tells whether there are names under a name. -/
theorem hasDescendantIn_iff {sorted : List Name}
    (order : sorted.Pairwise fun a b => compare a b = .lt) (name : Name) :
    hasDescendantIn sorted name = true ↔ ∃ below ∈ sorted, name.strictlyCovers below = true := by
  have run : hasDescendantIn sorted name = true ↔ descendantsIn sorted name ≠ [] := by
    unfold hasDescendantIn next? descendantsIn
    rw [List.find?_eq_head?_dropWhile_not]
    change (((sorted.dropWhile fun other => compare name other != .lt).head?).any _ = true) ↔ _
    cases sorted.dropWhile fun other => compare name other != .lt with
    | nil => simp
    | cons first rest =>
      cases under : name.strictlyCovers first <;> simp [under]
  rw [run, descendantsIn_eq_filter order, ne_eq, List.filter_eq_nil_iff]
  simp

theorem length_take {count : Nat} (within : count ≤ name.length) : (name.take count).length = count := by
  rw [length] at within
  simp [take, length, Nat.min_eq_left within]

theorem properAncestors_eq (name : Name) :
    name.properAncestors = (List.range name.length).reverse.map name.take := by
  simp [properAncestors, ancestors, List.range_succ]

theorem take_of_covers (leading : above.components <+: name.components) :
    name.take above.length = above := by
  obtain ⟨rest, split⟩ := leading
  cases above
  simp [take, length, ← split]

theorem mem_properAncestors : above ∈ name.properAncestors ↔ above.strictlyCovers name = true := by
  simp only [properAncestors_eq, List.mem_map, List.mem_reverse, List.mem_range, strictlyCovers_iff]
  constructor
  · rintro ⟨count, shorter, rfl⟩
    exact ⟨List.take_prefix count _, by rwa [length_take (Nat.le_of_lt shorter)]⟩
  · rintro ⟨leading, shorter⟩
    exact ⟨above.length, shorter, take_of_covers leading⟩

/-- The names above a name are longest first, so those above one of them come after it. -/
theorem properAncestors_split (under : above.strictlyCovers name = true) :
    ∃ longer, name.properAncestors = longer ++ above :: above.properAncestors ∧
      ∀ other ∈ longer, above.strictlyCovers other = true := by
  obtain ⟨leading, shorter⟩ := strictlyCovers_iff.mp under
  obtain ⟨rest, total⟩ := Nat.exists_eq_add_of_lt shorter
  have start : ∀ count, count < above.length → name.take count = above.take count := by
    intro count less
    rw [← take_of_covers leading]
    simp [take, List.take_take, Nat.min_eq_left (Nat.le_of_lt less)]
  have range : List.range name.length =
      List.range above.length ++ above.length :: (List.range rest).map (above.length + 1 + ·) := by
    rw [total, Nat.add_right_comm, List.range_add, List.range_succ, List.append_assoc]
    rfl
  refine ⟨((List.range rest).map (above.length + 1 + ·)).reverse.map name.take, ?_, ?_⟩
  · rw [properAncestors_eq, range, List.reverse_append, List.reverse_cons, List.map_append,
      List.map_append, List.append_assoc, List.map_singleton, take_of_covers leading,
      properAncestors_eq, List.singleton_append]
    congr 2
    refine List.map_congr_left fun count member => start count ?_
    simpa using member
  · intro other member
    simp only [List.mem_map, List.mem_reverse, List.mem_range] at member
    obtain ⟨count, ⟨extra, less, rfl⟩, rfl⟩ := member
    have within : above.length + 1 + extra < name.length := by omega
    refine strictlyCovers_of_length under ?_ ?_
    · exact strictlyCovers_iff.mpr ⟨List.take_prefix _ _, by rwa [length_take (Nat.le_of_lt within)]⟩
    · rw [length_take (Nat.le_of_lt within)]
      omega

theorem properAncestors_pairwise (name : Name) :
    name.properAncestors.Pairwise fun a b => b.length < a.length := by
  rw [properAncestors_eq, List.pairwise_map, List.pairwise_reverse]
  refine List.pairwise_lt_range.imp_of_mem fun first second less => ?_
  rw [length_take (Nat.le_of_lt (List.mem_range.mp first)),
    length_take (Nat.le_of_lt (List.mem_range.mp second))]
  exact less

/-- Of the names with a property, `above` is the longest strictly above `name`. -/
structure IsNearest (present : Name → Prop) (name above : Name) : Prop where
  named : present above
  under : above.strictlyCovers name = true
  longest : ∀ other : Name, present other → other.strictlyCovers name = true →
    other.length ≤ above.length

theorem IsNearest.unique {present : Name → Prop} {other : Name} (first : IsNearest present name above)
    (second : IsNearest present name other) : above = other := by
  have same := Nat.le_antisymm (second.longest above first.named first.under)
    (first.longest other second.named second.under)
  rw [← take_of_covers (strictlyCovers_iff.mp first.under).1,
    ← take_of_covers (strictlyCovers_iff.mp second.under).1, same]

/-- A search through names that get shorter ends at the longest of those it can end at. -/
theorem longest_of_findSome? {names : List Name} {find : Name → Option Nat} {id : Nat}
    (order : names.Pairwise fun a b => b.length < a.length) (found : names.findSome? find = some id) :
    ∃ longest ∈ names, find longest = some id ∧ ∀ other ∈ names, (find other).isSome →
      other = longest ∨ other.length < longest.length := by
  obtain ⟨longer, longest, rest, split, here, missing⟩ := List.findSome?_eq_some_iff.mp found
  rw [split] at order
  obtain ⟨-, order, -⟩ := List.pairwise_append.mp order
  refine ⟨longest, by simp [split], here, fun other member known => ?_⟩
  rw [split] at member
  rcases List.mem_append.mp member with before | after
  · simp [missing other before] at known
  · rcases List.mem_cons.mp after with same | later
    · exact .inl same
    · exact .inr ((List.pairwise_cons.mp order).1 other later)

/-- A search through the names above a name ends at the nearest. -/
theorem nearest_of_findSome? {find : Name → Option Nat} {id : Nat}
    (found : name.properAncestors.findSome? find = some id) :
    ∃ above, find above = some id ∧ IsNearest (fun other => (find other).isSome) name above := by
  obtain ⟨above, member, here, longest⟩ := longest_of_findSome? (properAncestors_pairwise name) found
  refine ⟨above, here, by simp [here], mem_properAncestors.mp member, fun other known under => ?_⟩
  rcases longest other (mem_properAncestors.mpr under) known with rfl | shorter
  · exact Nat.le_refl _
  · exact Nat.le_of_lt shorter

theorem ancestors_eq (name : Name) : name.ancestors = name :: name.properAncestors := by
  have whole : name.take name.length = name := take_of_covers List.prefix_rfl
  simp [properAncestors, ancestors, List.range_succ, whole]

theorem covers_iff_eq_or_strictlyCovers :
    above.covers name = true ↔ above = name ∨ above.strictlyCovers name = true := by
  rw [covers_iff, strictlyCovers_iff]
  constructor
  · intro leading
    rcases Nat.lt_or_eq_of_le leading.length_le with shorter | same
    · exact .inr ⟨leading, shorter⟩
    · refine .inl ?_
      cases above
      cases name
      exact congrArg Name.mk (leading.eq_of_length same)
  · rintro (rfl | ⟨leading, -⟩)
    · exact List.prefix_rfl
    · exact leading

theorem mem_ancestors : above ∈ name.ancestors ↔ above.covers name = true := by
  rw [ancestors_eq, List.mem_cons, mem_properAncestors, covers_iff_eq_or_strictlyCovers]

theorem ancestors_pairwise (name : Name) :
    name.ancestors.Pairwise fun a b => b.length < a.length := by
  rw [ancestors_eq, List.pairwise_cons]
  exact ⟨fun other member => (strictlyCovers_iff.mp (mem_properAncestors.mp member)).2,
    properAncestors_pairwise name⟩

/-- A search through a name and the names above it ends at the longest of those it can end at. -/
theorem longest_of_find? {present : Name → Bool} (found : name.ancestors.find? present = some above) :
    present above = true ∧ above.covers name = true ∧
      ∀ other : Name, present other = true → other.covers name = true → other.length ≤ above.length := by
  obtain ⟨here, longer, shorter, split, absent⟩ := List.find?_eq_some_iff_append.mp found
  have order := ancestors_pairwise name
  rw [split] at order
  obtain ⟨-, order, -⟩ := List.pairwise_append.mp order
  refine ⟨here, mem_ancestors.mp (List.mem_of_find?_eq_some found), fun other named covered => ?_⟩
  have listed := mem_ancestors.mpr covered
  rw [split] at listed
  rcases List.mem_append.mp listed with before | listed
  · have missing := absent other before
    rw [named] at missing
    cases missing
  · rcases List.mem_cons.mp listed with same | later
    · rw [same]
    · exact Nat.le_of_lt ((List.pairwise_cons.mp order).1 other later)

theorem ancestors_nodup (name : Name) : name.ancestors.Nodup := by
  refine (ancestors_pairwise name).imp fun {longer shorter} less => ?_
  rintro rfl
  exact Nat.lt_irrefl _ less

/-- The names at or above the parent of a name are those strictly above the name. -/
theorem ancestors_parent? {parent : Name} (found : name.parent? = some parent) :
    parent.ancestors = name.properAncestors := by
  unfold parent? at found
  split at found
  · cases found
  · rename_i deeper
    cases found
    have positive : name.length ≠ 0 := by
      simpa [isRoot, length, List.isEmpty_iff_length_eq_zero] using deeper
    rw [properAncestors_eq, ancestors, length_take (Nat.sub_le _ _),
      Nat.sub_add_cancel (Nat.pos_of_ne_zero positive)]
    refine List.map_congr_left fun count member => ?_
    have below := List.mem_range.mp (List.mem_reverse.mp member)
    have within : count ≤ name.length - 1 := by omega
    simp [take, List.take_take, Nat.min_eq_left within]

theorem properAncestors_of_root (root : name.parent? = none) : name.properAncestors = [] := by
  have empty : name.components = [] := by simpa [parent?, isRoot] using root
  simp [properAncestors_eq, length, empty]

end Overhear.Name
