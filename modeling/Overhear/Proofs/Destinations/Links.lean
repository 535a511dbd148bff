import Overhear.Destinations

/-! The links between the entries for destinations. An entry knows its parent and its children; attaching
and detaching keep both sides in step and touch nothing else. -/
namespace Overhear.Destinations

variable {index after : Destinations}

def nameOf? (index : Destinations) (id : Nat) : Option Name :=
  index.entry? id |>.map (·.name)

def coordinateOf? (index : Destinations) (id : Nat) : Option Coordinate :=
  index.entry? id |>.map (·.coordinate)

def HasChild (index : Destinations) (parent child : Nat) : Prop :=
  ∃ entry, index.entry? parent = some entry ∧ child ∈ entry.children

/-- Parents and children are two sides of the same links. -/
def Linked (index : Destinations) : Prop :=
  ∀ parent child, index.HasChild parent child ↔ index.parent? child = some parent

/-- The links of some entries upward are the only difference. -/
structure Moved (index after : Destinations) (children : List Nat) (parent : Option Nat) : Prop where
  linked : after.Linked
  byName : after.byName = index.byName
  names : ∀ id, after.nameOf? id = index.nameOf? id
  coordinates : ∀ id, after.coordinateOf? id = index.coordinateOf? id
  parents : ∀ id, after.parent? id = if id ∈ children then parent else index.parent? id

theorem Moved.ids {children : List Nat} {parent : Option Nat} (moved : index.Moved after children parent)
    (name : Name) : after.idOf? name = index.idOf? name := by
  rw [idOf?, moved.byName, idOf?]

theorem Moved.refl (linked : index.Linked) (parent : Option Nat) : index.Moved index [] parent :=
  ⟨linked, rfl, fun _ => rfl, fun _ => rfl, fun _ => rfl⟩

theorem Moved.cons {middle : Destinations} {child : Nat} {children : List Nat} {parent : Option Nat}
    (first : index.Moved middle [child] parent) (others : middle.Moved after children parent) :
    index.Moved after (child :: children) parent where
  linked := others.linked
  byName := others.byName.trans first.byName
  names id := (others.names id).trans (first.names id)
  coordinates id := (others.coordinates id).trans (first.coordinates id)
  parents id := by
    rw [others.parents, first.parents]
    by_cases same : id = child <;> simp [same]

/-- Only the last of two moves of an entry counts. -/
theorem Moved.again {middle : Destinations} {child : Nat} {between parent : Option Nat}
    (first : index.Moved middle [child] between) (second : middle.Moved after [child] parent) :
    index.Moved after [child] parent where
  linked := second.linked
  byName := second.byName.trans first.byName
  names id := (second.names id).trans (first.names id)
  coordinates id := (second.coordinates id).trans (first.coordinates id)
  parents id := by
    rw [second.parents, first.parents]
    split <;> rfl

theorem entry?_update (index : Destinations) (id other : Nat)
    (change : DestinationEntry → DestinationEntry) :
    entry? (index.update id change) other =
      if id = other then index.entry? other |>.map change else index.entry? other := by
  simp [update, entry?, Array.getElem?_modify]

theorem exists_of_parent? {child parent : Nat} (above : index.parent? child = some parent) :
    ∃ entry, index.entry? child = some entry ∧ entry.parent = some parent :=
  Option.bind_eq_some_iff.mp above

theorem exists_of_nameOf? {id : Nat} {name : Name} (named : index.nameOf? id = some name) :
    ∃ entry, index.entry? id = some entry ∧ entry.name = name := by
  simpa [nameOf?] using named

/-- Both ends of a link exist. -/
theorem Linked.exists_parent (linked : index.Linked) {child parent : Nat}
    (above : index.parent? child = some parent) : ∃ entry, index.entry? parent = some entry := by
  obtain ⟨entry, found, -⟩ := (linked parent child).mpr above
  exact ⟨entry, found⟩

/-- A walk that stays in a set closed under parents meets nothing outside it. -/
theorem walkMeets_eq_false {id : Nat} (inside : Nat → Prop) (outside : ¬ inside id)
    (closed : ∀ child parent, inside child → index.parent? child = some parent → inside parent)
    (steps : Nat) {cursor : Nat} (start : inside cursor) :
    index.walkMeets id steps (some cursor) = false := by
  induction steps generalizing cursor with
  | zero => rfl
  | succ steps ih =>
    have different : cursor ≠ id := by
      intro same
      subst same
      exact outside start
    rw [walkMeets, beq_false_of_ne different, Bool.false_or]
    cases above : index.parent? cursor with
    | none => cases steps <;> rfl
    | some parent => exact ih (closed cursor parent start above)

/-- Put an entry under another one or take it from there, without asking whether that is allowed. -/
def relink (index : Destinations) (child : Nat) (target : Option Nat) (parent : Nat)
    (change : Std.ExtTreeSet Nat → Std.ExtTreeSet Nat) : Destinations :=
  (index.update child ({ · with parent := target })).update parent
    fun entry => { entry with children := change entry.children }

theorem nameOf?_relink (index : Destinations) (child : Nat) (target : Option Nat) (parent : Nat)
    (change : Std.ExtTreeSet Nat → Std.ExtTreeSet Nat) (id : Nat) :
    (index.relink child target parent change).nameOf? id = index.nameOf? id := by
  simp only [nameOf?, relink, entry?_update]
  split <;> split <;> simp [Function.comp_def]

theorem coordinateOf?_relink (index : Destinations) (child : Nat) (target : Option Nat) (parent : Nat)
    (change : Std.ExtTreeSet Nat → Std.ExtTreeSet Nat) (id : Nat) :
    (index.relink child target parent change).coordinateOf? id = index.coordinateOf? id := by
  simp only [coordinateOf?, relink, entry?_update]
  split <;> split <;> simp [Function.comp_def]

theorem parent?_relink {child : Nat} {entry : DestinationEntry}
    (exists_child : index.entry? child = some entry) (target : Option Nat) (parent : Nat)
    (change : Std.ExtTreeSet Nat → Std.ExtTreeSet Nat) (id : Nat) :
    (index.relink child target parent change).parent? id =
      if id = child then target else index.parent? id := by
  simp only [parent?, relink, entry?_update]
  by_cases same : child = id
  · subst same
    split <;> simp [exists_child]
  · rw [if_neg same, if_neg (Ne.symm same)]
    split
    · cases index.entry? id <;> rfl
    · rfl

theorem hasChild_relink (index : Destinations) (child : Nat) (target : Option Nat)
    {parent : Nat} {entry : DestinationEntry} (exists_parent : index.entry? parent = some entry)
    (change : Std.ExtTreeSet Nat → Std.ExtTreeSet Nat) (id other : Nat) :
    (index.relink child target parent change).HasChild id other ↔
      if id = parent then other ∈ change entry.children else index.HasChild id other := by
  simp only [HasChild, relink, entry?_update]
  by_cases same : parent = id
  · subst same
    rw [if_pos rfl, if_pos rfl]
    split <;> simp [exists_parent]
  · rw [if_neg same, if_neg (Ne.symm same)]
    split
    · cases index.entry? id <;> simp
    · rfl

/-- Moving an entry between its parent and none keeps both sides of the links in step, when the set of
children changes as the parent does. -/
theorem Linked.relink (linked : index.Linked) {child parent : Nat} {target : Option Nat}
    {childEntry parentEntry : DestinationEntry} (hasChild : index.entry? child = some childEntry)
    (hasParent : index.entry? parent = some parentEntry)
    (old : ∀ other, index.parent? child = some other → other = parent)
    (new : ∀ other, target = some other → other = parent)
    {change : Std.ExtTreeSet Nat → Std.ExtTreeSet Nat}
    (changed : ∀ children other, other ∈ change children ↔
      if other = child then target = some parent else other ∈ children) :
    index.Moved (index.relink child target parent change) [child] target where
  byName := rfl
  names := nameOf?_relink index child target parent change
  coordinates := coordinateOf?_relink index child target parent change
  parents id := by
    simp only [parent?_relink hasChild, List.mem_singleton]
  linked := by
    have members : ∀ other, other ∈ parentEntry.children ↔ index.parent? other = some parent := by
      intro other
      rw [← linked parent other]
      simp [HasChild, hasParent]
    intro id other
    rw [hasChild_relink index child target hasParent, parent?_relink hasChild]
    by_cases atParent : id = parent
    · subst atParent
      rw [if_pos rfl, changed, members]
      split <;> rfl
    · rw [if_neg atParent, linked id other]
      split
      · rename_i same
        subst same
        exact ⟨fun above => absurd (old id above) atParent, fun above => absurd (new id above) atParent⟩
      · rfl

theorem addChild_eq_ok {parent child : Nat} {childEntry parentEntry : DestinationEntry}
    (hasChild : index.entry? child = some childEntry)
    (hasParent : index.entry? parent = some parentEntry) (detached : childEntry.parent = none)
    (apart : index.isAtOrAbove child parent = false) :
    index.addChild parent child = .ok (index.relink child (some parent) parent (·.insert child)) := by
  simp [addChild, relink, hasChild, hasParent, detached, apart, pure, Except.pure]

theorem removeChild_eq_ok {parent child : Nat} {childEntry parentEntry : DestinationEntry}
    (hasChild : index.entry? child = some childEntry)
    (hasParent : index.entry? parent = some parentEntry) (attached : childEntry.parent = some parent) :
    index.removeChild parent child = .ok (index.relink child none parent (·.erase child)) := by
  simp [removeChild, relink, hasChild, hasParent, attached, pure, Except.pure]

/-- A detached entry goes under another one that is neither itself nor below it. -/
theorem Linked.addChild (linked : index.Linked) {parent child : Nat} {childName parentName : Name}
    (hasChild : index.nameOf? child = some childName)
    (hasParent : index.nameOf? parent = some parentName) (detached : index.parent? child = none)
    (apart : index.isAtOrAbove child parent = false) :
    ∃ after, index.addChild parent child = .ok after ∧ index.Moved after [child] (some parent) := by
  obtain ⟨childEntry, hasChild, -⟩ := exists_of_nameOf? hasChild
  obtain ⟨parentEntry, hasParent, -⟩ := exists_of_nameOf? hasParent
  have root : childEntry.parent = none := by simpa [parent?, hasChild] using detached
  refine ⟨_, addChild_eq_ok hasChild hasParent root apart, ?_⟩
  refine linked.relink hasChild hasParent (by simp [detached]) (by simp) fun children other => ?_
  rw [Std.ExtTreeSet.mem_insert, Std.compare_eq_iff_eq]
  by_cases same : other = child
  · simp [same]
  · simp [same, Ne.symm same]

theorem Linked.removeChild (linked : index.Linked) {parent child : Nat}
    (attached : index.parent? child = some parent) :
    ∃ after, index.removeChild parent child = .ok after ∧ index.Moved after [child] none := by
  obtain ⟨childEntry, hasChild, above⟩ := exists_of_parent? attached
  obtain ⟨parentEntry, hasParent⟩ := linked.exists_parent attached
  refine ⟨_, removeChild_eq_ok hasChild hasParent above, ?_⟩
  refine linked.relink hasChild hasParent (by simp [attached, eq_comm]) (by simp)
    fun children other => ?_
  rw [Std.ExtTreeSet.mem_erase, ne_eq, Std.compare_eq_iff_eq]
  by_cases same : other = child
  · simp [same]
  · simp [same, Ne.symm same]

/-- An entry that hangs where a root is to hang goes under that root. -/
theorem Linked.adopt (linked : index.Linked) {id child : Nat} {idName childName : Name}
    {parent : Option Nat} (hasId : index.nameOf? id = some idName) (root : index.parent? id = none)
    (hasChild : index.nameOf? child = some childName) (hangs : index.parent? child = parent)
    (different : child ≠ id) :
    ∃ after, Destinations.adopt parent id index child = .ok after ∧
      index.Moved after [child] (some id) := by
  -- No entry is above a root, so nothing stands against the second step.
  have attach : ∀ detached : Destinations, index.Moved detached [child] none →
      ∃ after, detached.addChild id child = .ok after ∧ detached.Moved after [child] (some id) := by
    intro detached moved
    refine moved.linked.addChild ((moved.names child).trans hasChild) ((moved.names id).trans hasId)
      (by simp [moved.parents]) ?_
    refine walkMeets_eq_false (· = id) different ?_ _ rfl
    rintro _ above rfl up
    rw [moved.parents, if_neg (by simpa using different.symm), root] at up
    cases up
  cases parent with
  | none =>
    have same : index.Moved index [child] none :=
      ⟨linked, rfl, fun _ => rfl, fun _ => rfl, fun other => by
        by_cases at_child : other = child <;> simp [at_child, hangs]⟩
    obtain ⟨after, added, moved⟩ := attach index same
    exact ⟨after, added, moved⟩
  | some parent =>
    obtain ⟨detached, removed, first⟩ := linked.removeChild hangs
    obtain ⟨after, added, second⟩ := attach detached first
    refine ⟨after, ?_, first.again second⟩
    simp only [Destinations.adopt, removed]
    exact added

theorem Linked.adoptAll (linked : index.Linked) {id : Nat} {idName : Name} {parent : Option Nat}
    (hasId : index.nameOf? id = some idName) (root : index.parent? id = none) {children : List Nat}
    (distinct : children.Nodup) (hanging : ∀ child ∈ children, child ≠ id ∧
      index.parent? child = parent ∧ ∃ name, index.nameOf? child = some name) :
    ∃ after, children.foldlM (Destinations.adopt parent id) index = .ok after ∧
      index.Moved after children (some id) := by
  induction children generalizing index with
  | nil => exact ⟨index, rfl, .refl linked _⟩
  | cons child rest ih =>
    obtain ⟨fresh, distinct⟩ := List.nodup_cons.mp distinct
    obtain ⟨different, hangs, name, hasChild⟩ := hanging child (.head _)
    obtain ⟨middle, adopted, first⟩ := linked.adopt hasId root hasChild hangs different
    have kept : ∀ other, other ≠ child → middle.parent? other = index.parent? other := by
      intro other apart
      rw [first.parents, if_neg (by simpa using apart)]
    obtain ⟨after, folded, others⟩ := ih first.linked ((first.names id).trans hasId)
      ((kept id different.symm).trans root) distinct fun other member => by
        obtain ⟨apart, hangsToo, otherName, hasOther⟩ := hanging other (.tail _ member)
        have notChild : other ≠ child := by
          intro same
          subst same
          exact fresh member
        exact ⟨apart, (kept other notChild).trans hangsToo, otherName,
          (first.names other).trans hasOther⟩
    refine ⟨after, ?_, first.cons others⟩
    rw [List.foldlM_cons, adopted]
    exact folded

end Overhear.Destinations
