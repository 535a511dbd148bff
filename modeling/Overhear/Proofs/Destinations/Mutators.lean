import Overhear.Proofs.Destinations.Ancestry

/-! Insertions, attachments and detachments in any order. A host may hang entries where their names do not
belong, yet the links stay a forest, so an insertion never fails on its way. -/
namespace Overhear.Destinations

variable {index after : Destinations} {parent child : Nat}

/-- Why an entry cannot go under another one. -/
def attachRefusal? (index : Destinations) (parent child : Nat) : Option ForestError :=
  match index.entry? child, index.entry? parent with
  | none, _ => some (.unknownEntry child)
  | some _, none => some (.unknownEntry parent)
  | some childEntry, some parentEntry =>
      if childEntry.parent.isSome then some (.alreadyAttached childEntry.name)
      else if index.isAtOrAbove child parent then some (.wouldCycle parentEntry.name childEntry.name)
      else none

/-- Why an entry cannot be taken from under another one. -/
def detachRefusal? (index : Destinations) (parent child : Nat) : Option ForestError :=
  match index.entry? child, index.entry? parent with
  | none, _ => some (.unknownEntry child)
  | some _, none => some (.unknownEntry parent)
  | some childEntry, some parentEntry =>
      if childEntry.parent = some parent then none
      else some (.notParent parentEntry.name childEntry.name)

theorem addChild_eq (index : Destinations) (parent child : Nat) :
    index.addChild parent child =
      match index.attachRefusal? parent child with
      | some cause => .error cause
      | none => .ok (index.relink child (some parent) parent (·.insert child)) := by
  unfold addChild attachRefusal?
  cases index.entry? child with
  | none => rfl
  | some childEntry =>
    cases index.entry? parent with
    | none => rfl
    | some parentEntry =>
      dsimp only
      split
      · rfl
      · split <;> rfl

theorem removeChild_eq (index : Destinations) (parent child : Nat) :
    index.removeChild parent child =
      match index.detachRefusal? parent child with
      | some cause => .error cause
      | none => .ok (index.relink child none parent (·.erase child)) := by
  unfold removeChild detachRefusal?
  cases index.entry? child with
  | none => rfl
  | some childEntry =>
    cases index.entry? parent with
    | none => rfl
    | some parentEntry =>
      by_cases attached : childEntry.parent = some parent
      · simp only [attached, bne_self_eq_false, if_pos]
        rfl
      · simp only [bne_iff_ne.mpr attached, attached, if_pos]
        rfl

theorem attachRefusal?_eq_none_iff :
    index.attachRefusal? parent child = none ↔
      parent < index.size ∧ child < index.size ∧ index.parent? child = none ∧
        index.isAtOrAbove child parent = false := by
  simp only [lt_size_iff, attachRefusal?, parent?]
  cases index.entry? child with
  | none => simp
  | some childEntry =>
    cases index.entry? parent with
    | none => simp
    | some parentEntry => cases attached : childEntry.parent <;> simp [attached]

theorem detachRefusal?_eq_none_iff :
    index.detachRefusal? parent child = none ↔
      parent < index.size ∧ child < index.size ∧ index.parent? child = some parent := by
  simp only [lt_size_iff, detachRefusal?, parent?]
  cases index.entry? child with
  | none => simp
  | some childEntry => cases index.entry? parent <;> simp

theorem addChild_eq_ok_iff :
    index.addChild parent child = .ok after ↔
      index.attachRefusal? parent child = none ∧
        after = index.relink child (some parent) parent (·.insert child) := by
  rw [addChild_eq]
  cases index.attachRefusal? parent child <;> simp [eq_comm]

theorem removeChild_eq_ok_iff :
    index.removeChild parent child = .ok after ↔
      index.detachRefusal? parent child = none ∧
        after = index.relink child none parent (·.erase child) := by
  rw [removeChild_eq]
  cases index.detachRefusal? parent child <;> simp [eq_comm]

/-- An entry can go under one that is neither itself nor below it, once it is detached. -/
theorem Sound.addChild_ok_iff (sound : index.Sound) :
    (∃ after, index.addChild parent child = .ok after) ↔
      parent < index.size ∧ child < index.size ∧ index.parent? child = none ∧
        ¬ Relation.ReflTransGen index.HangsUnder parent child := by
  simp only [addChild_eq_ok_iff, exists_and_left, exists_eq, and_true, attachRefusal?_eq_none_iff]
  refine and_congr_right fun present => and_congr_right fun _ => and_congr_right fun _ => ?_
  rw [← sound.isAtOrAbove_iff present, Bool.not_eq_true]

theorem removeChild_ok_iff :
    (∃ after, index.removeChild parent child = .ok after) ↔
      parent < index.size ∧ child < index.size ∧ index.parent? child = some parent := by
  simp only [removeChild_eq_ok_iff, exists_and_left, exists_eq, and_true, detachRefusal?_eq_none_iff]

theorem Linked.addChild_moved (linked : index.Linked) (added : index.addChild parent child = .ok after) :
    index.Moved after [child] (some parent) := by
  obtain ⟨hasParent, hasChild, detached, apart⟩ :=
    attachRefusal?_eq_none_iff.mp (addChild_eq_ok_iff.mp added).1
  obtain ⟨parentEntry, foundParent⟩ := lt_size_iff.mp hasParent
  obtain ⟨childEntry, foundChild⟩ := lt_size_iff.mp hasChild
  obtain ⟨other, same, moved⟩ := linked.addChild (by rw [nameOf?, foundChild]; rfl)
    (by rw [nameOf?, foundParent]; rfl) detached apart
  cases added.symm.trans same
  exact moved

theorem Linked.removeChild_moved (linked : index.Linked)
    (removed : index.removeChild parent child = .ok after) : index.Moved after [child] none := by
  obtain ⟨-, -, attached⟩ := removeChild_ok_iff.mp ⟨after, removed⟩
  obtain ⟨other, same, moved⟩ := linked.removeChild attached
  cases removed.symm.trans same
  exact moved

/-- Names stay with their entries when links change. -/
theorem Sound.moved (sound : index.Sound) {children : List Nat} {target : Option Nat}
    (moved : index.Moved after children target)
    (acyclic : ∃ rank : Nat → Nat, ∀ child parent, after.parent? child = some parent →
      rank parent < rank child) : after.Sound where
  named name id := by
    rw [moved.ids, moved.names]
    exact sound.named name id
  linked := moved.linked
  acyclic := acyclic

theorem Sound.addChild (sound : index.Sound) (added : index.addChild parent child = .ok after) :
    after.Sound := by
  classical
  have moved := sound.linked.addChild_moved added
  obtain ⟨-, -, -, apart⟩ := sound.addChild_ok_iff.mp ⟨after, added⟩
  obtain ⟨rank, falls⟩ := sound.acyclic
  -- All that is at or below the child is lifted above its new parent, which is not among it.
  let lifted (id : Nat) : Nat :=
    if Relation.ReflTransGen index.HangsUnder id child then rank id + rank parent + 1 else rank id
  refine sound.moved moved ⟨lifted, fun low high up => ?_⟩
  rw [moved.parents] at up
  split at up
  · rename_i atChild
    obtain rfl := List.mem_singleton.mp atChild
    cases up
    simp only [lifted, if_neg apart, if_pos Relation.ReflTransGen.refl]
    omega
  · have up : index.HangsUnder low high := up
    have lower := falls low high up
    simp only [lifted]
    by_cases below : Relation.ReflTransGen index.HangsUnder high child
    · rw [if_pos below, if_pos (below.head up)]
      omega
    · rw [if_neg below]
      split <;> omega

theorem Sound.removeChild (sound : index.Sound)
    (removed : index.removeChild parent child = .ok after) : after.Sound := by
  have moved := sound.linked.removeChild_moved removed
  obtain ⟨rank, falls⟩ := sound.acyclic
  refine sound.moved moved ⟨rank, fun low high up => ?_⟩
  rw [moved.parents] at up
  split at up
  · cases up
  · exact falls low high up

/-- A change to an index in place: what it wrote before an error stays written. -/
abbrev Edit := ExceptT ForestError (StateM Destinations)

def Edit.on {α : Type} (edit : Edit α) (index : Destinations) : Except ForestError α × Destinations :=
  edit.run.run index

theorem Edit.on_get (index : Destinations) : (get : Edit Destinations).on index = (.ok index, index) := rfl

theorem Edit.on_bind {α β : Type} (edit : Edit α) (next : α → Edit β) (index : Destinations) :
    (edit >>= next).on index =
      match edit.on index with
      | (.ok value, after) => (next value).on after
      | (.error cause, after) => (.error cause, after) := by
  change (match edit.on index with
    | (result, after) => (ExceptT.bindCont next result).run after) = _
  cases edit.on index with
  | mk result after => cases result <;> rfl

def attachInPlace (parent child : Nat) : Edit Unit := do
  let index ← get
  let some childEntry := index.entry? child | throw (.unknownEntry child)
  let some parentEntry := index.entry? parent | throw (.unknownEntry parent)
  if childEntry.parent.isSome then throw (.alreadyAttached childEntry.name)
  if index.isAtOrAbove child parent then throw (.wouldCycle parentEntry.name childEntry.name)
  modify (·.update child ({ · with parent := some parent }))
  modify (·.update parent fun entry => { entry with children := entry.children.insert child })

def detachInPlace (parent child : Nat) : Edit Unit := do
  let index ← get
  let some childEntry := index.entry? child | throw (.unknownEntry child)
  let some parentEntry := index.entry? parent | throw (.unknownEntry parent)
  if childEntry.parent != some parent then throw (.notParent parentEntry.name childEntry.name)
  modify (·.update child ({ · with parent := none }))
  modify (·.update parent fun entry => { entry with children := entry.children.erase child })

def adoptInPlace (parent : Option Nat) (id child : Nat) : Edit Unit := do
  match parent with
  | some parent => detachInPlace parent child
  | none => pure ()
  attachInPlace id child

def insertInPlace (name : Name) (coordinate : Coordinate) : Edit Nat := do
  let index ← get
  match index.idOf? name with
  | some id =>
      modify (·.update id ({ · with coordinate }))
      return id
  | none =>
      let parent := name.properAncestors.findSome? index.idOf?
      modify (·.grow name coordinate)
      (index.takenOverIds name coordinate).forM (adoptInPlace parent index.size)
      match parent with
      | some parent => attachInPlace parent index.size
      | none => pure ()
      return index.size

/-- An attachment checks before it writes, so a refused one leaves the index as it was. -/
theorem attachInPlace_on (index : Destinations) (parent child : Nat) :
    (attachInPlace parent child).on index =
      match index.attachRefusal? parent child with
      | some cause => (.error cause, index)
      | none => (.ok (), index.relink child (some parent) parent (·.insert child)) := by
  simp only [attachInPlace, Edit.on_bind, Edit.on_get, attachRefusal?]
  cases index.entry? child with
  | none => rfl
  | some childEntry =>
    cases index.entry? parent with
    | none => rfl
    | some parentEntry =>
      dsimp only
      split
      · rfl
      · split <;> rfl

theorem detachInPlace_on (index : Destinations) (parent child : Nat) :
    (detachInPlace parent child).on index =
      match index.detachRefusal? parent child with
      | some cause => (.error cause, index)
      | none => (.ok (), index.relink child none parent (·.erase child)) := by
  simp only [detachInPlace, Edit.on_bind, Edit.on_get, detachRefusal?]
  cases index.entry? child with
  | none => rfl
  | some childEntry =>
    cases index.entry? parent with
    | none => rfl
    | some parentEntry =>
      by_cases attached : childEntry.parent = some parent
      · simp only [attached, bne_self_eq_false, if_pos]
        rfl
      · simp only [bne_iff_ne.mpr attached, attached, if_pos]
        rfl

theorem attachInPlace_of_ok (added : index.addChild parent child = .ok after) :
    (attachInPlace parent child).on index = (.ok (), after) := by
  obtain ⟨allowed, rfl⟩ := addChild_eq_ok_iff.mp added
  rw [attachInPlace_on, allowed]

theorem detachInPlace_of_ok (removed : index.removeChild parent child = .ok after) :
    (detachInPlace parent child).on index = (.ok (), after) := by
  obtain ⟨allowed, rfl⟩ := removeChild_eq_ok_iff.mp removed
  rw [detachInPlace_on, allowed]

theorem attachInPlace_of_error {cause : ForestError} (refused : index.addChild parent child = .error cause) :
    (attachInPlace parent child).on index = (.error cause, index) := by
  rw [addChild_eq] at refused
  rw [attachInPlace_on]
  split at refused
  · cases refused
    rfl
  · cases refused

theorem detachInPlace_of_error {cause : ForestError}
    (refused : index.removeChild parent child = .error cause) :
    (detachInPlace parent child).on index = (.error cause, index) := by
  rw [removeChild_eq] at refused
  rw [detachInPlace_on]
  split at refused
  · cases refused
    rfl
  · cases refused

theorem adoptInPlace_of_ok {above : Option Nat} {id : Nat}
    (adopted : adopt above id index child = .ok after) :
    (adoptInPlace above id child).on index = (.ok (), after) := by
  cases above with
  | none => exact attachInPlace_of_ok adopted
  | some parent =>
    cases removed : index.removeChild parent child with
    | error cause =>
      simp only [adopt, removed] at adopted
      cases adopted
    | ok detached =>
      simp only [adopt, removed] at adopted
      simp only [adoptInPlace, Edit.on_bind, detachInPlace_of_ok removed]
      exact attachInPlace_of_ok adopted

theorem adoptAllInPlace_of_ok {above : Option Nat} {id : Nat} {children : List Nat}
    (gathered : children.foldlM (adopt above id) index = .ok after) :
    (children.forM (adoptInPlace above id)).on index = (.ok (), after) := by
  induction children generalizing index with
  | nil =>
    cases gathered
    rfl
  | cons child rest ih =>
    rw [List.foldlM_cons] at gathered
    cases adopted : adopt above id index child with
    | error cause =>
      rw [adopted] at gathered
      cases gathered
    | ok middle =>
      rw [adopted] at gathered
      change (adoptInPlace above id child >>= fun _ => rest.forM (adoptInPlace above id)).on index = _
      rw [Edit.on_bind, adoptInPlace_of_ok adopted]
      exact ih gathered

/-- An insertion that does not fail on its way leaves what it leaves when nothing is written in between. -/
theorem insertInPlace_of_ok {name : Name} {coordinate : Coordinate} {id : Nat}
    (inserted : index.insert name coordinate = .ok (id, after)) :
    (insertInPlace name coordinate).on index = (.ok id, after) := by
  cases known : index.idOf? name with
  | some found =>
    simp only [insert, known] at inserted
    cases inserted
    simp only [insertInPlace, Edit.on_bind, Edit.on_get, known]
    rfl
  | none =>
    simp only [insert_of_fresh known] at inserted
    cases gathering : (index.takenOverIds name coordinate).foldlM
        (adopt (name.properAncestors.findSome? index.idOf?) index.size) (index.grow name coordinate) with
    | error cause =>
      rw [gathering] at inserted
      cases inserted
    | ok gathered =>
      have grown : (modify (·.grow name coordinate) : Edit Unit).on index =
        (.ok (), index.grow name coordinate) := rfl
      simp only [insertInPlace, Edit.on_bind, Edit.on_get, known, grown,
        adoptAllInPlace_of_ok gathering]
      rw [gathering, Except.bind] at inserted
      cases nearest : name.properAncestors.findSome? index.idOf? with
      | none =>
        rw [nearest] at inserted
        cases inserted
        rfl
      | some parent =>
        rw [nearest, attachUnder] at inserted
        cases attached : gathered.addChild parent index.size with
        | error cause =>
          rw [attached] at inserted
          cases inserted
        | ok last =>
          rw [attached] at inserted
          cases inserted
          simp only [Edit.on_bind, attachInPlace_of_ok attached]
          rfl

/-- A call that changes the forest; names, places and numbers may be any. -/
inductive Call where
  | insert (name : Name) (coordinate : Coordinate)
  | addChild (parent child : Nat)
  | removeChild (parent child : Nat)

/-- What a call leaves, whether it succeeds or not. -/
def Call.leaves (index : Destinations) : Call → Destinations
  | .insert name coordinate => ((insertInPlace name coordinate).on index).2
  | .addChild parent child => ((attachInPlace parent child).on index).2
  | .removeChild parent child => ((detachInPlace parent child).on index).2

def leftBy (calls : List Call) : Destinations := calls.foldl Call.leaves {}

theorem Sound.insert (sound : index.Sound) (name : Name) (coordinate : Coordinate) :
    ∃ id after, index.insert name coordinate = .ok (id, after) ∧ after.Sound := by
  cases known : index.idOf? name with
  | none =>
    obtain ⟨after, inserted, entered⟩ := sound.insert_fresh known coordinate
    exact ⟨index.size, after, inserted, entered.sound⟩
  | some id =>
    obtain ⟨after, inserted, replaced⟩ := sound.insert_known known coordinate
    exact ⟨id, after, inserted, replaced.sound⟩

theorem Sound.leaves (sound : index.Sound) (call : Call) : (call.leaves index).Sound := by
  cases call with
  | insert name coordinate =>
    obtain ⟨id, after, inserted, kept⟩ := sound.insert name coordinate
    rw [Call.leaves, insertInPlace_of_ok inserted]
    exact kept
  | addChild parent child =>
    cases added : index.addChild parent child with
    | error cause =>
      rw [Call.leaves, attachInPlace_of_error added]
      exact sound
    | ok after =>
      rw [Call.leaves, attachInPlace_of_ok added]
      exact sound.addChild added
  | removeChild parent child =>
    cases removed : index.removeChild parent child with
    | error cause =>
      rw [Call.leaves, detachInPlace_of_error removed]
      exact sound
    | ok after =>
      rw [Call.leaves, detachInPlace_of_ok removed]
      exact sound.removeChild removed

theorem sound_leftBy (calls : List Call) : (leftBy calls).Sound := by
  have kept : ∀ index : Destinations, index.Sound → (calls.foldl Call.leaves index).Sound := by
    induction calls with
    | nil => exact fun _ sound => sound
    | cons call rest ih => exact fun index sound => ih _ (sound.leaves call)
  exact kept {} .empty

/-- The links go both ways, to one parent at most, and upward to a root without coming round. -/
structure IsForest (index : Destinations) : Prop where
  inverse : ∀ parent child, index.HasChild parent child ↔ index.HangsUnder child parent
  single : ∀ first second child, index.HasChild first child → index.HasChild second child →
    first = second
  exist : ∀ parent child, index.HangsUnder child parent → parent < index.size ∧ child < index.size
  acyclic : ∀ id, ¬ Relation.TransGen index.HangsUnder id id
  ends : ∀ id < index.size, index.climb? index.size id = none

theorem Sound.isForest (sound : index.Sound) : index.IsForest where
  inverse := sound.linked
  single first second child one other := by
    rw [sound.linked] at one other
    exact Option.some.inj (one.symm.trans other)
  exist parent child up := by
    obtain ⟨entry, found, -⟩ := exists_of_parent? up
    exact ⟨sound.linked.lt_size up, lt_size_iff.mpr ⟨entry, found⟩⟩
  acyclic := sound.not_above_self
  ends _ present := sound.climb?_size present

/-- What the calls answer, and what they leave. -/
structure Answers (index : Destinations) : Prop where
  insert : ∀ name coordinate, ∃ id after, index.insert name coordinate = .ok (id, after) ∧
    (insertInPlace name coordinate).on index = (.ok id, after)
  addChild_iff : ∀ parent child, (∃ after, index.addChild parent child = .ok after) ↔
    parent < index.size ∧ child < index.size ∧ index.parent? child = none ∧
      ¬ Relation.ReflTransGen index.HangsUnder parent child
  removeChild_iff : ∀ parent child, (∃ after, index.removeChild parent child = .ok after) ↔
    parent < index.size ∧ child < index.size ∧ index.HangsUnder child parent
  added : ∀ parent child after, index.addChild parent child = .ok after →
    (attachInPlace parent child).on index = (.ok (), after) ∧ index.Moved after [child] (some parent)
  removed : ∀ parent child after, index.removeChild parent child = .ok after →
    (detachInPlace parent child).on index = (.ok (), after) ∧ index.Moved after [child] none
  notAdded : ∀ parent child cause, index.addChild parent child = .error cause →
    (attachInPlace parent child).on index = (.error cause, index)
  notRemoved : ∀ parent child cause, index.removeChild parent child = .error cause →
    (detachInPlace parent child).on index = (.error cause, index)

theorem Sound.answers (sound : index.Sound) : index.Answers where
  insert name coordinate := by
    obtain ⟨id, after, inserted, -⟩ := sound.insert name coordinate
    exact ⟨id, after, inserted, insertInPlace_of_ok inserted⟩
  addChild_iff _ _ := sound.addChild_ok_iff
  removeChild_iff _ _ := removeChild_ok_iff
  added _ _ _ added := ⟨attachInPlace_of_ok added, sound.linked.addChild_moved added⟩
  removed _ _ _ removed := ⟨detachInPlace_of_ok removed, sound.linked.removeChild_moved removed⟩
  notAdded _ _ _ := attachInPlace_of_error
  notRemoved _ _ _ := detachInPlace_of_error

/-- Whatever calls came before, the entries form a forest and the next call answers as it should. -/
theorem mutators_keep_forest (calls : List Call) :
    (leftBy calls).IsForest ∧ (leftBy calls).Answers :=
  ⟨(sound_leftBy calls).isForest, (sound_leftBy calls).answers⟩

end Overhear.Destinations
