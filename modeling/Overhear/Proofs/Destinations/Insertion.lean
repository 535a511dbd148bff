import Mathlib.Data.List.Nodup
import Overhear.Proofs.Destinations.Links
import Overhear.Proofs.Name.Order

/-! What an insertion does to the entries for destinations: a known name gets a new place, and a new name
gets an entry that goes under the nearest name above it and takes over what hung there below it. -/
namespace Overhear.Destinations

variable {index after : Destinations} {name : Name} {coordinate : Coordinate}

/-- What every insertion, attachment and detachment keeps. -/
structure Sound (index : Destinations) : Prop where
  named : ∀ name id, index.idOf? name = some id ↔ index.nameOf? id = some name
  linked : index.Linked
  -- Toward the root the entries fall in some rank, so the links have no cycle.
  acyclic : ∃ rank : Nat → Nat, ∀ child parent, index.parent? child = some parent →
    rank parent < rank child

theorem Sound.empty : ({} : Destinations).Sound where
  named := by simp [idOf?, nameOf?, entry?]
  linked := by simp [Linked, HasChild, parent?, entry?]
  acyclic := ⟨fun _ => 0, by simp [parent?, entry?]⟩

theorem Sound.idOf?_injective (sound : index.Sound) {first second : Name} {id : Nat}
    (one : index.idOf? first = some id) (other : index.idOf? second = some id) : first = second := by
  rw [sound.named] at one other
  exact Option.some.inj (one.symm.trans other)

theorem nameOf?_size (index : Destinations) : index.nameOf? index.size = none := by
  simp [nameOf?, entry?, size]

theorem parent?_size (index : Destinations) : index.parent? index.size = none := by
  simp [parent?, entry?, size]

theorem ne_size_of_nameOf? {id : Nat} (named : index.nameOf? id = some name) : id ≠ index.size := by
  intro same
  subst same
  simp [nameOf?_size] at named

def grow (index : Destinations) (name : Name) (coordinate : Coordinate) : Destinations :=
  { entries := index.entries.push ⟨name, coordinate, none, ∅⟩
    byName := index.byName.insert name index.size }

theorem entry?_grow (index : Destinations) (name : Name) (coordinate : Coordinate) (id : Nat) :
    entry? (index.grow name coordinate) id =
      if id = index.size then some ⟨name, coordinate, none, ∅⟩ else index.entry? id := by
  by_cases new : id = index.entries.size <;> simp [grow, entry?, size, Array.getElem?_push, new]

theorem idOf?_grow (index : Destinations) (name : Name) (coordinate : Coordinate) (other : Name) :
    (index.grow name coordinate).idOf? other =
      if other = name then some index.size else index.idOf? other := by
  by_cases same : other = name
  · simp [idOf?, grow, same]
  · simp [idOf?, grow, Std.ExtTreeMap.getElem?_insert, same, Ne.symm same]

theorem nameOf?_grow (index : Destinations) (name : Name) (coordinate : Coordinate) (id : Nat) :
    (index.grow name coordinate).nameOf? id =
      if id = index.size then some name else index.nameOf? id := by
  simp only [nameOf?, entry?_grow]
  split <;> rfl

theorem coordinateOf?_grow (index : Destinations) (name : Name) (coordinate : Coordinate) (id : Nat) :
    (index.grow name coordinate).coordinateOf? id =
      if id = index.size then some coordinate else index.coordinateOf? id := by
  simp only [coordinateOf?, entry?_grow]
  split <;> rfl

theorem parent?_grow (index : Destinations) (name : Name) (coordinate : Coordinate) (id : Nat) :
    (index.grow name coordinate).parent? id = index.parent? id := by
  by_cases new : id = index.size
  · rw [new, parent?_size]
    simp [parent?, entry?_grow]
  · simp [parent?, entry?_grow, new]

theorem Linked.grow (linked : index.Linked) (name : Name) (coordinate : Coordinate) :
    (index.grow name coordinate).Linked := by
  intro parent child
  rw [parent?_grow, ← linked]
  simp only [HasChild, entry?_grow]
  by_cases new : parent = index.size
  · simp [new, entry?, size]
  · simp [new]

theorem Sound.named_grow (sound : index.Sound) (fresh : index.idOf? name = none)
    (coordinate : Coordinate) (other : Name) (id : Nat) :
    (index.grow name coordinate).idOf? other = some id ↔
      (index.grow name coordinate).nameOf? id = some other := by
  rw [idOf?_grow, nameOf?_grow]
  by_cases sameName : other = name <;> by_cases sameId : id = index.size
  · simp [sameName, sameId]
  · have apart : index.nameOf? id ≠ some name := by
      rw [Ne, ← sound.named, fresh]
      simp
    simp [sameName, sameId, Ne.symm sameId, apart]
  · have apart : index.idOf? other ≠ some index.size := by
      rw [Ne, sound.named, nameOf?_size]
      simp
    simp [sameName, sameId, Ne.symm sameName, apart]
  · rw [if_neg sameName, if_neg sameId]
    exact sound.named other id

theorem mem_keys_byName (index : Destinations) (other : Name) :
    other ∈ index.byName.keys ↔ ∃ id, index.idOf? other = some id := by
  rw [Std.ExtTreeMap.mem_keys, Std.ExtTreeMap.mem_iff_isSome_getElem?, Option.isSome_iff_exists]
  rfl

theorem mem_descendantIds (index : Destinations) (name : Name) (id : Nat) :
    id ∈ index.descendantIds name ↔
      ∃ below, index.idOf? below = some id ∧ name.strictlyCovers below = true := by
  rw [descendantIds, Name.descendantsIn_eq_filter Std.ExtTreeMap.ordered_keys]
  simp only [List.mem_filterMap, List.mem_filter, mem_keys_byName]
  constructor
  · rintro ⟨below, ⟨-, under⟩, found⟩
    exact ⟨below, found, under⟩
  · rintro ⟨below, found, under⟩
    exact ⟨below, ⟨⟨id, found⟩, under⟩, found⟩

theorem nodup_descendantIds (index : Destinations) (name : Name)
    (injective : ∀ first second id, index.idOf? first = some id → index.idOf? second = some id →
      first = second) : (index.descendantIds name).Nodup := by
  rw [descendantIds, Name.descendantsIn_eq_filter Std.ExtTreeMap.ordered_keys]
  exact (Std.ExtTreeMap.nodup_keys.filter _).filterMap injective

/-- A known name has got another coordinate, and nothing else happened. -/
structure Replaced (index after : Destinations) (id : Nat) (coordinate : Coordinate) : Prop where
  sound : after.Sound
  ids : ∀ name, after.idOf? name = index.idOf? name
  parents : ∀ other, after.parent? other = index.parent? other
  coordinates : ∀ other, after.coordinateOf? other =
    if other = id then some coordinate else index.coordinateOf? other

/-- Only the place of the known name is another one. -/
theorem Replaced.place {id : Nat} (replaced : index.Replaced after id coordinate) (sound : index.Sound)
    (known : index.idOf? name = some id) (other : Name) :
    (after.idOf? other).bind after.coordinateOf? =
      if other = name then some coordinate else (index.idOf? other).bind index.coordinateOf? := by
  rw [replaced.ids]
  by_cases same : other = name
  · simp [same, known, replaced.coordinates]
  · rw [if_neg same]
    cases found : index.idOf? other with
    | none => rfl
    | some otherId =>
      have different : otherId ≠ id := by
        intro same_id
        subst same_id
        exact same (sound.idOf?_injective found known)
      simp [replaced.coordinates, different]

theorem Sound.insert_known (sound : index.Sound) {id : Nat} (known : index.idOf? name = some id)
    (coordinate : Coordinate) :
    ∃ after, index.insert name coordinate = .ok (id, after) ∧ index.Replaced after id coordinate := by
  obtain ⟨entry, found, -⟩ := exists_of_nameOf? ((sound.named name id).mp known)
  have inserted : index.insert name coordinate = .ok (id, index.update id ({ · with coordinate })) := by
    simp only [insert, known]
  have names : ∀ other, (index.update id ({ · with coordinate })).nameOf? other =
      index.nameOf? other := by
    intro other
    simp only [nameOf?, entry?_update]
    split <;> simp [Function.comp_def]
  have parents : ∀ other, (index.update id ({ · with coordinate })).parent? other =
      index.parent? other := by
    intro other
    simp only [parent?, entry?_update]
    split
    · cases index.entry? other <;> rfl
    · rfl
  have children : ∀ parent child, (index.update id ({ · with coordinate })).HasChild parent child ↔
      index.HasChild parent child := by
    intro parent child
    simp only [HasChild, entry?_update]
    split
    · cases index.entry? parent <;> simp
    · rfl
  refine ⟨_, inserted, ⟨?_, ?_, ?_⟩, fun _ => rfl, parents, fun other => ?_⟩
  · intro other otherId
    rw [names]
    exact sound.named other otherId
  · intro parent child
    rw [children, parents]
    exact sound.linked parent child
  · simp only [parents]
    exact sound.acyclic
  · by_cases same : other = id
    · simp [coordinateOf?, entry?_update, same, found]
    · simp [coordinateOf?, entry?_update, same, Ne.symm same]

/-- An entry under a new name that hangs where the new name goes. -/
def TakenOver (index : Destinations) (name : Name) (id : Nat) : Prop :=
  (∃ below, index.idOf? below = some id ∧ name.strictlyCovers below = true) ∧
    index.parent? id = name.properAncestors.findSome? index.idOf?

/-- A new name has come in. -/
structure Entered (index after : Destinations) (name : Name) (coordinate : Coordinate) : Prop where
  sound : after.Sound
  ids : ∀ other, after.idOf? other = if other = name then some index.size else index.idOf? other
  coordinates : ∀ id, after.coordinateOf? id =
    if id = index.size then some coordinate else index.coordinateOf? id
  own : after.parent? index.size = name.properAncestors.findSome? index.idOf?
  taken : ∀ id, index.TakenOver name id → after.parent? id = some index.size
  spared : ∀ id, id ≠ index.size → ¬ index.TakenOver name id → after.parent? id = index.parent? id

/-- Only the new name has got a place. -/
theorem Entered.place (entered : index.Entered after name coordinate) (sound : index.Sound)
    (other : Name) :
    (after.idOf? other).bind after.coordinateOf? =
      if other = name then some coordinate else (index.idOf? other).bind index.coordinateOf? := by
  rw [entered.ids]
  by_cases same : other = name
  · simp [same, entered.coordinates]
  · rw [if_neg same, if_neg same]
    cases found : index.idOf? other with
    | none => rfl
    | some id =>
      have old := ne_size_of_nameOf? ((sound.named other id).mp found)
      simp [entered.coordinates, old]

theorem Sound.ne_size_of_takenOver (sound : index.Sound) {id : Nat} (taken : index.TakenOver name id) :
    id ≠ index.size := by
  obtain ⟨⟨below, found, -⟩, -⟩ := taken
  exact ne_size_of_nameOf? ((sound.named below id).mp found)

/-- The rank of a new entry lies between that of its parent and those of the entries taken over. -/
theorem Sound.acyclic_of_entered (sound : index.Sound)
    (own : after.parent? index.size = name.properAncestors.findSome? index.idOf?)
    (taken : ∀ id, index.TakenOver name id → after.parent? id = some index.size)
    (spared : ∀ id, id ≠ index.size → ¬ index.TakenOver name id →
      after.parent? id = index.parent? id) :
    ∃ rank : Nat → Nat, ∀ child parent, after.parent? child = some parent →
      rank parent < rank child := by
  obtain ⟨rank, falls⟩ := sound.acyclic
  have old : ∀ {child parent}, index.parent? child = some parent → parent ≠ index.size := by
    intro child parent above
    obtain ⟨entry, found⟩ := sound.linked.exists_parent above
    intro same
    subst same
    simp [size, entry?] at found
  obtain ⟨newRank, above_parent, under⟩ : ∃ newRank,
      (∀ parent, name.properAncestors.findSome? index.idOf? = some parent →
        2 * rank parent + 2 < newRank) ∧
      ∀ child, index.parent? child = name.properAncestors.findSome? index.idOf? →
        newRank < 2 * rank child + 2 := by
    cases name.properAncestors.findSome? index.idOf? with
    | none => exact ⟨0, by simp, by simp⟩
    | some parent =>
      refine ⟨2 * rank parent + 3, by simp, fun child hangs => ?_⟩
      have less := falls child parent hangs
      omega
  refine ⟨fun id => if id = index.size then newRank else 2 * rank id + 2, fun child parent above => ?_⟩
  by_cases new : child = index.size
  · subst new
    rw [own] at above
    have known : parent ≠ index.size := by
      obtain ⟨other, -, found⟩ := List.exists_of_findSome?_eq_some above
      exact ne_size_of_nameOf? ((sound.named other parent).mp found)
    simp only [if_pos, if_neg known]
    exact above_parent parent above
  · by_cases takes : index.TakenOver name child
    · rw [taken child takes] at above
      cases above
      simp only [if_pos, if_neg new]
      exact under child takes.2
    · rw [spared child new takes] at above
      simp only [if_neg new, if_neg (old above)]
      have less := falls child parent above
      omega

/-- The last step of an insertion. -/
def attachUnder (index : Destinations) (id : Nat) : Option Nat → Except ForestError Destinations
  | some parent => index.addChild parent id
  | none => .ok index

/-- The entries that an index grown by a name takes over. -/
def takenOverIds (index : Destinations) (name : Name) (coordinate : Coordinate) : List Nat :=
  ((index.grow name coordinate).descendantIds name).filter fun child =>
    child != index.size &&
      (index.grow name coordinate).parent? child == name.properAncestors.findSome? index.idOf?

theorem insert_of_fresh (fresh : index.idOf? name = none) (coordinate : Coordinate) :
    index.insert name coordinate =
      let parent := name.properAncestors.findSome? index.idOf?
      ((index.takenOverIds name coordinate).foldlM (adopt parent index.size)
        (index.grow name coordinate)).bind fun gathered =>
          (gathered.attachUnder index.size parent).map fun attached => (index.size, attached) := by
  simp only [insert, fresh, takenOverIds]
  cases name.properAncestors.findSome? index.idOf? <;> rfl

theorem mem_takenOverIds (sound : index.Sound) (coordinate : Coordinate) (child : Nat) :
    child ∈ index.takenOverIds name coordinate ↔ index.TakenOver name child := by
  rw [takenOverIds, List.mem_filter, mem_descendantIds, Bool.and_eq_true, bne_iff_ne, beq_iff_eq,
    parent?_grow]
  constructor
  · rintro ⟨⟨below, found, under⟩, different, hangs⟩
    rw [idOf?_grow] at found
    split at found
    · exact absurd (Option.some.inj found).symm different
    · exact ⟨⟨below, found, under⟩, hangs⟩
  · intro taken
    have different := sound.ne_size_of_takenOver taken
    obtain ⟨⟨below, found, under⟩, hangs⟩ := taken
    refine ⟨⟨below, ?_, under⟩, different, hangs⟩
    have apart : below ≠ name := by
      intro same
      subst same
      simp [Name.not_strictlyCovers_self] at under
    rw [idOf?_grow, if_neg apart, found]

theorem Sound.nodup_takenOverIds (sound : index.Sound) (fresh : index.idOf? name = none)
    (coordinate : Coordinate) : (index.takenOverIds name coordinate).Nodup := by
  refine (nodup_descendantIds (index.grow name coordinate) name ?_).filter _
  intro first second id one other
  rw [sound.named_grow fresh] at one other
  exact Option.some.inj (one.symm.trans other)

/-- The new entry, still a root, takes over the entries below it without an error. -/
theorem Sound.gather (sound : index.Sound) (fresh : index.idOf? name = none) (coordinate : Coordinate) :
    ∃ gathered, (index.takenOverIds name coordinate).foldlM
        (adopt (name.properAncestors.findSome? index.idOf?) index.size) (index.grow name coordinate) =
          .ok gathered ∧
      (index.grow name coordinate).Moved gathered (index.takenOverIds name coordinate)
        (some index.size) := by
  have hasId : (index.grow name coordinate).nameOf? index.size = some name := by
    rw [nameOf?_grow, if_pos rfl]
  have root : (index.grow name coordinate).parent? index.size = none :=
    (parent?_grow _ _ _ _).trans (parent?_size index)
  refine (sound.linked.grow name coordinate).adoptAll hasId root
    (sound.nodup_takenOverIds fresh coordinate) fun child member => ?_
  have taken := (mem_takenOverIds sound coordinate child).mp member
  have different := sound.ne_size_of_takenOver taken
  obtain ⟨⟨below, found, -⟩, hangs⟩ := taken
  refine ⟨different, (parent?_grow _ _ _ _).trans hangs, below, ?_⟩
  rw [nameOf?_grow, if_neg different]
  exact (sound.named below child).mp found

/-- Taking over the entries below leaves the new entry a root with nothing of its parent below it. -/
theorem Sound.attach_grown (sound : index.Sound) {gathered : Destinations} {children : List Nat}
    (moved : (index.grow name coordinate).Moved gathered children (some index.size))
    (taken : ∀ child, child ∈ children ↔ index.TakenOver name child) :
    ∃ attached, gathered.attachUnder index.size (name.properAncestors.findSome? index.idOf?) =
        .ok attached ∧
      gathered.Moved attached [index.size] (name.properAncestors.findSome? index.idOf?) := by
  have notTaken : index.size ∉ children := fun member =>
    sound.ne_size_of_takenOver ((taken _).mp member) rfl
  have root : gathered.parent? index.size = none := by
    rw [moved.parents, if_neg notTaken, parent?_grow, parent?_size]
  cases nearest : name.properAncestors.findSome? index.idOf? with
  | none =>
    refine ⟨gathered, rfl, moved.linked, rfl, fun _ => rfl, fun _ => rfl, fun id => ?_⟩
    by_cases new : id = index.size <;> simp [new, root]
  | some parent =>
    obtain ⟨above, -, found⟩ := List.exists_of_findSome?_eq_some nearest
    have named := (sound.named above parent).mp found
    have old := ne_size_of_nameOf? named
    have hasId : gathered.nameOf? index.size = some name := by
      rw [moved.names, nameOf?_grow, if_pos rfl]
    have hasParent : gathered.nameOf? parent = some above := by
      rw [moved.names, nameOf?_grow, if_neg old, named]
    refine moved.linked.addChild hasId hasParent root ?_
    -- Upward from the parent the ranks fall, while every entry taken over has a higher rank.
    obtain ⟨rank, falls⟩ := sound.acyclic
    refine walkMeets_eq_false (fun id => rank id ≤ rank parent ∧ id ≠ index.size)
      (fun inside => inside.2 rfl) ?_ _ ⟨Nat.le_refl _, old⟩
    rintro child up ⟨low, -⟩ step
    rw [moved.parents] at step
    split at step
    · rename_i member
      have less := falls child parent (((taken child).mp member).2.trans nearest)
      omega
    · rw [parent?_grow] at step
      have less := falls child up step
      refine ⟨by omega, ?_⟩
      intro same
      subst same
      obtain ⟨entry, exists_up⟩ := sound.linked.exists_parent step
      simp [size, entry?] at exists_up

/-- Gathering the entries below and then going under the parent changes the links as it must. -/
theorem Sound.entered (sound : index.Sound) (fresh : index.idOf? name = none)
    {gathered : Destinations} {children : List Nat}
    (moved : (index.grow name coordinate).Moved gathered children (some index.size))
    (last : gathered.Moved after [index.size] (name.properAncestors.findSome? index.idOf?))
    (member : ∀ child, child ∈ children ↔ index.TakenOver name child) :
    index.Entered after name coordinate := by
  have ids : ∀ other, after.idOf? other = (index.grow name coordinate).idOf? other :=
    fun other => (last.ids other).trans (moved.ids other)
  have names : ∀ id, after.nameOf? id = (index.grow name coordinate).nameOf? id :=
    fun id => (last.names id).trans (moved.names id)
  have parents : ∀ id, id ≠ index.size → after.parent? id =
      if id ∈ children then some index.size else index.parent? id := by
    intro id old
    rw [last.parents, if_neg (by simpa using old), moved.parents, parent?_grow]
  have own : after.parent? index.size = name.properAncestors.findSome? index.idOf? := by
    rw [last.parents, if_pos (by simp)]
  have taken : ∀ id, index.TakenOver name id → after.parent? id = some index.size := by
    intro id takes
    rw [parents id (sound.ne_size_of_takenOver takes), if_pos ((member id).mpr takes)]
  have spared : ∀ id, id ≠ index.size → ¬ index.TakenOver name id →
      after.parent? id = index.parent? id := by
    intro id old apart
    rw [parents id old, if_neg (mt (member id).mp apart)]
  have acyclic := sound.acyclic_of_entered own taken spared
  refine ⟨⟨fun other id => ?_, last.linked, acyclic⟩, fun other => ?_, fun id => ?_, own, taken,
    spared⟩
  · rw [ids, names]
    exact sound.named_grow fresh coordinate other id
  · rw [ids, idOf?_grow]
  · rw [last.coordinates, moved.coordinates, coordinateOf?_grow]

/-- A new name comes in without an error, and links change only as they must. -/
theorem Sound.insert_fresh (sound : index.Sound) (fresh : index.idOf? name = none)
    (coordinate : Coordinate) :
    ∃ after, index.insert name coordinate = .ok (index.size, after) ∧
      index.Entered after name coordinate := by
  obtain ⟨gathered, folded, moved⟩ := sound.gather fresh coordinate
  have member := @mem_takenOverIds index name sound coordinate
  obtain ⟨after, attached, last⟩ := sound.attach_grown moved member
  refine ⟨after, ?_, sound.entered fresh moved last member⟩
  rw [insert_of_fresh fresh coordinate]
  dsimp only
  rw [folded, Except.bind, attached]
  rfl

end Overhear.Destinations
