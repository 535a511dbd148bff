import Mathlib.Data.List.Induction
import Overhear.Proofs.Destinations.Insertion

/-! The forest that insertions build. Whatever their order, each inserted name has one entry, at the last
place inserted for it and under the nearest inserted name above it. -/
namespace Overhear.Destinations

variable {index after : Destinations} {places : List (Name × Coordinate)} {name : Name}
  {coordinate : Coordinate}

/-- Record places one after the other. -/
def insertAll (index : Destinations) (places : List (Name × Coordinate)) :
    Except ForestError Destinations :=
  places.foldlM (fun index place => (index.insert place.1 place.2).map (·.2)) index

/-- The last place inserted for a name. -/
def lastPlace (places : List (Name × Coordinate)) (name : Name) : Option Coordinate :=
  places.reverse.lookup name

theorem lastPlace_concat (places : List (Name × Coordinate)) (name other : Name)
    (coordinate : Coordinate) :
    lastPlace (places ++ [(name, coordinate)]) other =
      if other = name then some coordinate else lastPlace places other := by
  rw [lastPlace, List.reverse_concat, List.lookup_cons]
  by_cases same : other = name
  · simp [same]
  · rw [if_neg same, beq_eq_false_iff_ne.mpr same, lastPlace]

theorem isSome_lastPlace (places : List (Name × Coordinate)) (name : Name) :
    (lastPlace places name).isSome = true ↔ name ∈ places.map Prod.fst := by
  induction places using List.reverseRecOn with
  | nil => simp [lastPlace]
  | append_singleton places place ih =>
    rw [lastPlace_concat]
    by_cases same : name = place.1
    · simp [same]
    · rw [if_neg same, ih]
      simp [same]

/-- A new name is found before what lies above it, and only from names under it. -/
theorem findSome?_entered {find findAfter : Name → Option Nat} {id : Nat} (fresh : find name = none)
    (ids : ∀ other, findAfter other = if other = name then some id else find other)
    (injective : ∀ first second id, find first = some id → find second = some id → first = second)
    (below : Name) :
    (name.strictlyCovers below = true ∧ below.properAncestors.findSome? find =
        name.properAncestors.findSome? find →
      below.properAncestors.findSome? findAfter = some id) ∧
    (¬ (name.strictlyCovers below = true ∧ below.properAncestors.findSome? find =
        name.properAncestors.findSome? find) →
      below.properAncestors.findSome? findAfter = below.properAncestors.findSome? find) := by
  have agree : ∀ names : List Name, name ∉ names → names.findSome? findAfter = names.findSome? find := by
    intro names absent
    induction names with
    | nil => rfl
    | cons other rest ih =>
      simp only [List.mem_cons, not_or] at absent
      obtain ⟨different, absent⟩ := absent
      rw [List.findSome?_cons, List.findSome?_cons, ids, if_neg (Ne.symm different), ih absent]
  by_cases under : name.strictlyCovers below = true
  · obtain ⟨longer, split, deeper⟩ := Name.properAncestors_split under
    have absent : name ∉ longer := fun member => by
      simpa [Name.not_strictlyCovers_self] using deeper name member
    rw [split, List.findSome?_append, List.findSome?_append, agree longer absent,
      List.findSome?_cons, List.findSome?_cons, ids, if_pos rfl, fresh]
    cases nearest : longer.findSome? find with
    | none => simp [under]
    | some other =>
      simp only [Option.some_or, implies_true, and_true]
      rintro ⟨-, same⟩
      -- The same entry would be found at a name below `name` and at one above it.
      obtain ⟨low, lowMember, foundLow⟩ := List.exists_of_findSome?_eq_some nearest
      obtain ⟨high, highMember, foundHigh⟩ := List.exists_of_findSome?_eq_some same.symm
      have one := injective low high other foundLow foundHigh
      have circle := Name.strictlyCovers_trans (deeper low lowMember)
        (one ▸ Name.mem_properAncestors.mp highMember)
      simp [Name.not_strictlyCovers_self] at circle
  · have absent : name ∉ below.properAncestors := mt Name.mem_properAncestors.mp under
    simp [under, agree _ absent]

/-- The index is the forest of the places inserted so far. -/
structure Charts (index : Destinations) (places : List (Name × Coordinate)) : Prop where
  sound : index.Sound
  placed : ∀ name, (index.idOf? name).bind index.coordinateOf? = lastPlace places name
  nearest : ∀ name id, index.idOf? name = some id →
    index.parent? id = name.properAncestors.findSome? index.idOf?

theorem Charts.empty : Charts {} [] where
  sound := .empty
  placed := by simp [idOf?, lastPlace]
  nearest := by simp [idOf?]

theorem Charts.replaced (charts : index.Charts places) {id : Nat} (known : index.idOf? name = some id)
    (replaced : index.Replaced after id coordinate) :
    after.Charts (places ++ [(name, coordinate)]) where
  sound := replaced.sound
  placed other := by
    rw [lastPlace_concat, ← charts.placed other]
    exact replaced.place charts.sound known other
  nearest other otherId found := by
    have sameIds : after.idOf? = index.idOf? := funext replaced.ids
    rw [sameIds] at found ⊢
    rw [replaced.parents, charts.nearest other otherId found]

theorem Charts.entered (charts : index.Charts places) (fresh : index.idOf? name = none)
    (entered : index.Entered after name coordinate) :
    after.Charts (places ++ [(name, coordinate)]) where
  sound := entered.sound
  placed other := by
    rw [lastPlace_concat, ← charts.placed other]
    exact entered.place charts.sound other
  nearest other id found := by
    have search := findSome?_entered fresh entered.ids
      (fun first second id => charts.sound.idOf?_injective) other
    rw [entered.ids] at found
    by_cases same : other = name
    · subst same
      rw [if_pos rfl] at found
      obtain rfl := Option.some.inj found
      rw [search.2 (by simp [Name.not_strictlyCovers_self])]
      exact entered.own
    · rw [if_neg same] at found
      have old := ne_size_of_nameOf? ((charts.sound.named other id).mp found)
      have hangs := charts.nearest other id found
      by_cases takes : name.strictlyCovers other = true ∧
          other.properAncestors.findSome? index.idOf? = name.properAncestors.findSome? index.idOf?
      · rw [search.1 takes]
        exact entered.taken id ⟨⟨other, found, takes.1⟩, hangs.trans takes.2⟩
      · rw [search.2 takes, ← hangs]
        refine entered.spared id old ?_
        rintro ⟨⟨below, foundBelow, under⟩, sameParent⟩
        obtain rfl := charts.sound.idOf?_injective found foundBelow
        exact takes ⟨under, hangs.symm.trans sameParent⟩

theorem Charts.insert (charts : index.Charts places) (name : Name) (coordinate : Coordinate) :
    ∃ id after, index.insert name coordinate = .ok (id, after) ∧
      after.Charts (places ++ [(name, coordinate)]) := by
  cases known : index.idOf? name with
  | none =>
    obtain ⟨after, inserted, entered⟩ := charts.sound.insert_fresh known coordinate
    exact ⟨_, after, inserted, charts.entered known entered⟩
  | some id =>
    obtain ⟨after, inserted, replaced⟩ := charts.sound.insert_known known coordinate
    exact ⟨id, after, inserted, charts.replaced known replaced⟩

theorem Charts.insertAll (charts : index.Charts places) (more : List (Name × Coordinate)) :
    ∃ after, index.insertAll more = .ok after ∧ after.Charts (places ++ more) := by
  induction more generalizing index places with
  | nil => exact ⟨index, rfl, by simpa using charts⟩
  | cons place rest ih =>
    obtain ⟨id, middle, inserted, middleCharts⟩ := charts.insert place.1 place.2
    obtain ⟨after, insertedRest, afterCharts⟩ := ih middleCharts
    refine ⟨after, ?_, by simpa using afterCharts⟩
    rw [Destinations.insertAll, List.foldlM_cons, inserted]
    exact insertedRest

/-- Each inserted name has one entry, and the entries hang together as the names lie above each other. -/
structure PrefixForest (index : Destinations) (places : List (Name × Coordinate)) : Prop where
  once : ∀ name ∈ places.map Prod.fst, ∃! id, index.nameOf? id = some name
  inserted : ∀ id name, index.nameOf? id = some name → name ∈ places.map Prod.fst
  found : ∀ name id, index.idOf? name = some id ↔ index.nameOf? id = some name
  last : ∀ id name, index.nameOf? id = some name → index.coordinateOf? id = lastPlace places name
  parent : ∀ id name, index.nameOf? id = some name → ∀ parent, index.parent? id = some parent ↔
    ∃ above, index.nameOf? parent = some above ∧
      Name.IsNearest (· ∈ places.map Prod.fst) name above
  root : ∀ id name, index.nameOf? id = some name → (index.parent? id = none ↔
    ∀ other ∈ places.map Prod.fst, other.strictlyCovers name = false)
  children : ∀ id entry, index.entry? id = some entry → ∀ child, child ∈ entry.children ↔
    index.parent? child = some id

theorem Charts.isSome_idOf? (charts : index.Charts places) (name : Name) :
    (index.idOf? name).isSome = true ↔ name ∈ places.map Prod.fst := by
  rw [← isSome_lastPlace, ← charts.placed name]
  cases found : index.idOf? name with
  | none => simp
  | some id =>
    obtain ⟨entry, exists_id, -⟩ := exists_of_nameOf? ((charts.sound.named name id).mp found)
    simp [coordinateOf?, exists_id]

theorem Charts.prefixForest (charts : index.Charts places) : index.PrefixForest places := by
  have present : (fun other => (index.idOf? other).isSome = true) = (· ∈ places.map Prod.fst) :=
    funext fun other => propext (charts.isSome_idOf? other)
  have nearest : ∀ id name parent, index.nameOf? id = some name → index.parent? id = some parent →
      ∃ above, index.nameOf? parent = some above ∧
        Name.IsNearest (· ∈ places.map Prod.fst) name above := by
    intro id name parent named up
    rw [charts.nearest name id ((charts.sound.named name id).mpr named)] at up
    obtain ⟨above, foundAbove, near⟩ := Name.nearest_of_findSome? up
    rw [present] at near
    exact ⟨above, (charts.sound.named above parent).mp foundAbove, near⟩
  have root : ∀ id name, index.nameOf? id = some name → (index.parent? id = none ↔
      ∀ other ∈ places.map Prod.fst, other.strictlyCovers name = false) := by
    intro id name named
    rw [charts.nearest name id ((charts.sound.named name id).mpr named), List.findSome?_eq_none_iff]
    constructor
    · intro missing other member
      by_contra under
      have nothing := missing other (Name.mem_properAncestors.mpr (by simpa using under))
      rw [← charts.isSome_idOf?, nothing] at member
      cases member
    · intro apart above member
      by_contra found
      have inserted := (charts.isSome_idOf? above).mp (Option.isSome_iff_ne_none.mpr found)
      simpa [Name.mem_properAncestors.mp member] using apart above inserted
  constructor
  · intro name member
    obtain ⟨id, found⟩ := Option.isSome_iff_exists.mp ((charts.isSome_idOf? name).mpr member)
    refine ⟨id, (charts.sound.named name id).mp found, fun other named => ?_⟩
    have again := (charts.sound.named name other).mpr named
    exact Option.some.inj (again.symm.trans found)
  · intro id name named
    rw [← charts.isSome_idOf?, (charts.sound.named name id).mpr named]
    rfl
  · exact charts.sound.named
  · intro id name named
    rw [← charts.placed name, (charts.sound.named name id).mpr named]
    rfl
  · intro id name named parent
    refine ⟨nearest id name parent named, ?_⟩
    rintro ⟨above, namedParent, near⟩
    cases up : index.parent? id with
    | none => simpa [near.under] using (root id name named).mp up above near.named
    | some other =>
      obtain ⟨otherAbove, namedOther, nearOther⟩ := nearest id name other named up
      have same := near.unique nearOther
      rw [← charts.sound.named] at namedParent namedOther
      rw [← namedParent, same, namedOther]
  · exact root
  · intro id entry found child
    rw [← charts.sound.linked id child]
    simp [HasChild, found]

/-- An entry read by names only. -/
structure Portrait where
  coordinate : Coordinate
  parent : Option Name
  children : Name → Prop

def portrait? (index : Destinations) (name : Name) : Option Portrait :=
  (index.find? name).map fun entry =>
    ⟨entry.coordinate, entry.parent >>= index.nameOf?,
      fun child => ∃ id ∈ entry.children, index.nameOf? id = some child⟩

theorem portrait?_of_absent (forest : index.PrefixForest places) (absent : name ∉ places.map Prod.fst) :
    index.portrait? name = none := by
  cases found : index.idOf? name with
  | none => simp [portrait?, find?, found]
  | some id => exact absurd (forest.inserted id name ((forest.found name id).mp found)) absent

/-- What the portrait of a name shows is decided by which names were inserted, and where last. -/
theorem portrait?_of_inserted (forest : index.PrefixForest places)
    (member : name ∈ places.map Prod.fst) :
    ∃ coordinate parent, index.portrait? name = some ⟨coordinate, parent,
        fun child => child ∈ places.map Prod.fst ∧
          Name.IsNearest (· ∈ places.map Prod.fst) child name⟩ ∧
      lastPlace places name = some coordinate ∧
      ∀ above, parent = some above ↔ Name.IsNearest (· ∈ places.map Prod.fst) name above := by
  obtain ⟨id, named, -⟩ := forest.once name member
  obtain ⟨entry, found, -⟩ := exists_of_nameOf? named
  have located := forest.last id name named
  have up : index.parent? id = entry.parent := by simp [parent?, found]
  have children : (fun child => ∃ childId ∈ entry.children, index.nameOf? childId = some child) =
      fun child => child ∈ places.map Prod.fst ∧
        Name.IsNearest (· ∈ places.map Prod.fst) child name := by
    refine funext fun child => propext ⟨?_, ?_⟩
    · rintro ⟨childId, hangs, namedChild⟩
      have childUp := (forest.children id entry found childId).mp hangs
      obtain ⟨above, namedAbove, near⟩ := (forest.parent childId child namedChild id).mp childUp
      obtain rfl := Option.some.inj (namedAbove.symm.trans named)
      exact ⟨forest.inserted childId child namedChild, near⟩
    · rintro ⟨childMember, near⟩
      obtain ⟨childId, namedChild, -⟩ := forest.once child childMember
      have childUp := (forest.parent childId child namedChild id).mpr ⟨name, named, near⟩
      exact ⟨childId, (forest.children id entry found childId).mpr childUp, namedChild⟩
  refine ⟨entry.coordinate, entry.parent >>= index.nameOf?, ?_, ?_, fun above => ?_⟩
  · simp only [portrait?, find?, (forest.found name id).mpr named, Option.bind_eq_bind,
      Option.bind_some, found, Option.map_some, children]
  · rw [← located, coordinateOf?, found]
    rfl
  · rw [← up]
    constructor
    · intro shown
      obtain ⟨parent, parentUp, namedParent⟩ := Option.bind_eq_some_iff.mp shown
      obtain ⟨other, namedOther, near⟩ := (forest.parent id name named parent).mp parentUp
      obtain rfl := Option.some.inj (namedOther.symm.trans namedParent)
      exact near
    · intro near
      obtain ⟨parent, namedParent, -⟩ := forest.once above near.named
      have parentUp := (forest.parent id name named parent).mpr ⟨above, namedParent, near⟩
      exact Option.bind_eq_some_iff.mpr ⟨parent, parentUp, namedParent⟩

theorem PrefixForest.portrait?_eq {other : Destinations} {others : List (Name × Coordinate)}
    (first : index.PrefixForest places) (second : other.PrefixForest others)
    (same : ∀ name, lastPlace others name = lastPlace places name) (name : Name) :
    other.portrait? name = index.portrait? name := by
  have members : (· ∈ others.map Prod.fst) = (· ∈ places.map Prod.fst) :=
    funext fun name => propext (by rw [← isSome_lastPlace, same, isSome_lastPlace])
  have sameMember : name ∈ others.map Prod.fst ↔ name ∈ places.map Prod.fst :=
    iff_of_eq (congrFun members name)
  by_cases member : name ∈ places.map Prod.fst
  · obtain ⟨coordinate, parent, shown, last, up⟩ := portrait?_of_inserted first member
    obtain ⟨otherCoordinate, otherParent, otherShown, otherLast, otherUp⟩ :=
      portrait?_of_inserted second (sameMember.mpr member)
    have sameCoordinate : otherCoordinate = coordinate :=
      Option.some.inj (otherLast.symm.trans ((same name).trans last))
    have sameParent : otherParent = parent := Option.ext fun above => by
      rw [otherUp, up, members]
    rw [otherShown, shown, sameCoordinate, sameParent]
    have sameChildren : (fun child => child ∈ others.map Prod.fst ∧
        Name.IsNearest (· ∈ others.map Prod.fst) child name) =
        fun child => child ∈ places.map Prod.fst ∧
          Name.IsNearest (· ∈ places.map Prod.fst) child name :=
      funext fun child => by rw [members, congrFun members child]
    rw [sameChildren]
  · rw [portrait?_of_absent first member, portrait?_of_absent second (mt sameMember.mp member)]

/-- Every sequence of insertions succeeds and builds the forest of its names. Sequences that end with the
same places for the same names build the same forest. -/
theorem insertions_build_prefix_forest (places : List (Name × Coordinate)) :
    ∃ index, insertAll {} places = .ok index ∧ index.PrefixForest places ∧
      ∀ others, (∀ name, lastPlace others name = lastPlace places name) →
        ∃ other, insertAll {} others = .ok other ∧
          ∀ name, other.portrait? name = index.portrait? name := by
  obtain ⟨index, inserted, charts⟩ := Charts.empty.insertAll places
  refine ⟨index, inserted, charts.prefixForest, fun others same => ?_⟩
  obtain ⟨other, insertedOthers, otherCharts⟩ := Charts.empty.insertAll others
  exact ⟨other, insertedOthers, charts.prefixForest.portrait?_eq otherCharts.prefixForest same⟩

/-- A chain of three names whose middle one comes last, with the top one placed before it. -/
def middleLast : List (Name × Coordinate) :=
  [(⟨["a", "b", "c"]⟩, ⟨.zero, ⟨3⟩⟩), (⟨["a"]⟩, ⟨.zero, ⟨1⟩⟩), (⟨["a", "b"]⟩, ⟨.zero, ⟨2⟩⟩)]

/-- The same chain from the top, whose top name is placed twice. -/
def topFirst : List (Name × Coordinate) :=
  [(⟨["a"]⟩, ⟨.zero, ⟨2⟩⟩), (⟨["a", "b"]⟩, ⟨.zero, ⟨2⟩⟩), (⟨["a", "b", "c"]⟩, ⟨.zero, ⟨3⟩⟩),
    (⟨["a"]⟩, ⟨.zero, ⟨1⟩⟩)]

theorem insertions_build_prefix_forest_middle_last :
    ∃ index other, insertAll {} middleLast = .ok index ∧ insertAll {} topFirst = .ok other ∧
      index.parent? 0 = some 2 ∧ index.parent? 2 = some 1 ∧ index.parent? 1 = none ∧
      ∀ name, other.portrait? name = index.portrait? name := by
  have same : ∀ name, lastPlace topFirst name = lastPlace middleLast name := by
    intro name
    by_cases top : name = ⟨["a"]⟩
    · subst top
      decide
    · by_cases middle : name = ⟨["a", "b"]⟩
      · subst middle
        decide
      · by_cases low : name = ⟨["a", "b", "c"]⟩
        · subst low
          decide
        · simp [lastPlace, topFirst, middleLast, List.lookup_cons, beq_eq_false_iff_ne.mpr top,
            beq_eq_false_iff_ne.mpr middle, beq_eq_false_iff_ne.mpr low]
  obtain ⟨index, inserted, -, alike⟩ := insertions_build_prefix_forest middleLast
  obtain ⟨other, insertedOther, portraits⟩ := alike topFirst same
  have links : ((insertAll {} middleLast).toOption.map fun index =>
      (index.parent? 0, index.parent? 2, index.parent? 1)) = some (some 2, some 1, none) := by
    decide +kernel
  rw [inserted] at links
  simp only [Except.toOption, Option.map_some, Option.some.injEq, Prod.mk.injEq] at links
  obtain ⟨low, middle, top⟩ := links
  exact ⟨index, other, inserted, insertedOther, low, middle, top, portraits⟩

end Overhear.Destinations
