import Overhear.Proofs.Destinations.Mutators

/-! What the lookups of an index answer. However its entries were moved about, it answers as a plain map
from names to their last places would. -/
namespace Overhear.Destinations

variable {index : Destinations} {places : Std.ExtTreeMap Name Coordinate} {name : Name}
  {entry : DestinationEntry}

theorem find?_eq_some_iff :
    index.find? name = some entry ↔ ∃ id, index.idOf? name = some id ∧ index.entry? id = some entry :=
  Option.bind_eq_some_iff

theorem map_coordinate_find? (index : Destinations) (name : Name) :
    (index.find? name).map (·.coordinate) = (index.idOf? name).bind index.coordinateOf? := by
  unfold find?
  cases index.idOf? name <;> rfl

/-- An exact lookup finds the entry of that name and no other one. -/
theorem Sound.name_of_find? (sound : index.Sound) (found : index.find? name = some entry) :
    entry.name = name := by
  obtain ⟨id, known, present⟩ := find?_eq_some_iff.mp found
  have named := (sound.named name id).mp known
  simpa [nameOf?, present] using named

theorem Sound.isSome_find? (sound : index.Sound) (name : Name) :
    (index.find? name).isSome = (index.idOf? name).isSome := by
  cases known : index.idOf? name with
  | none => simp [find?, known]
  | some id =>
    obtain ⟨entry, present, -⟩ := exists_of_nameOf? ((sound.named name id).mp known)
    simp [find?, known, present]

theorem Sound.findLongest?_eq_none_iff (sound : index.Sound) :
    index.findLongest? name = none ↔
      ∀ other, (index.idOf? other).isSome → other.covers name = false := by
  have searched : index.findLongest? name = none ↔ name.ancestors.findSome? index.idOf? = none := by
    cases search : name.ancestors.findSome? index.idOf? with
    | none => simp [findLongest?, search]
    | some id =>
      obtain ⟨other, -, known⟩ := List.exists_of_findSome?_eq_some search
      obtain ⟨entry, present, -⟩ := exists_of_nameOf? ((sound.named other id).mp known)
      simp [findLongest?, search, present]
  rw [searched, List.findSome?_eq_none_iff]
  constructor
  · intro missing other known
    by_contra above
    have absent := missing other (Name.mem_ancestors.mpr (by simpa using above))
    simp [absent] at known
  · intro apart other member
    by_contra known
    have above := apart other (Option.isSome_iff_ne_none.mpr known)
    simp [Name.mem_ancestors.mp member] at above

/-- The search for the longest name ends at the one entry that all others at or above are shorter than. -/
theorem Sound.findLongest?_eq_some_iff (sound : index.Sound) :
    index.findLongest? name = some entry ↔
      index.find? entry.name = some entry ∧ entry.name.covers name = true ∧
        ∀ other, (index.idOf? other).isSome → other.covers name = true → other ≠ entry.name →
          other.length < entry.name.length := by
  constructor
  · intro found
    obtain ⟨id, search, present⟩ := Option.bind_eq_some_iff.mp found
    obtain ⟨longest, member, here, longer⟩ :=
      Name.longest_of_findSome? (Name.ancestors_pairwise name) search
    have exact : index.find? longest = some entry := find?_eq_some_iff.mpr ⟨id, here, present⟩
    obtain rfl := sound.name_of_find? exact
    refine ⟨exact, Name.mem_ancestors.mp member, fun other known above different => ?_⟩
    exact (longer other (Name.mem_ancestors.mpr above) known).resolve_left different
  · rintro ⟨exact, above, longest⟩
    obtain ⟨id, here, present⟩ := find?_eq_some_iff.mp exact
    have member := Name.mem_ancestors.mpr above
    cases search : name.ancestors.findSome? index.idOf? with
    | none => simp [List.findSome?_eq_none_iff.mp search entry.name member] at here
    | some other =>
      obtain ⟨first, firstMember, firstHere, longer⟩ :=
        Name.longest_of_findSome? (Name.ancestors_pairwise name) search
      have same : first = entry.name := by
        by_contra different
        have less := longest first (by simp [firstHere]) (Name.mem_ancestors.mp firstMember) different
        rcases longer entry.name member (by simp [here]) with equal | more
        · exact different equal.symm
        · exact Nat.lt_asymm less more
      rw [same, here] at firstHere
      cases firstHere
      simp [findLongest?, search, present]

theorem findDescendants_eq (index : Destinations) (name : Name) :
    index.findDescendants name =
      (index.byName.keys.filter name.strictlyCovers).filterMap index.find? := by
  rw [findDescendants, descendantIds, Name.descendantsIn_eq_filter Std.ExtTreeMap.ordered_keys,
    List.filterMap_filterMap]
  rfl

theorem Sound.mem_findDescendants (sound : index.Sound) :
    entry ∈ index.findDescendants name ↔
      index.find? entry.name = some entry ∧ name.strictlyCovers entry.name = true := by
  simp only [findDescendants_eq, List.mem_filterMap, List.mem_filter, mem_keys_byName]
  constructor
  · rintro ⟨below, ⟨-, under⟩, found⟩
    obtain rfl := sound.name_of_find? found
    exact ⟨found, under⟩
  · rintro ⟨found, under⟩
    obtain ⟨id, known, -⟩ := find?_eq_some_iff.mp found
    exact ⟨entry.name, ⟨⟨id, known⟩, under⟩, found⟩

theorem Sound.findDescendants_inOrder (sound : index.Sound) (name : Name) :
    (index.findDescendants name).Pairwise fun first second =>
      compare first.name second.name = .lt := by
  rw [findDescendants_eq]
  refine List.Pairwise.filterMap index.find? ?_ (Std.ExtTreeMap.ordered_keys.filter _)
  intro low high before first foundFirst second foundSecond
  rwa [sound.name_of_find? foundFirst, sound.name_of_find? foundSecond]

/-- An insertion sets the place of its name, and links tell nothing of places. -/
def Call.note (places : Std.ExtTreeMap Name Coordinate) : Call → Std.ExtTreeMap Name Coordinate
  | .insert name coordinate => places.insert name coordinate
  | .addChild .. | .removeChild .. => places

/-- The last place inserted for each name. -/
def placesOf (calls : List Call) : Std.ExtTreeMap Name Coordinate := calls.foldl Call.note ∅

/-- The index has an entry for each of the places, and for no other name. -/
structure Holds (index : Destinations) (places : Std.ExtTreeMap Name Coordinate) : Prop where
  sound : index.Sound
  place : ∀ name, (index.idOf? name).bind index.coordinateOf? = places[name]?

theorem Holds.empty : Holds {} ∅ where
  sound := .empty
  place := by simp [idOf?]

theorem Holds.moved {after : Destinations} {children : List Nat} {parent : Option Nat}
    (holds : index.Holds places) (moved : index.Moved after children parent) (sound : after.Sound) :
    after.Holds places where
  sound := sound
  place name := by
    have coordinates : after.coordinateOf? = index.coordinateOf? := funext moved.coordinates
    rw [moved.ids, coordinates, holds.place]

theorem Holds.insert (holds : index.Holds places) (name : Name) (coordinate : Coordinate) :
    ∃ id after, index.insert name coordinate = .ok (id, after) ∧
      after.Holds (places.insert name coordinate) := by
  have noted : ∀ other, (places.insert name coordinate)[other]? =
      if other = name then some coordinate else places[other]? := by
    intro other
    simp only [Std.ExtTreeMap.getElem?_insert, Std.compare_eq_iff_eq, eq_comm (a := name)]
  cases known : index.idOf? name with
  | none =>
    obtain ⟨after, inserted, entered⟩ := holds.sound.insert_fresh known coordinate
    refine ⟨_, after, inserted, entered.sound, fun other => ?_⟩
    rw [noted, ← holds.place, entered.place holds.sound]
  | some id =>
    obtain ⟨after, inserted, replaced⟩ := holds.sound.insert_known known coordinate
    refine ⟨id, after, inserted, replaced.sound, fun other => ?_⟩
    rw [noted, ← holds.place, replaced.place holds.sound known]

theorem Holds.of_insert {name : Name} {coordinate : Coordinate} {id : Nat} {after : Destinations}
    (holds : index.Holds places) (inserted : index.insert name coordinate = .ok (id, after)) :
    after.Holds (places.insert name coordinate) := by
  obtain ⟨other, final, same, kept⟩ := holds.insert name coordinate
  obtain ⟨-, rfl⟩ := Prod.mk.inj (Except.ok.inj (inserted.symm.trans same))
  exact kept

theorem Holds.leaves (holds : index.Holds places) (call : Call) :
    (call.leaves index).Holds (call.note places) := by
  cases call with
  | insert name coordinate =>
    obtain ⟨id, after, inserted, kept⟩ := holds.insert name coordinate
    rw [Call.leaves, insertInPlace_of_ok inserted]
    exact kept
  | addChild parent child =>
    cases added : index.addChild parent child with
    | error cause =>
      rw [Call.leaves, attachInPlace_of_error added]
      exact holds
    | ok after =>
      rw [Call.leaves, attachInPlace_of_ok added]
      exact holds.moved (holds.sound.linked.addChild_moved added) (holds.sound.addChild added)
  | removeChild parent child =>
    cases removed : index.removeChild parent child with
    | error cause =>
      rw [Call.leaves, detachInPlace_of_error removed]
      exact holds
    | ok after =>
      rw [Call.leaves, detachInPlace_of_ok removed]
      exact holds.moved (holds.sound.linked.removeChild_moved removed) (holds.sound.removeChild removed)

theorem holds_leftBy (calls : List Call) : (leftBy calls).Holds (placesOf calls) := by
  have kept : ∀ index places, Holds index places →
      (calls.foldl Call.leaves index).Holds (calls.foldl Call.note places) := by
    induction calls with
    | nil => exact fun _ _ holds => holds
    | cons call rest ih => exact fun index places holds => ih _ _ (holds.leaves call)
  exact kept {} ∅ .empty

/-- An index answers its lookups as a map from names to places does. -/
structure AgreesWith (index : Destinations) (places : Std.ExtTreeMap Name Coordinate) : Prop where
  place : ∀ name, (index.find? name).map (·.coordinate) = places[name]?
  named : ∀ name entry, index.find? name = some entry → entry.name = name
  longest : ∀ name entry, index.findLongest? name = some entry ↔
    index.find? entry.name = some entry ∧ entry.name.covers name = true ∧
      ∀ other ∈ places, other.covers name = true → other ≠ entry.name →
        other.length < entry.name.length
  unlisted : ∀ name, index.findLongest? name = none ↔ ∀ other ∈ places, other.covers name = false
  below : ∀ name entry, entry ∈ index.findDescendants name ↔
    index.find? entry.name = some entry ∧ name.strictlyCovers entry.name = true
  inOrder : ∀ name, (index.findDescendants name).Pairwise fun first second =>
    compare first.name second.name = .lt

theorem Holds.mem_iff (holds : index.Holds places) (name : Name) :
    name ∈ places ↔ (index.idOf? name).isSome = true := by
  rw [Std.ExtTreeMap.mem_iff_isSome_getElem?, ← holds.place, ← map_coordinate_find?,
    Option.isSome_map, holds.sound.isSome_find?]

theorem Holds.agreesWith (holds : index.Holds places) : index.AgreesWith places where
  place name := (map_coordinate_find? index name).trans (holds.place name)
  named _ _ := holds.sound.name_of_find?
  longest name entry := by
    simp only [holds.mem_iff]
    exact holds.sound.findLongest?_eq_some_iff
  unlisted name := by
    simp only [holds.mem_iff]
    exact holds.sound.findLongest?_eq_none_iff
  below _ _ := holds.sound.mem_findDescendants
  inOrder := holds.sound.findDescendants_inOrder

/-- Whatever calls came before, lookups see the places inserted last and nothing of the links. -/
theorem lookups_agree_with_map (calls : List Call) : (leftBy calls).AgreesWith (placesOf calls) :=
  (holds_leftBy calls).agreesWith

/-- Names that only start with the same letters come after all that lies under a name. -/
example : ((leftBy [.insert ⟨["a0"]⟩ .unknown, .insert ⟨["a", "b"]⟩ .unknown,
      .insert ⟨["a"]⟩ .unknown, .removeChild 2 1,
      .insert ⟨["a", "b", "c"]⟩ .unknown]).findDescendants ⟨["a"]⟩).map (·.name) =
    [⟨["a", "b"]⟩, ⟨["a", "b", "c"]⟩] := by decide +kernel

end Overhear.Destinations
