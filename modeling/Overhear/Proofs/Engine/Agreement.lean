import Overhear.Proofs.Engine.Journal
import Overhear.Proofs.Score.Pairing

/-! The two places where an engine keeps destinations. Scores expire and are made anew while the index stays,
but what the scores still have is what the index has, so the index alone decides where a request is headed. -/
namespace Overhear

namespace Name

theorem covers_statistics (name : Name) : name.statistics.covers name = true := by
  apply covers_iff.mpr
  unfold statistics parent?
  split
  · exact List.nil_prefix
  · exact List.take_prefix _ _

end Name

namespace ScoreBook

variable {α : Type} [Scalar α] {book : ScoreBook α} {announcements : List (Name × Coordinate)}

theorem Paired.enter (paired : book.Paired) (entry : Entry) : (book.enter entry).Paired := by
  cases entry with
  | retimed timers => exact paired.of_same (fun _ => Iff.rfl) (fun _ => rfl) fun _ => rfl
  | request key => exact paired.creditRequest key.name key.face
  | learned key destination =>
    cases destination with
    | none => exact paired.creditResponse key.name key.face
    | some destination => exact paired.creditResponse_setDestination key.name destination key.face
  | fired firing => exact paired.fire firing
  | swept => exact paired.sweep
  | closed => exact paired.shutdown

/-- Every destination kept with the scores is that of its name. -/
def Recalls (book : ScoreBook α) (places : Std.ExtTreeMap Name Coordinate) : Prop :=
  ∀ name destination, book.placeOf? name = some destination → places[name]? = some destination

theorem Recalls.learn (recalls : book.Recalls (lastPlaces announcements)) (key : ScoreKey)
    (place : Coordinate) :
    (book.learn key (some place)).Recalls (lastPlaces (announcements ++ [(key.name, place)])) := by
  intro name destination found
  change ((book.setDestination key.name place).creditResponse key.name key.face).placeOf? name =
    some destination at found
  rw [placeOf?_creditResponse, placeOf?_setDestination] at found
  rw [lastPlaces_append]
  simp only [List.foldl_cons, List.foldl_nil, Std.ExtTreeMap.getElem?_insert, Std.compare_eq_iff_eq]
  split at found
  · rename_i same
    rw [if_pos same.symm]
    exact found
  · rename_i different
    rw [if_neg (Ne.symm different)]
    exact recalls name destination found

theorem Recalls.enter (recalls : book.Recalls (lastPlaces announcements)) (entry : Entry) :
    (book.enter entry).Recalls (lastPlaces (announcements ++ entry.place?.toList)) := by
  have kept : ∀ after : ScoreBook α, (∀ name, after.placeOf? name = book.placeOf? name) →
      after.Recalls (lastPlaces (announcements ++ [])) := by
    intro after same name destination found
    rw [List.append_nil]
    exact recalls name destination ((same name).symm.trans found)
  cases entry with
  | retimed timers => exact kept _ fun _ => rfl
  | request key => exact kept _ fun name => placeOf?_creditRequest ..
  | learned key destination =>
    cases destination with
    | none => exact kept _ fun name => placeOf?_creditResponse ..
    | some place => exact recalls.learn key place
  | fired firing => exact kept _ fun name => placeOf?_fire ..
  | swept =>
    intro name destination found
    change book.sweep.2.placeOf? name = some destination at found
    rw [placeOf?_sweep] at found
    split at found
    · cases found
    · exact kept book (fun _ => rfl) name destination found
  | closed => exact kept _ fun name => placeOf?_shutdown ..

theorem Recalls.enterAll (recalls : book.Recalls (lastPlaces announcements)) (journal : List Entry) :
    (journal.foldl ScoreBook.enter book).Recalls
      (lastPlaces (announcements ++ journal.filterMap Entry.place?)) := by
  induction journal generalizing book announcements with
  | nil =>
    rw [List.filterMap_nil, List.append_nil]
    exact recalls
  | cons entry rest ih =>
    have later := ih (recalls.enter entry)
    rw [List.append_assoc] at later
    have split : (entry :: rest).filterMap Entry.place? =
        entry.place?.toList ++ rest.filterMap Entry.place? := by
      cases placed : entry.place? <;> simp [placed]
    rw [split]
    exact later

end ScoreBook

namespace Engine

variable {start engine : Engine} {history : History}

/-- The destinations that an engine has kept: the last ones announced, if its variant tracks them. -/
def placesKept (start : Engine) (history : History) : Std.ExtTreeMap Name Coordinate :=
  if start.variant.tracksAnnouncements then history.places else ∅

theorem isKnown_of_placesKept {name : Name} {destination : Coordinate}
    (placed : (start.placesKept history)[name]? = some destination) : destination.isKnown = true := by
  unfold placesKept at placed
  split at placed
  · exact History.isKnown_of_places placed
  · simp at placed

theorem holds_placesKept (run : Run start history engine) (fresh : start.destinations = {}) :
    engine.destinations.Holds (start.placesKept history) := by
  unfold placesKept
  cases tracked : start.variant.tracksAnnouncements with
  | true => exact holds_places run fresh tracked
  | false =>
    rw [destinations_of_untracked run fresh tracked]
    exact .empty

theorem recalls_placesKept (run : Run start history engine) (named : start.Named)
    (fresh : ∀ name, start.book.placeOf? name = none) :
    engine.book.Recalls (start.placesKept history) := by
  obtain ⟨journal, journals⟩ := exists_journal run named
  have nothing : start.book.Recalls (lastPlaces []) := by
    intro name destination found
    rw [fresh] at found
    cases found
  have recalls := nothing.enterAll journal
  rw [← journals.book, journals.places] at recalls
  unfold placesKept
  cases tracked : start.variant.tracksAnnouncements with
  | true => simpa [tracked, History.places] using recalls
  | false => simpa [tracked, lastPlaces] using recalls

/-- In every run the index has the destinations that are kept, and what the scores have are some of them. -/
theorem kept_of_run {config : Config Float} {entropy : UInt64} {built : Engine}
    (created : Engine.create config entropy = .ok built) (records : Records)
    (run : Run (built.withRecords records) history engine) :
    engine.destinations.Holds ((built.withRecords records).placesKept history) ∧
      engine.book.Recalls ((built.withRecords records).placesKept history) := by
  have named : (built.withRecords records).Named := named_of_run created records .start
  obtain ⟨instanceName, seed, rfl⟩ := eq_start_of_create created
  refine ⟨holds_placesKept run rfl, recalls_placesKept run named fun name => ?_⟩
  simp [withRecords, Engine.start, ScoreBook.placeOf?, ScoreBook.standing?]

/-- What the record table, the scores and the index of an engine have to do with each other. -/
structure StoresAgree (engine : Engine) : Prop where
  recorded : ∀ name, name ∈ engine.book.standings ↔ engine.book.records.contains name = true
  scored : ∀ name, engine.book.Scored name ↔ engine.book.records.contains name = true
  places : ∀ name destination, engine.book.placeOf? name = some destination →
    (engine.destinations.find? name).map (·.coordinate) = some destination
  known : ∀ id entry, engine.destinations.entry? id = some entry → entry.coordinate.isKnown = true
  fallback : ∀ name, engine.destinations.findLongest? name = none →
    engine.book.destination? name.statistics = none
  decided : ∀ name, engine.knownDestination? name =
    (engine.destinations.findLongest? name).map (·.coordinate)

/-- What the scores have, wherever they have it, the index has. -/
theorem destination?_of_unfound {places : Std.ExtTreeMap Name Coordinate} {name : Name}
    (holds : engine.destinations.Holds places) (recalls : engine.book.Recalls places)
    (unfound : engine.destinations.findLongest? name = none) :
    engine.book.destination? name.statistics = none := by
  apply Option.eq_none_iff_forall_ne_some.mpr
  intro destination found
  obtain ⟨above, member, kept⟩ := List.exists_of_findSome?_eq_some found
  obtain ⟨placed, -⟩ := Std.ExtTreeMap.getElem?_eq_some_iff.mp (recalls above destination kept)
  have covered := Name.covers_trans (Name.mem_ancestors.mp member) name.covers_statistics
  have apart := holds.sound.findLongest?_eq_none_iff.mp unfound above ((holds.mem_iff above).mp placed)
  rw [covered] at apart
  cases apart

/-- What the scores remember never decides where a request is headed. -/
theorem knownDestination?_eq {places : Std.ExtTreeMap Name Coordinate}
    (holds : engine.destinations.Holds places) (recalls : engine.book.Recalls places) (name : Name) :
    engine.knownDestination? name =
      (engine.destinations.findLongest? name).map (·.coordinate) := by
  unfold knownDestination?
  cases found : engine.destinations.findLongest? name with
  | none =>
    rw [destination?_of_unfound holds recalls found]
    rfl
  | some entry => rfl

theorem StoresAgree.of_kept {places : Std.ExtTreeMap Name Coordinate} (paired : engine.book.Paired)
    (holds : engine.destinations.Holds places) (recalls : engine.book.Recalls places)
    (known : ∀ (name : Name) (destination : Coordinate), places[name]? = some destination →
      destination.isKnown = true) :
    engine.StoresAgree where
  recorded := paired.recorded
  scored := paired.scored_iff
  places name destination kept := (holds.agreesWith.place name).trans (recalls name destination kept)
  known id entry found := by
    have named : engine.destinations.nameOf? id = some entry.name := by simp [Destinations.nameOf?, found]
    have place := holds.place entry.name
    rw [(holds.sound.named entry.name id).mpr named] at place
    refine known entry.name entry.coordinate (place.symm.trans ?_)
    simp [Destinations.coordinateOf?, found]
  fallback _ := destination?_of_unfound holds recalls
  decided := knownDestination?_eq holds recalls

/-- In every run that starts with an empty record table the stores agree. -/
theorem stores_agree {config : Config Float} {entropy : UInt64} {built : Engine}
    (created : Engine.create config entropy = .ok built) (records : Records)
    (fresh : records.deadlines = ∅) (run : Run (built.withRecords records) history engine) :
    engine.StoresAgree := by
  have named : (built.withRecords records).Named := named_of_run created records .start
  obtain ⟨holds, recalls⟩ := kept_of_run created records run
  have start : (built.withRecords records).book.Paired := by
    obtain ⟨instanceName, seed, rfl⟩ := eq_start_of_create created
    constructor
    · intro name
      simp [withRecords, Engine.start, Records.contains, fresh]
    · intro name member
      simp [withRecords, Engine.start] at member
  have paired : engine.book.Paired := by
    obtain ⟨journal, journals⟩ := exists_journal run named
    rw [journals.book]
    exact List.foldlRecOn _ _ start fun _ paired entry _ => paired.enter entry
  exact .of_kept paired holds recalls fun _ _ => isKnown_of_placesKept

/-- Two names are announced. The scores of both expire, and one of them is announced anew from elsewhere. -/
def movedAway : History × Engine :=
  (Sample.relay .weighted).performAll [Sample.answers "c" ⟨["a"]⟩ (Sample.place 0x4028000000000000),
    .sweep, .advanceTo (Nanos.ofSeconds 100000),
    Sample.answers "d" ⟨["a", "b"]⟩ (Sample.place 0x4010000000000000),
    Sample.answers "c" ⟨["a"]⟩ (Sample.place 0x4024000000000000)]

/-- The index keeps both, the one that moved at its new place. -/
theorem stores_agree_moved_away :
    movedAway.1.places.toList = [(⟨["a"]⟩, Sample.place 0x4028000000000000),
      (⟨["a", "b"]⟩, Sample.place 0x4010000000000000)] ∧ movedAway.2.StoresAgree := by
  refine ⟨by decide +kernel, ?_⟩
  exact stores_agree (Sample.create_relay .weighted) {} rfl (run_performAll _ _)

end Engine

end Overhear
