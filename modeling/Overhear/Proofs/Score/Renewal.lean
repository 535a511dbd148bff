import Overhear.Proofs.Score.Crediting
import Overhear.Proofs.Score.Pairing

/-! Which scores an update along a name reaches. It starts at the nearest name with scores and goes up the
records. Where the face has a score it is updated once and the record lives on, and nothing else in the book
changes. -/
namespace Overhear.ScoreBook

variable {α : Type} {book after : ScoreBook α} {face : FaceId} {reached : Name → Prop} {name start : Name}

/-- Of the names at or above a name that have scores, `start` is the longest. -/
structure NearestHolding (book : ScoreBook α) (name start : Name) : Prop where
  holding : start ∈ book.standings
  above : start.covers name = true
  longest : ∀ other ∈ book.standings, other.covers name = true → other.length ≤ start.length

/-- A record at or above the nearest name with scores where the face has a score. -/
def OnChain (book : ScoreBook α) (name : Name) (face : FaceId) (record : Name) : Prop :=
  ∃ start, book.NearestHolding name start ∧ record.covers start = true ∧
    book.records.contains record = true ∧ (book.faceScore? ⟨record, face⟩).isSome

/-- What an update through a face does to a book when it reaches these names, each of them once. -/
structure Renews (face : FaceId) (reached : Name → Prop) (book after : ScoreBook α) [Scalar α] : Prop where
  updated : ∀ name, reached name → after.faceScore? ⟨name, face⟩ =
    (book.faceScore? ⟨name, face⟩).map (.restate (Stats.update book.config.smoothing))
  folded : ∀ name score, reached name → book.faceScore? ⟨name, face⟩ = some score → ∃ stats,
    after.faceScore? ⟨name, face⟩ = some { score with stats } ∧
      score.stats.Updates book.config.smoothing stats
  spared : ∀ key, ¬ (reached key.name ∧ key.face = face) → after.faceScore? key = book.faceScore? key
  extended : ∀ name, reached name → after.records.deadline? name =
    (book.records.deadline? name).map (max · (book.now + book.config.recordLifetime))
  kept : ∀ name, ¬ reached name → after.records.deadline? name = book.records.deadline? name
  holding : ∀ name, name ∈ after.standings ↔ name ∈ book.standings
  placed : ∀ name, after.placeOf? name = book.placeOf? name
  frame : after =
    { book with
      standings := after.standings
      records := { book.records with deadlines := after.records.deadlines } }

theorem exists_nearestHolding {other : Name} (holding : other ∈ book.standings)
    (above : other.covers name = true) : ∃ start, book.NearestHolding name start := by
  have present : (name.ancestors.find? book.standings.contains).isSome :=
    List.find?_isSome.mpr ⟨other, Name.mem_ancestors.mpr above, Std.ExtTreeMap.contains_iff_mem.mpr holding⟩
  obtain ⟨start, found⟩ := Option.isSome_iff_exists.mp present
  obtain ⟨holds, covered, longest⟩ := Name.longest_of_find? found
  exact ⟨start, Std.ExtTreeMap.contains_iff_mem.mp holds, covered, fun other holding =>
    longest other (Std.ExtTreeMap.contains_iff_mem.mpr holding)⟩

theorem onChain_iff {record : Name} :
    book.OnChain name face record ↔ record.covers name = true ∧ book.records.contains record = true ∧
      (book.faceScore? ⟨record, face⟩).isSome := by
  constructor
  · rintro ⟨start, nearest, above, recorded, scored⟩
    exact ⟨Name.covers_trans above nearest.above, recorded, scored⟩
  · rintro ⟨above, recorded, scored⟩
    have holding := mem_standings_of_faceScore? scored
    obtain ⟨start, nearest⟩ := exists_nearestHolding holding above
    exact ⟨start, nearest, Name.covers_of_length_le above nearest.above (nearest.longest record holding above),
      recorded, scored⟩

/-- The records that an update along a name reaches, the longest first. -/
def chain (book : ScoreBook α) (name : Name) (face : FaceId) : List Name :=
  match book.nearestScored? name with
  | none => []
  | some start =>
      (start :: book.records.above start).filter fun record => (book.faceScore? ⟨record, face⟩).isSome

theorem nodup_chain (book : ScoreBook α) (name : Name) (face : FaceId) : (book.chain name face).Nodup := by
  unfold chain
  split
  · exact .nil
  · exact (Records.nodup_upward ..).filter _

/-- Every record at or above a name where the face has a score is reached: that score makes the record one of
the scored names, and the nearest of them is no shorter. -/
theorem mem_chain {record : Name} : record ∈ book.chain name face ↔ book.OnChain name face record := by
  rw [onChain_iff]
  unfold chain
  cases nearest : book.nearestScored? name with
  | none =>
    refine iff_of_false List.not_mem_nil ?_
    rintro ⟨above, recorded, scored⟩
    exact nearestScored?_eq_none_iff.mp nearest record above ⟨mem_standings_of_faceScore? scored, recorded⟩
  | some start =>
    have scoredStart := nearestScored_of_nearestScored? nearest
    dsimp only
    rw [List.mem_filter, mem_upward, Reaches]
    constructor
    · rintro ⟨rfl | ⟨under, recorded⟩, scored⟩
      · exact ⟨scoredStart.above, scoredStart.recorded, scored⟩
      · exact ⟨Name.covers_trans (Name.covers_iff_eq_or_strictlyCovers.mpr (.inr under)) scoredStart.above,
          recorded, scored⟩
    · rintro ⟨above, recorded, scored⟩
      have shorter := scoredStart.longest record (mem_standings_of_faceScore? scored) recorded above
      have covered := Name.covers_of_length_le above scoredStart.above shorter
      refine ⟨(Name.covers_iff_eq_or_strictlyCovers.mp covered).imp_right fun under => ⟨under, recorded⟩, scored⟩

variable [Scalar α]

/-- Update the score of a face under a name, if there is one, and keep its record alive. Counts the updates. -/
def renew (face : FaceId) (state : Nat × ScoreBook α) (name : Name) : Nat × ScoreBook α :=
  if (state.2.faceScore? ⟨name, face⟩).isSome then
    (state.1 + 1, (state.2.update ⟨name, face⟩).extendRecord name)
  else state

theorem isSome_faceScore?_update (book : ScoreBook α) (key other : ScoreKey) :
    ((book.update key).faceScore? other).isSome = (book.faceScore? other).isSome := by
  rw [update, faceScore?_modifyStats]
  split
  · rename_i same
    rw [Option.isSome_map, same]
  · rfl

theorem renews_nothing (face : FaceId) (book : ScoreBook α) : Renews face (· ∈ ([] : List Name)) book book := by
  constructor <;> simp

/-- One more update goes before the others, at a name that they do not reach. -/
theorem Renews.cons {rest : List Name} (apart : name ∉ rest)
    (later : Renews face (· ∈ rest) ((book.update ⟨name, face⟩).extendRecord name) after) :
    Renews face (· ∈ name :: rest) book after := by
  have scores : ∀ other, ((book.update ⟨name, face⟩).extendRecord name).faceScore? other =
      if other = ⟨name, face⟩ then
        (book.faceScore? ⟨name, face⟩).map (.restate (Stats.update book.config.smoothing))
      else book.faceScore? other :=
    fun other => faceScore?_modifyStats book ⟨name, face⟩ other _
  have frame : book.update ⟨name, face⟩ = { book with standings := (book.update ⟨name, face⟩).standings } :=
    modifyStats_frame book ⟨name, face⟩ _
  have deadlines := fun other => deadline?_extendRecord (book.update ⟨name, face⟩) name other
  have apartKey : ∀ other ∈ rest, (⟨other, face⟩ : ScoreKey) ≠ ⟨name, face⟩ := by
    rintro other member same
    cases same
    exact apart member
  have updated : ∀ other ∈ name :: rest, after.faceScore? ⟨other, face⟩ =
      (book.faceScore? ⟨other, face⟩).map (.restate (Stats.update book.config.smoothing)) := by
    intro other member
    by_cases same : other = name
    -- The updates that follow do not reach this name, so what was written under it stays.
    · subst same
      rw [later.spared _ fun reached => apart reached.1, scores, if_pos rfl]
    · have listed := List.mem_of_ne_of_mem same member
      rw [later.updated other listed, scores, if_neg (apartKey other listed), frame]
      rfl
  constructor
  · exact updated
  · intro other score member found
    refine ⟨score.stats.update book.config.smoothing, ?_, score.stats.updates_update _⟩
    rw [updated other member, found]
    rfl
  · intro key outside
    rw [later.spared key fun reached => outside ⟨.tail _ reached.1, reached.2⟩, scores, if_neg]
    rintro rfl
    exact outside ⟨.head _, rfl⟩
  · intro other member
    by_cases same : other = name
    · subst same
      rw [later.kept other apart, deadlines, if_pos rfl, frame]
      rfl
    · have listed := List.mem_of_ne_of_mem same member
      rw [later.extended other listed, deadlines, if_neg same, frame]
      rfl
  · intro other unlisted
    obtain ⟨different, others⟩ := List.ne_and_not_mem_of_not_mem_cons unlisted
    rw [later.kept other others, deadlines, if_neg different, frame]
  · intro other
    rw [later.holding]
    exact mem_standings_modifyStats book ⟨name, face⟩ other _
  · intro other
    rw [later.placed]
    exact placeOf?_modifyStats book ⟨name, face⟩ _ other
  · rw [later.frame, extendRecord, frame]
    rfl

theorem renews_foldl (face : FaceId) {names : List Name} (distinct : names.Nodup) (book : ScoreBook α) :
    Renews face (· ∈ names) book
      (names.foldl (fun book name => (book.update ⟨name, face⟩).extendRecord name) book) := by
  induction names generalizing book with
  | nil => exact renews_nothing face book
  | cons name rest ih =>
    obtain ⟨apart, distinct⟩ := List.nodup_cons.mp distinct
    exact .cons apart (ih distinct _)

/-- Names without a score of the face are passed over, and no update gives one or takes one. -/
theorem foldl_renew (face : FaceId) (names : List Name) (count : Nat) (book : ScoreBook α) :
    names.foldl (renew face) (count, book) =
      (count + (names.filter fun name => (book.faceScore? ⟨name, face⟩).isSome).length,
        (names.filter fun name => (book.faceScore? ⟨name, face⟩).isSome).foldl
          (fun book name => (book.update ⟨name, face⟩).extendRecord name) book) := by
  induction names generalizing count book with
  | nil => rfl
  | cons name rest ih =>
    by_cases scored : (book.faceScore? ⟨name, face⟩).isSome
    · have same : ∀ other, (((book.update ⟨name, face⟩).extendRecord name).faceScore? other).isSome =
          (book.faceScore? other).isSome := isSome_faceScore?_update book ⟨name, face⟩
      rw [List.foldl_cons, renew, if_pos scored, ih,
        List.filter_cons_of_pos (p := fun name => (book.faceScore? ⟨name, face⟩).isSome) scored]
      simp only [same, List.length_cons, List.foldl_cons, Nat.add_assoc, Nat.add_comm 1]
    · rw [List.foldl_cons, renew, if_neg scored, ih,
        List.filter_cons_of_neg (p := fun name => (book.faceScore? ⟨name, face⟩).isSome) scored]

/-- Update a name, then look in the table as it is now for the nearest record above, and go on there. -/
def rise (face : FaceId) (state : Nat × ScoreBook α) (name : Name) : Nat × ScoreBook α :=
  let renewed := renew face state name
  match _ : renewed.2.records.parentOf? name with
  | none => renewed
  | some next => rise face renewed next
termination_by name.length
decreasing_by exact Records.length_of_parentOf? ‹_›

theorem above_renew (face : FaceId) (state : Nat × ScoreBook α) (name other : Name) :
    (renew face state name).2.records.above other = state.2.records.above other := by
  unfold renew
  split
  · unfold Records.above
    refine List.filter_congr fun record _ => ?_
    simp [extendRecord, update]
  · rfl

/-- No update on the way up changes what lies further up. -/
theorem rise_eq_foldl (face : FaceId) (state : Nat × ScoreBook α) (name : Name) :
    rise face state name = (name :: state.2.records.above name).foldl (renew face) state := by
  fun_induction rise face state name with
  | case1 state name renewed last =>
    have nothing := Records.above_of_parentOf?_none last
    rw [above_renew face state name] at nothing
    rw [nothing]
    rfl
  | case2 state name renewed next found ih =>
    have above := Records.above_of_parentOf? found
    rw [above_renew face state name] at above
    rw [ih, above]
    rfl

theorem updateLongest_eq_foldl (book : ScoreBook α) (name : Name) (face : FaceId) :
    book.updateLongest name face = ((book.chain name face).length,
      (book.chain name face).foldl (fun book record => (book.update ⟨record, face⟩).extendRecord record) book) := by
  have keys : book.scoredChain name face = (book.chain name face).map (ScoreKey.mk · face) := by
    unfold scoredChain chain
    cases book.nearestScored? name with
    | none => rfl
    | some start => exact List.filter_map ..
  simp only [updateLongest, keys, List.length_map, List.foldl_map]

/-- The update along a name is the way up from the nearest scored name, with what it counts on the way. -/
theorem updateLongest_eq_rise (book : ScoreBook α) (name : Name) (face : FaceId) :
    book.updateLongest name face = (book.nearestScored? name).elim (0, book) (rise face (0, book)) := by
  rw [updateLongest_eq_foldl, chain]
  cases book.nearestScored? name with
  | none => rfl
  | some start => rw [Option.elim_some, rise_eq_foldl, foldl_renew, Nat.zero_add]

/-- Whatever the state of a book, an update along a name goes up from the nearest name with scores. It updates
the face's score once at each record there that has one and puts off the deadlines of these records, and it
gives their number. Everything else stays. -/
theorem update_follows_scored_chain (book : ScoreBook α) (name : Name) (face : FaceId) :
    Renews face (book.OnChain name face) book (book.updateLongest name face).2 ∧
      (∃ records : List Name, records.Nodup ∧ (∀ record, record ∈ records ↔ book.OnChain name face record) ∧
        (book.updateLongest name face).1 = records.length) ∧
      book.updateLongest name face = (book.nearestScored? name).elim (0, book) (rise face (0, book)) := by
  have renews := renews_foldl face (nodup_chain book name face) book
  simp only [mem_chain] at renews
  rw [← updateLongest_eq_rise, updateLongest_eq_foldl]
  exact ⟨renews, ⟨book.chain name face, nodup_chain book name face, fun _ => mem_chain, rfl⟩, rfl⟩

/-- The nearest name with scores has none of this face, and the name above it has no record. -/
example :
    let book := (({ config := .standard } : ScoreBook Float).creditResponse ⟨["a"]⟩ ⟨1⟩).creditResponse
      ⟨["a", "b", "c"]⟩ ⟨2⟩
    let (count, after) := book.updateLongest ⟨["a", "b", "c", "d"]⟩ ⟨1⟩
    count = 1 ∧ (after.faceScore? ⟨⟨["a"]⟩, ⟨1⟩⟩).map (·.stats.responses) = some 0 ∧
      (after.faceScore? ⟨⟨["a"]⟩, ⟨2⟩⟩).map (·.stats.responses) = some 1 := by decide +kernel

end Overhear.ScoreBook
