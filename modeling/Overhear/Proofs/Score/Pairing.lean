import Overhear.Proofs.Score.Marks
import Overhear.Proofs.Score.Sweeping

/-! Names with scores and names with records. A book that started without records has records for exactly the
names that have scores, and each operation says what becomes of the destinations kept with them. -/
namespace Overhear.ScoreBook

variable {α : Type} {book after : ScoreBook α} {key : ScoreKey} {name : Name}

/-- Some face has a score under the name. -/
def Scored (book : ScoreBook α) (name : Name) : Prop := ∃ face, (book.faceScore? ⟨name, face⟩).isSome

/-- The names with scores are those with records, and each of them has a score. -/
structure Paired (book : ScoreBook α) : Prop where
  recorded : ∀ name, name ∈ book.standings ↔ book.records.contains name = true
  scored : ∀ name ∈ book.standings, book.Scored name

theorem Paired.scored_iff (paired : book.Paired) (name : Name) :
    book.Scored name ↔ book.records.contains name = true := by
  constructor
  · intro ⟨face, present⟩
    exact (paired.recorded name).mp (mem_standings_of_faceScore? present)
  · exact fun present => paired.scored name ((paired.recorded name).mpr present)

theorem Paired.of_same (paired : book.Paired)
    (names : ∀ name, name ∈ after.standings ↔ name ∈ book.standings)
    (records : ∀ name, after.records.contains name = book.records.contains name)
    (scores : ∀ key, (after.faceScore? key).isSome = (book.faceScore? key).isSome) : after.Paired where
  recorded name := by rw [names, records, paired.recorded]
  scored name member := by
    obtain ⟨face, present⟩ := paired.scored name ((names name).mp member)
    exact ⟨face, (scores _).trans present⟩

theorem Paired.modifyStats (paired : book.Paired) (change : Stats α → Stats α) :
    (book.modifyStats key change).Paired := by
  apply paired.of_same
  · simp
  · simp
  · intro other
    rw [faceScore?_modifyStats]
    split
    · rename_i same
      rw [same, Option.isSome_map]
    · rfl

theorem Paired.armRefresh (paired : book.Paired) : book.armRefresh.Paired :=
  paired.of_same (by simp) (by simp) (by simp)

theorem Paired.shutdown (paired : book.Paired) : book.shutdown.Paired := by
  apply paired.of_same
  · intro name
    exact Std.ExtTreeMap.mem_map
  · exact fun _ => rfl
  · simp

theorem Paired.sweep (paired : book.Paired) : book.sweep.2.Paired := by
  have standings : ∀ name, name ∈ book.sweep.2.standings ↔
      name ∉ book.sweep.1 ∧ name ∈ book.standings :=
    fun name => mem_standings_foldl_forget book.sweep.1 _ name
  constructor
  · intro name
    rw [standings, Records.contains_eq_isSome_deadline?, deadline?_sweep, paired.recorded,
      Records.contains_eq_isSome_deadline?]
    by_cases taken : name ∈ book.sweep.1 <;> simp [taken]
  · intro name member
    obtain ⟨spared, before⟩ := (standings name).mp member
    obtain ⟨face, present⟩ := paired.scored name before
    refine ⟨face, ?_⟩
    simp only [faceScore?, standing?_sweep, if_neg spared]
    exact present

section

variable [Scalar α]

/-- A credit gives its name a record and a score, whether or not it had them. -/
theorem Paired.of_credit (count : Stats α → Stats α)
    (recorded : ∀ name, name ≠ key.name →
      (name ∈ book.standings ↔ book.records.contains name = true))
    (scored : ∀ name ∈ book.standings, name ≠ key.name → book.Scored name) :
    (book.credit count key).Paired := by
  obtain ⟨timer, scores⟩ := book.faceScore?_openScore key
  have standings : ∀ name, name ∈ (book.credit count key).standings ↔
      name = key.name ∨ name ∈ book.standings := by
    intro name
    simp [ScoreBook.credit]
  have present : ∀ other, ((book.credit count key).faceScore? other).isSome =
      (decide (other = key) || (book.faceScore? other).isSome) := by
    intro other
    change (((book.openScore key).modifyStats key count).faceScore? other).isSome = _
    simp only [faceScore?_modifyStats, scores]
    by_cases same : other = key
    · simp [same]
    · simp [same]
  constructor
  · intro name
    rw [standings]
    simp only [ScoreBook.credit, records_modifyStats, records_openScore, contains_touchRecord,
      Bool.or_eq_true, decide_eq_true_eq]
    by_cases same : name = key.name
    · simp [same]
    · simp [same, recorded name same]
  · intro name member
    by_cases same : name = key.name
    · exact ⟨key.face, by simp [present, same]⟩
    · have before := ((standings name).mp member).resolve_left same
      obtain ⟨face, found⟩ := scored name before same
      exact ⟨face, by simp [present, found]⟩

theorem Paired.credit (paired : book.Paired) (count : Stats α → Stats α) :
    (book.credit count key).Paired :=
  .of_credit count (fun name _ => paired.recorded name) fun name member _ => paired.scored name member

theorem Paired.creditRequest (paired : book.Paired) (name : Name) (face : FaceId) :
    (book.creditRequest name face).Paired :=
  creditRequest_keeps (fun _ _ paired => paired.credit _) (fun _ paired => paired.armRefresh) paired
    name face

theorem Paired.creditResponse (paired : book.Paired) (name : Name) (face : FaceId) :
    (book.creditResponse name face).Paired :=
  creditUpward_keeps (fun _ _ paired => paired.credit _) (fun _ paired => paired.armRefresh) paired
    name face

/-- A destination that is kept for a name gives it a record but no score; the credit for the response does. -/
theorem Paired.creditResponse_setDestination (paired : book.Paired) (name : Name)
    (destination : Coordinate) (face : FaceId) :
    ((book.setDestination name destination).creditResponse name face).Paired := by
  have records : (book.setDestination name destination).records = (book.touchRecord name).records := rfl
  have first : ((book.setDestination name destination).credit Stats.countResponse ⟨name, face⟩).Paired := by
    apply Paired.of_credit
    · intro other different
      simp only [mem_standings_setDestination, records, contains_touchRecord]
      simp [show other ≠ name from different, paired.recorded]
    · intro other member different
      have before := ((mem_standings_setDestination ..).mp member).resolve_left different
      obtain ⟨face, present⟩ := paired.scored other before
      exact ⟨face, by simpa using present⟩
  refine Paired.armRefresh ?_
  rw [List.foldl_cons]
  exact List.foldlRecOn _ _ first fun _ paired other _ => paired.credit _

theorem Paired.fireDecay (paired : book.Paired) (handle : Handle) :
    (book.fireDecay handle key).2.Paired := by
  unfold ScoreBook.fireDecay
  split
  · exact paired
  · rename_i score found
    split
    · apply paired.of_same
      · intro name
        rw [mem_standings_armDecay, or_iff_right_iff_imp]
        rintro rfl
        exact mem_standings_of_faceScore? (Option.isSome_of_eq_some found)
      · exact fun _ => rfl
      · intro other
        rw [faceScore?_armDecay]
        split
        · rename_i same
          rw [same, found]
          rfl
        · rfl
    · exact paired

theorem Paired.refreshTouched (paired : book.Paired) : book.refreshTouched.2.Paired := by
  have updated : ((book.touched.toList.filter fun key => (book.faceScore? key).isSome).foldl
      (fun book key => book.update key) book).Paired :=
    List.foldlRecOn _ _ paired fun _ paired key _ => paired.modifyStats _
  exact updated.of_same (fun _ => Iff.rfl) (fun _ => rfl) fun _ => rfl

theorem Paired.fireRefresh (paired : book.Paired) (handle : Handle) :
    (book.fireRefresh handle).2.Paired := by
  unfold ScoreBook.fireRefresh
  split
  · have unarmed : ({ book with refreshTimer := none } : ScoreBook α).Paired :=
      paired.of_same (fun _ => Iff.rfl) (fun _ => rfl) fun _ => rfl
    dsimp only
    split
    · exact unarmed.refreshTouched
    · exact unarmed.refreshTouched.armRefresh
  · exact paired

theorem Paired.fire (paired : book.Paired) (firing : Firing Event) : (book.fire firing).Paired := by
  unfold ScoreBook.fire
  split
  · exact paired
  · exact paired.fireDecay firing.handle
  · exact paired.fireRefresh firing.handle

end

/-- The destination kept for exactly this name. -/
def placeOf? (book : ScoreBook α) (name : Name) : Option Coordinate :=
  (book.standing? name).bind (·.destination)

@[simp] theorem placeOf?_setScore (book : ScoreBook α) (key : ScoreKey) (score : FaceScore α)
    (name : Name) : (book.setScore key score).placeOf? name = book.placeOf? name := by
  by_cases same : key.name = name
  · subst same
    simp only [placeOf?, standing?, setScore, Std.ExtTreeMap.getElem?_alter_self, Option.bind_some]
    cases book.standings[key.name]? <;> rfl
  · simp [placeOf?, standing?, setScore, Std.ExtTreeMap.getElem?_alter, same]

@[simp] theorem placeOf?_modifyStats (book : ScoreBook α) (key : ScoreKey)
    (change : Stats α → Stats α) (name : Name) :
    (book.modifyStats key change).placeOf? name = book.placeOf? name := by
  rcases book.modifyStats_cases key change with ⟨-, same⟩ | ⟨score, -, same⟩
  · rw [same]
  · rw [same, placeOf?_setScore]

@[simp] theorem placeOf?_armDecay (book : ScoreBook α) (key : ScoreKey) (score : FaceScore α)
    (name : Name) : (book.armDecay key score).placeOf? name = book.placeOf? name :=
  placeOf?_setScore _ key _ name

@[simp] theorem placeOf?_armRefresh (book : ScoreBook α) (name : Name) :
    book.armRefresh.placeOf? name = book.placeOf? name := by
  simp only [placeOf?, standing?, standings_armRefresh]

theorem placeOf?_setDestination (book : ScoreBook α) (subject : Name) (destination : Coordinate)
    (name : Name) : (book.setDestination subject destination).placeOf? name =
      if name = subject then some destination else book.placeOf? name := by
  by_cases same : name = subject
  · subst same
    simp [placeOf?, standing?, setDestination, touchRecord]
  · simp [placeOf?, standing?, setDestination, touchRecord, Std.ExtTreeMap.getElem?_alter, same,
      Ne.symm same]

theorem placeOf?_sweep (book : ScoreBook α) (name : Name) :
    book.sweep.2.placeOf? name = if name ∈ book.sweep.1 then none else book.placeOf? name := by
  simp only [placeOf?, standing?_sweep]
  split <;> rfl

@[simp] theorem placeOf?_shutdown (book : ScoreBook α) (name : Name) :
    book.shutdown.placeOf? name = book.placeOf? name := by
  simp only [placeOf?, standing?, shutdown, Std.ExtTreeMap.getElem?_map]
  cases book.standings[name]? <;> rfl

section

variable [Scalar α]

@[simp] theorem placeOf?_credit (book : ScoreBook α) (count : Stats α → Stats α) (key : ScoreKey)
    (name : Name) : (book.credit count key).placeOf? name = book.placeOf? name := by
  change ((book.openScore key).modifyStats key count).placeOf? name = _
  rw [placeOf?_modifyStats]
  unfold openScore
  dsimp only
  split
  · rfl
  · exact placeOf?_armDecay _ key _ name

theorem placeOf?_creditRequest (book : ScoreBook α) (subject : Name) (face : FaceId) (name : Name) :
    (book.creditRequest subject face).placeOf? name = book.placeOf? name := by
  have credits : ∀ (after : ScoreBook α) (key : ScoreKey), after.placeOf? name = book.placeOf? name →
      (after.credit Stats.countRequest key).placeOf? name = book.placeOf? name :=
    fun _ _ same => (placeOf?_credit ..).trans same
  exact creditRequest_keeps credits (fun _ same => (placeOf?_armRefresh ..).trans same) rfl subject face

theorem placeOf?_creditResponse (book : ScoreBook α) (subject : Name) (face : FaceId) (name : Name) :
    (book.creditResponse subject face).placeOf? name = book.placeOf? name := by
  have credits : ∀ (after : ScoreBook α) (key : ScoreKey), after.placeOf? name = book.placeOf? name →
      (after.credit Stats.countResponse key).placeOf? name = book.placeOf? name :=
    fun _ _ same => (placeOf?_credit ..).trans same
  exact creditUpward_keeps credits (fun _ same => (placeOf?_armRefresh ..).trans same) rfl subject face

theorem placeOf?_refreshTouched (book : ScoreBook α) (name : Name) :
    book.refreshTouched.2.placeOf? name = book.placeOf? name :=
  List.foldlRecOn (motive := fun after : ScoreBook α => after.placeOf? name = book.placeOf? name) _ _
    rfl fun _ same _ _ => (placeOf?_modifyStats ..).trans same

theorem placeOf?_fire (book : ScoreBook α) (firing : Firing Event) (name : Name) :
    (book.fire firing).placeOf? name = book.placeOf? name := by
  unfold fire
  split
  · rfl
  · unfold fireDecay
    split
    · rfl
    · split
      · exact placeOf?_armDecay ..
      · rfl
  · unfold fireRefresh
    split
    · have refreshed := placeOf?_refreshTouched { book with refreshTimer := none } name
      dsimp only
      split
      · exact refreshed
      · exact (placeOf?_armRefresh ..).trans refreshed
    · rfl

end

end Overhear.ScoreBook
