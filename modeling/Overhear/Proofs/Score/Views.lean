import Overhear.Proofs.Records
import Overhear.Score.Book

/-! What each operation on a score book leaves of its tables: the scores, the names that have some, the
marks of the touched scores and the records. -/
namespace Overhear

/-- What an update makes of the statistics of a face. The counters start again. The ratio is that of what was
counted, one if there were more responses than requests and zero if there was neither, and it goes into the
score with the share `smoothing`. -/
structure Stats.Updates {α : Type} [Scalar α] (smoothing : α) (before after : Stats α) : Prop where
  requests : after.requests = 0
  responses : after.responses = 0
  exceeded : before.requests < before.responses → after.ratio = Scalar.one
  answered : before.responses ≤ before.requests → 0 < before.requests →
    after.ratio = Scalar.ofNat before.responses.toNat / Scalar.ofNat before.requests.toNat
  unused : before.requests = 0 → before.responses = 0 → after.ratio = Scalar.zero
  score : after.score = smoothing * after.ratio + (Scalar.one - smoothing) * before.score

theorem Stats.updates_update {α : Type} [Scalar α] (smoothing : α) (stats : Stats α) :
    stats.Updates smoothing (stats.update smoothing) where
  requests := rfl
  responses := rfl
  exceeded more := if_neg (UInt64.not_le.mpr more)
  answered fewer asked := (if_pos fewer).trans (if_pos asked)
  unused unasked unanswered := by simp [update, pendingRatio, unasked, unanswered]
  score := rfl

/-- A score with other statistics and the same timer. -/
def FaceScore.restate {α : Type} (change : Stats α → Stats α) (score : FaceScore α) : FaceScore α :=
  { score with stats := change score.stats }

namespace ScoreBook

variable {α : Type} (book : ScoreBook α) (key other : ScoreKey) (name : Name)

theorem mem_standings_of_faceScore? {book : ScoreBook α} {key : ScoreKey}
    (present : (book.faceScore? key).isSome) : key.name ∈ book.standings := by
  obtain ⟨score, found⟩ := Option.isSome_iff_exists.mp present
  obtain ⟨standing, known, -⟩ := Option.bind_eq_some_iff.mp found
  exact Std.ExtTreeMap.mem_iff_isSome_getElem?.mpr (Option.isSome_of_eq_some known)

theorem faceScore?_setScore (score : FaceScore α) :
    (book.setScore key score).faceScore? other =
      if other = key then some score else book.faceScore? other := by
  by_cases sameName : key.name = other.name
  · have sameKey : other = key ↔ key.face = other.face := by
      cases key
      cases other
      simp_all [eq_comm]
    simp only [sameKey, faceScore?, setScore, standing?, sameName, Std.ExtTreeMap.getElem?_alter_self,
      Option.bind_eq_bind, Option.bind_some, Std.ExtTreeMap.getElem?_insert,
      Std.compare_eq_iff_eq]
    congr 1
    cases book.standings[other.name]? <;> simp
  · have otherKey : other ≠ key := by
      intro same
      subst same
      exact sameName rfl
    simp [faceScore?, setScore, standing?, Std.ExtTreeMap.getElem?_alter, sameName, otherKey]

theorem mem_standings_setScore (score : FaceScore α) :
    name ∈ (book.setScore key score).standings ↔ name = key.name ∨ name ∈ book.standings := by
  by_cases same : key.name = name
  · simp [setScore, same]
  · simp [setScore, Std.ExtTreeMap.mem_alter, same, Ne.symm same]

theorem modifyStats_cases (change : Stats α → Stats α) :
    (book.faceScore? key = none ∧ book.modifyStats key change = book) ∨
      ∃ score, book.faceScore? key = some score ∧
        book.modifyStats key change = book.setScore key (score.restate change) := by
  unfold modifyStats
  split
  · rename_i absent
    exact .inl ⟨absent, rfl⟩
  · rename_i score found
    exact .inr ⟨score, found, rfl⟩

@[simp] theorem faceScore?_modifyStats (change : Stats α → Stats α) :
    (book.modifyStats key change).faceScore? other =
      if other = key then (book.faceScore? key).map (.restate change) else book.faceScore? other := by
  rcases book.modifyStats_cases key change with ⟨absent, same⟩ | ⟨score, found, same⟩
  · rw [same, absent]
    by_cases equal : other = key
    · simp [equal, absent]
    · simp [equal]
  · rw [same, faceScore?_setScore, found, Option.map_some]

@[simp] theorem mem_standings_modifyStats (change : Stats α → Stats α) :
    name ∈ (book.modifyStats key change).standings ↔ name ∈ book.standings := by
  rcases book.modifyStats_cases key change with ⟨-, same⟩ | ⟨score, found, same⟩
  · rw [same]
  · rw [same, mem_standings_setScore, or_iff_right_iff_imp]
    rintro rfl
    exact mem_standings_of_faceScore? (Option.isSome_of_eq_some found)

/-- Only the scores differ once statistics were changed. -/
theorem modifyStats_frame (change : Stats α → Stats α) :
    book.modifyStats key change =
      { book with standings := (book.modifyStats key change).standings } := by
  unfold modifyStats
  split <;> rfl

@[simp] theorem config_modifyStats (change : Stats α → Stats α) :
    (book.modifyStats key change).config = book.config := by rw [modifyStats_frame]

@[simp] theorem records_modifyStats (change : Stats α → Stats α) :
    (book.modifyStats key change).records = book.records := by rw [modifyStats_frame]

@[simp] theorem touched_modifyStats (change : Stats α → Stats α) :
    (book.modifyStats key change).touched = book.touched := by rw [modifyStats_frame]

@[simp] theorem refreshTimer_modifyStats (change : Stats α → Stats α) :
    (book.modifyStats key change).refreshTimer = book.refreshTimer := by rw [modifyStats_frame]

@[simp] theorem faceScore?_armDecay (score : FaceScore α) :
    (book.armDecay key score).faceScore? other =
      if other = key then some ⟨score.stats, some book.timers.next⟩ else book.faceScore? other :=
  faceScore?_setScore _ key other _

@[simp] theorem mem_standings_armDecay (score : FaceScore α) :
    name ∈ (book.armDecay key score).standings ↔ name = key.name ∨ name ∈ book.standings :=
  mem_standings_setScore _ key name _

@[simp] theorem faceScore?_armRefresh : book.armRefresh.faceScore? key = book.faceScore? key := by
  unfold armRefresh
  split <;> rfl

@[simp] theorem standings_armRefresh : book.armRefresh.standings = book.standings := by
  unfold armRefresh
  split <;> rfl

@[simp] theorem records_armRefresh : book.armRefresh.records = book.records := by
  unfold armRefresh
  split <;> rfl

@[simp] theorem touched_armRefresh : book.armRefresh.touched = book.touched := by
  unfold armRefresh
  split <;> rfl

theorem isSome_refreshTimer_armRefresh : book.armRefresh.refreshTimer.isSome := by
  unfold armRefresh
  split
  · rename_i timer
    exact Option.isSome_of_eq_some timer
  · rfl

@[simp] theorem faceScore?_setDestination (destination : Coordinate) :
    (book.setDestination name destination).faceScore? key = book.faceScore? key := by
  simp only [faceScore?, standing?, setDestination, touchRecord, Std.ExtTreeMap.getElem?_alter,
    Std.compare_eq_iff_eq]
  by_cases same : name = key.name
  · rw [if_pos same, same]
    cases book.standings[key.name]? <;> simp
  · rw [if_neg same]

@[simp] theorem mem_standings_setDestination (destination : Coordinate) (subject : Name) :
    name ∈ (book.setDestination subject destination).standings ↔
      name = subject ∨ name ∈ book.standings := by
  by_cases same : subject = name
  · simp [setDestination, same]
  · simp [setDestination, touchRecord, Std.ExtTreeMap.mem_alter, same, Ne.symm same]

section

variable [Scalar α]

/-- The statistics that a score has once it is opened. -/
def openedStats : Stats α := ((book.faceScore? key).getD ⟨.fresh, none⟩).stats

theorem faceScore?_openScore : ∃ timer, ∀ other,
    (book.openScore key).faceScore? other =
      if other = key then some ⟨book.openedStats key, some timer⟩ else book.faceScore? other := by
  have touched : (book.touchRecord key.name).faceScore? key = book.faceScore? key := rfl
  unfold openScore
  dsimp only
  split
  · rename_i timer held
    refine ⟨timer, fun other => ?_⟩
    rw [touched] at held
    by_cases same : other = key
    · -- Only a score that is there holds a timer.
      cases found : book.faceScore? key with
      | none => simp [found] at held
      | some score =>
        have whole : score = ⟨score.stats, some timer⟩ := by
          cases score
          simpa [found] using held
        rw [if_pos same, same, touched, found, openedStats, found]
        exact congrArg some whole
    · rw [if_neg same]
      rfl
  · exact ⟨_, fun other => faceScore?_armDecay _ key other _⟩

@[simp] theorem mem_standings_openScore :
    name ∈ (book.openScore key).standings ↔ name = key.name ∨ name ∈ book.standings := by
  unfold openScore
  dsimp only
  split
  · rename_i timer held
    change name ∈ book.standings ↔ _
    rw [iff_or_self]
    rintro rfl
    refine mem_standings_of_faceScore? ?_
    cases found : (book.touchRecord key.name).faceScore? key with
    | none => simp [found] at held
    | some score => exact Option.isSome_of_eq_some found
  · exact mem_standings_armDecay _ key name _

@[simp] theorem records_openScore :
    (book.openScore key).records = (book.touchRecord key.name).records := by
  unfold openScore
  dsimp only
  split <;> rfl

@[simp] theorem touched_openScore : (book.openScore key).touched = book.touched := by
  unfold openScore
  dsimp only
  split <;> rfl

@[simp] theorem refreshTimer_openScore : (book.openScore key).refreshTimer = book.refreshTimer := by
  unfold openScore
  dsimp only
  split <;> rfl

end

@[simp] theorem contains_touchRecord (subject : Name) :
    (book.touchRecord subject).records.contains name =
      (decide (name = subject) || book.records.contains name) := by
  simp [touchRecord]

theorem standing?_forget (subject : Name) :
    (book.forget subject).standing? name = if name = subject then none else book.standing? name := by
  unfold forget
  split
  · rename_i absent
    by_cases same : name = subject
    · rw [if_pos same, same, absent]
    · rw [if_neg same]
  · simp only [standing?, Std.ExtTreeMap.getElem?_erase, Std.compare_eq_iff_eq]
    simp only [eq_comm]

@[simp] theorem faceScore?_forget :
    (book.forget name).faceScore? key = if key.name = name then none else book.faceScore? key := by
  simp only [faceScore?, standing?_forget]
  split <;> rfl

@[simp] theorem mem_standings_forget (subject : Name) :
    name ∈ (book.forget subject).standings ↔ name ≠ subject ∧ name ∈ book.standings := by
  unfold forget
  split
  · rename_i absent
    rw [iff_and_self]
    rintro member rfl
    have present := Std.ExtTreeMap.mem_iff_isSome_getElem?.mp member
    simp [standing?] at absent
    exact absent member
  · simp [Std.ExtTreeMap.mem_erase, ne_comm]

theorem mem_foldl_erase (faces : List FaceId) (touched : Std.ExtTreeSet ScoreKey) :
    key ∈ faces.foldl (fun touched face => touched.erase ⟨name, face⟩) touched ↔
      key ∈ touched ∧ ¬ (key.name = name ∧ key.face ∈ faces) := by
  induction faces generalizing touched with
  | nil => simp
  | cons face rest ih =>
    rw [List.foldl_cons, ih, Std.ExtTreeSet.mem_erase]
    cases key
    simp
    grind

/-- Forgetting a name takes the marks of its scores away. -/
@[simp] theorem mem_touched_forget :
    key ∈ (book.forget name).touched ↔
      key ∈ book.touched ∧ ¬ (key.name = name ∧ (book.faceScore? key).isSome) := by
  unfold forget
  split
  · rename_i absent
    rw [iff_self_and]
    rintro - ⟨rfl, present⟩
    simp [faceScore?, absent] at present
  · rename_i standing found
    rw [mem_foldl_erase]
    refine and_congr_right fun _ => not_congr (and_congr_right fun same => ?_)
    rw [Std.ExtTreeMap.mem_keys, Std.ExtTreeMap.mem_iff_isSome_getElem?]
    simp [faceScore?, same, found]

@[simp] theorem records_forget : (book.forget name).records = book.records := by
  unfold forget
  split <;> rfl

@[simp] theorem refreshTimer_forget : (book.forget name).refreshTimer = book.refreshTimer := by
  unfold forget
  split <;> rfl

theorem standing?_foldl_forget (names : List Name) (book : ScoreBook α) (name : Name) :
    (names.foldl (fun book name => book.forget name) book).standing? name =
      if name ∈ names then none else book.standing? name := by
  induction names generalizing book with
  | nil => simp
  | cons first rest ih =>
    rw [List.foldl_cons, ih, standing?_forget]
    by_cases same : name = first <;> by_cases later : name ∈ rest <;> simp [same, later]

theorem mem_standings_foldl_forget (names : List Name) (book : ScoreBook α) (name : Name) :
    name ∈ (names.foldl (fun book name => book.forget name) book).standings ↔
      name ∉ names ∧ name ∈ book.standings := by
  have known : ∀ book : ScoreBook α, name ∈ book.standings ↔ (book.standing? name).isSome :=
    fun book => Std.ExtTreeMap.mem_iff_isSome_getElem?
  rw [known, known, standing?_foldl_forget]
  by_cases forgotten : name ∈ names <;> simp [forgotten]

theorem records_foldl_forget (names : List Name) (book : ScoreBook α) :
    (names.foldl (fun book name => book.forget name) book).records = book.records := by
  induction names generalizing book with
  | nil => rfl
  | cons first rest ih => rw [List.foldl_cons, ih, records_forget]

theorem refreshTimer_foldl_forget (names : List Name) (book : ScoreBook α) :
    (names.foldl (fun book name => book.forget name) book).refreshTimer = book.refreshTimer := by
  induction names generalizing book with
  | nil => rfl
  | cons first rest ih => rw [List.foldl_cons, ih, refreshTimer_forget]

/-- The marks of names that are not forgotten stay. -/
theorem mem_touched_foldl_forget (names : List Name) (book : ScoreBook α) (other : key.name ∉ names) :
    key ∈ (names.foldl (fun book name => book.forget name) book).touched ↔ key ∈ book.touched := by
  induction names generalizing book with
  | nil => rfl
  | cons first rest ih =>
    obtain ⟨different, later⟩ := List.ne_and_not_mem_of_not_mem_cons other
    rw [List.foldl_cons, ih _ later, mem_touched_forget]
    simp [different]

@[simp] theorem faceScore?_shutdown :
    book.shutdown.faceScore? key =
      (book.faceScore? key).map fun score => { score with decayTimer := none } := by
  simp only [faceScore?, standing?, shutdown, Std.ExtTreeMap.getElem?_map]
  cases book.standings[key.name]? with
  | none => rfl
  | some standing => simp [Std.ExtTreeMap.getElem?_map]

end ScoreBook

end Overhear
