import Overhear.Proofs.Score.Growth

/-! Which records a credit reaches. A credit for a response goes to its name and to every record above it, one
for a request to the nearest name with scores and the records above that, or to the bootstrap record alone.
Each of them is credited once, and nothing else in the book changes. -/
namespace Overhear.ScoreBook

variable {α : Type} {book middle after : ScoreBook α} {count : Stats α → Stats α} {face : FaceId}
  {reached : Name → Prop} {name start : Name}

/-- What a credit through a face does to a book when it reaches these names, each of them once. A score that
was missing is opened, and a record that was missing created, before it is touched. -/
structure Credits (count : Stats α → Stats α) (face : FaceId) (reached : Name → Prop)
    (book after : ScoreBook α) [Scalar α] : Prop where
  counted : ∀ name, reached name → ∃ timer, after.faceScore? ⟨name, face⟩ =
    some ⟨count (book.openedStats ⟨name, face⟩), some timer⟩
  spared : ∀ key, ¬ (reached key.name ∧ key.face = face) → after.faceScore? key = book.faceScore? key
  extended : ∀ name, reached name → after.records.deadline? name =
    some (max ((book.records.deadline? name).getD (book.now + book.records.firstLifetime))
      (book.now + book.config.recordLifetime))
  kept : ∀ name, ¬ reached name → after.records.deadline? name = book.records.deadline? name
  marked : ∀ key, key ∈ after.touched ↔ key ∈ book.touched ∨ reached key.name ∧ key.face = face

/-- Of the names at or above a name that have scores and a record, `start` is the longest. -/
structure NearestScored (book : ScoreBook α) (name start : Name) : Prop where
  scored : start ∈ book.standings
  recorded : book.records.contains start = true
  above : start.covers name = true
  longest : ∀ other ∈ book.standings, book.records.contains other = true →
    other.covers name = true → other.length ≤ start.length

theorem nearestScored_of_nearestScored? (found : book.nearestScored? name = some start) :
    book.NearestScored name start := by
  obtain ⟨present, above, longest⟩ := Name.longest_of_find? found
  simp only [Bool.and_eq_true, Std.ExtTreeMap.contains_iff_mem] at present
  refine ⟨present.1, present.2, above, fun other scored recorded covered => longest other ?_ covered⟩
  simp [Std.ExtTreeMap.contains_iff_mem.mpr scored, recorded]

theorem nearestScored?_eq_none_iff :
    book.nearestScored? name = none ↔ ∀ other : Name, other.covers name = true →
      ¬ (other ∈ book.standings ∧ book.records.contains other = true) := by
  simp only [nearestScored?, List.find?_eq_none, Name.mem_ancestors, Bool.and_eq_true,
    Std.ExtTreeMap.contains_iff_mem]

/-- The refresh timer that a book has afterwards is the one that it had, or is armed one period from now. -/
theorem refreshes_armRefresh (book : ScoreBook α) :
    ∃ timer, book.armRefresh.refreshTimer = some timer ∧ (book.refreshTimer = some timer ∨
      book.armRefresh.timers.armed? timer =
        some (book.armRefresh.now + book.armRefresh.config.refreshPeriod, .refresh)) := by
  unfold ScoreBook.armRefresh
  split
  · rename_i timer held
    exact ⟨timer, held, .inl held⟩
  · exact ⟨_, rfl, .inr ((Timers.armed?_arm book.timers _ _ _).trans (if_pos rfl))⟩

variable [Scalar α]

theorem faceScore?_credit (book : ScoreBook α) (count : Stats α → Stats α) (key : ScoreKey) :
    ∃ timer, ∀ other, (book.credit count key).faceScore? other =
      if other = key then some ⟨count (book.openedStats key), some timer⟩
      else book.faceScore? other := by
  obtain ⟨timer, scores⟩ := book.faceScore?_openScore key
  refine ⟨timer, fun other => ?_⟩
  change ((book.openScore key).modifyStats key count).faceScore? other = _
  rw [faceScore?_modifyStats, scores, scores]
  split
  · rw [if_pos rfl]
    rfl
  · rfl

@[simp] theorem records_credit (book : ScoreBook α) (count : Stats α → Stats α) (key : ScoreKey) :
    (book.credit count key).records = (book.touchRecord key.name).records := by
  simp [credit]

theorem mem_touched_credit (book : ScoreBook α) (count : Stats α → Stats α) (key other : ScoreKey) :
    other ∈ (book.credit count key).touched ↔ other ∈ book.touched ∨ other = key := by
  simp only [credit, touched_modifyStats, touched_openScore, Std.ExtTreeSet.mem_insert,
    Std.compare_eq_iff_eq]
  rw [or_comm, eq_comm]

theorem refreshTimer_credit (book : ScoreBook α) (count : Stats α → Stats α) (key : ScoreKey) :
    (book.credit count key).refreshTimer = book.refreshTimer := by
  simp [credit]

theorem credits_nothing (count : Stats α → Stats α) (face : FaceId) (book : ScoreBook α) :
    Credits count face (· ∈ ([] : List Name)) book book := by
  constructor <;> simp

/-- One more credit goes before the others, at a name that they do not reach. -/
theorem Credits.cons {rest : List Name} (apart : name ∉ rest)
    (later : Credits count face (· ∈ rest) (book.credit count ⟨name, face⟩) after) :
    Credits count face (· ∈ name :: rest) book after := by
  obtain ⟨timer, scores⟩ := book.faceScore?_credit count ⟨name, face⟩
  have deadlines := fun other => book.deadline?_touchRecord name other
  have postponed := postpones_credit count book ⟨name, face⟩
  have lifetime : (book.credit count ⟨name, face⟩).records.firstLifetime =
      book.records.firstLifetime := by
    rw [records_credit]
    exact Records.firstLifetime_create book.records book.now name
  have apartKey : ∀ other ∈ rest, (⟨other, face⟩ : ScoreKey) ≠ ⟨name, face⟩ := by
    rintro other member same
    cases same
    exact apart member
  constructor
  · intro other member
    by_cases same : other = name
    · subst same
      rw [later.spared _ fun reached => apart reached.1, scores, if_pos rfl]
      exact ⟨timer, rfl⟩
    · have listed := List.mem_of_ne_of_mem same member
      obtain ⟨handle, counted⟩ := later.counted other listed
      refine ⟨handle, ?_⟩
      rw [counted, openedStats, scores, if_neg (apartKey other listed)]
      rfl
  · intro key outside
    rw [later.spared key fun reached => outside ⟨.tail _ reached.1, reached.2⟩, scores, if_neg]
    rintro rfl
    exact outside ⟨.head _, rfl⟩
  · intro other member
    by_cases same : other = name
    · subst same
      rw [later.kept other apart, records_credit, deadlines, if_pos rfl]
    · have listed := List.mem_of_ne_of_mem same member
      rw [later.extended other listed, lifetime, postponed.now, postponed.config, records_credit,
        deadlines, if_neg same]
  · intro other unlisted
    obtain ⟨different, others⟩ := List.ne_and_not_mem_of_not_mem_cons unlisted
    rw [later.kept other others, records_credit, deadlines, if_neg different]
  · intro key
    have same : key = ⟨name, face⟩ ↔ key.name = name ∧ key.face = face := by
      cases key
      simp
    rw [later.marked, mem_touched_credit, same, List.mem_cons, or_and_right, or_assoc]

theorem credits_foldl (count : Stats α → Stats α) (face : FaceId) {names : List Name}
    (distinct : names.Nodup) (book : ScoreBook α) :
    Credits count face (· ∈ names) book
      (names.foldl (fun book name => book.credit count ⟨name, face⟩) book) := by
  induction names generalizing book with
  | nil => exact credits_nothing count face book
  | cons name rest ih =>
    obtain ⟨apart, distinct⟩ := List.nodup_cons.mp distinct
    exact .cons apart (ih distinct _)

theorem Credits.armRefresh (credits : Credits count face reached book after) :
    Credits count face reached book after.armRefresh where
  counted name member := by
    rw [faceScore?_armRefresh]
    exact credits.counted name member
  spared key outside := by
    rw [faceScore?_armRefresh]
    exact credits.spared key outside
  extended name member := by
    rw [records_armRefresh]
    exact credits.extended name member
  kept name outside := by
    rw [records_armRefresh]
    exact credits.kept name outside
  marked key := by
    rw [touched_armRefresh]
    exact credits.marked key

theorem credits_creditUpward (count : Stats α → Stats α) (book : ScoreBook α) (start : Name)
    (face : FaceId) :
    Credits count face (book.Reaches start) book (book.creditUpward count start face) := by
  have upward := credits_foldl count face (book.records.nodup_upward start) book
  simp only [mem_upward] at upward
  exact upward.armRefresh

theorem credits_one (count : Stats α → Stats α) (book : ScoreBook α) (name : Name)
    (face : FaceId) :
    Credits count face (· = name) book (book.credit count ⟨name, face⟩).armRefresh := by
  have one : Credits count face (· ∈ [name]) book (book.credit count ⟨name, face⟩) :=
    .cons List.not_mem_nil (credits_nothing count face _)
  simp only [List.mem_singleton] at one
  exact one.armRefresh

theorem above_credit (book : ScoreBook α) (count : Stats α → Stats α) (key : ScoreKey) :
    (book.credit count key).records.above key.name = book.records.above key.name := by
  unfold Records.above
  refine List.filter_congr fun other member => ?_
  have different : other ≠ key.name := by
    rintro rfl
    have self := Name.mem_properAncestors.mp member
    rw [Name.not_strictlyCovers_self] at self
    cases self
  rw [records_credit, contains_touchRecord]
  simp [different]

/-- Credit a name, then look in the table as it is now for the nearest record above, and go on there. -/
def climb (count : Stats α → Stats α) (face : FaceId) (book : ScoreBook α) (name : Name) :
    ScoreBook α :=
  let credited := book.credit count ⟨name, face⟩
  match _ : credited.records.parentOf? name with
  | none => credited
  | some next => climb count face credited next
termination_by name.length
decreasing_by exact Records.length_of_parentOf? ‹_›

/-- No credit on the way up changes what lies further up. -/
theorem climb_eq_foldl (count : Stats α → Stats α) (face : FaceId) (book : ScoreBook α) (name : Name) :
    climb count face book name = (name :: book.records.above name).foldl
      (fun book name => book.credit count ⟨name, face⟩) book := by
  fun_induction climb count face book name with
  | case1 book name credited last =>
    have nothing := Records.above_of_parentOf?_none last
    rw [above_credit book count ⟨name, face⟩] at nothing
    rw [nothing]
    rfl
  | case2 book name credited next found ih =>
    have above := Records.above_of_parentOf? found
    rw [above_credit book count ⟨name, face⟩] at above
    rw [ih, above]
    rfl

theorem climb_creditUpward (count : Stats α → Stats α) (book : ScoreBook α) (start : Name)
    (face : FaceId) : book.creditUpward count start face = (climb count face book start).armRefresh := by
  rw [climb_eq_foldl]
  rfl

/-- A credit with what it arms: each score that it opens decays one period from now, and a refresh comes. -/
structure Credited (count : Stats α → Stats α) (face : FaceId) (reached : Name → Prop)
    (book after : ScoreBook α) : Prop extends Credits count face reached book after where
  opened : ∀ name, reached name → book.faceScore? ⟨name, face⟩ = none → after.DecaysNext ⟨name, face⟩
  now : after.now = book.now
  refreshes : ∃ timer, after.refreshTimer = some timer ∧ (book.refreshTimer = some timer ∨
    after.timers.armed? timer = some (after.now + after.config.refreshPeriod, .refresh))

theorem Credits.credited (credits : Credits count face reached book middle.armRefresh)
    (grows : book.Grows middle.armRefresh) (timer : middle.refreshTimer = book.refreshTimer) :
    Credited count face reached book middle.armRefresh where
  toCredits := credits
  opened name member missing := by
    obtain ⟨handle, counted⟩ := credits.counted name member
    exact grows.decaysNext missing (Option.isSome_of_eq_some counted)
  now := grows.now
  refreshes := by
    rw [← timer]
    exact refreshes_armRefresh middle

theorem credited_creditUpward (count : Stats α → Stats α) (book : ScoreBook α) (start : Name)
    (face : FaceId) :
    Credited count face (book.Reaches start) book (book.creditUpward count start face) := by
  refine (credits_creditUpward count book start face).credited (grows_creditUpward count book start face) ?_
  let Same (middle : ScoreBook α) : Prop := middle.refreshTimer = book.refreshTimer
  have step : ∀ middle, Same middle → ∀ name ∈ start :: book.records.above start,
      Same (middle.credit count ⟨name, face⟩) :=
    fun middle same name _ => (refreshTimer_credit middle count ⟨name, face⟩).trans same
  exact List.foldlRecOn (motive := Same) _ _ rfl step

theorem credited_one (count : Stats α → Stats α) (book : ScoreBook α) (name : Name)
    (face : FaceId) :
    Credited count face (· = name) book (book.credit count ⟨name, face⟩).armRefresh :=
  (credits_one count book name face).credited
    ((grows_credit count book ⟨name, face⟩).trans (grows_armRefresh _))
    (refreshTimer_credit book count ⟨name, face⟩)

theorem creditRequest_of_nearest (nearest : book.nearestScored? name = some start) (face : FaceId) :
    book.creditRequest name face = book.creditUpward Stats.countRequest start face := by
  simp only [creditRequest, nearest]

theorem creditRequest_of_unscored (nearest : book.nearestScored? name = none) (face : FaceId) :
    book.creditRequest name face =
      (book.credit Stats.countRequest ⟨book.config.bootstrap, face⟩).armRefresh := by
  simp only [creditRequest, nearest]

/-- What crediting a request through a face does to a book. One request is counted at the nearest name with
scores and at every record above it, or at the bootstrap record alone where no name has any. -/
inductive CreditsRequest (name : Name) (face : FaceId) (book after : ScoreBook α) : Prop where
  | upward (start : Name) (nearest : book.NearestScored name start)
      (credited : Credited (fun stats => { stats with requests := stats.requests + 1 }) face
        (book.Reaches start) book after)
  | bootstrap (unscored : ∀ other : Name, other.covers name = true →
        ¬ (other ∈ book.standings ∧ book.records.contains other = true))
      (credited : Credited (fun stats => { stats with requests := stats.requests + 1 }) face
        (· = book.config.bootstrap) book after)

theorem creditsRequest_creditRequest (book : ScoreBook α) (name : Name) (face : FaceId) :
    CreditsRequest name face book (book.creditRequest name face) := by
  cases nearest : book.nearestScored? name with
  | some start =>
    rw [creditRequest_of_nearest nearest]
    exact .upward start (nearestScored_of_nearestScored? nearest)
      (credited_creditUpward Stats.countRequest book start face)
  | none =>
    rw [creditRequest_of_unscored nearest]
    exact .bootstrap (nearestScored?_eq_none_iff.mp nearest)
      (credited_one Stats.countRequest book book.config.bootstrap face)

/-- Crediting a request through one face after another. -/
inductive CreditsRequests (name : Name) : List FaceId → ScoreBook α → ScoreBook α → Prop where
  | none {book : ScoreBook α} : CreditsRequests name [] book book
  | cons {face : FaceId} {faces : List FaceId} {book middle after : ScoreBook α}
      (first : CreditsRequest name face book middle) (others : CreditsRequests name faces middle after) :
      CreditsRequests name (face :: faces) book after

theorem creditsRequests_foldl (name : Name) (faces : List FaceId) (book : ScoreBook α) :
    CreditsRequests name faces book
      (faces.foldl (fun book face => book.creditRequest name face) book) := by
  induction faces generalizing book with
  | nil => exact .none
  | cons face faces ih => exact .cons (creditsRequest_creditRequest book name face) (ih _)

/-- Whatever the state of a book, a credit counts one response at the name and at every record above it, or
one request at the nearest scored name and at every record above that. Where no name is scored, it counts
one request at the bootstrap record. -/
theorem credits_reach_records_once (book : ScoreBook α) (name : Name) (face : FaceId) :
    Credited (fun stats => { stats with responses := stats.responses + 1 }) face (book.Reaches name)
      book (book.creditResponse name face) ∧
    book.creditResponse name face = (climb Stats.countResponse face book name).armRefresh ∧
    ((∃ start, book.NearestScored name start ∧
        Credited (fun stats => { stats with requests := stats.requests + 1 }) face
          (book.Reaches start) book (book.creditRequest name face) ∧
        book.creditRequest name face = (climb Stats.countRequest face book start).armRefresh) ∨
      (∀ other : Name, other.covers name = true →
        ¬ (other ∈ book.standings ∧ book.records.contains other = true)) ∧
        Credited (fun stats => { stats with requests := stats.requests + 1 }) face
          (· = book.config.bootstrap) book (book.creditRequest name face)) := by
  refine ⟨credited_creditUpward Stats.countResponse book name face,
    climb_creditUpward Stats.countResponse book name face, ?_⟩
  cases nearest : book.nearestScored? name with
  | some start =>
    rw [creditRequest_of_nearest nearest]
    exact .inl ⟨start, nearestScored_of_nearestScored? nearest,
      credited_creditUpward Stats.countRequest book start face,
      climb_creditUpward Stats.countRequest book start face⟩
  | none =>
    rw [creditRequest_of_unscored nearest]
    exact .inr ⟨nearestScored?_eq_none_iff.mp nearest,
      credited_one Stats.countRequest book book.config.bootstrap face⟩

/-- The credit at the longer name passes over the name between the two, which has no record. -/
example :
    let book := (({ config := .standard } : ScoreBook Float).creditResponse ⟨["a"]⟩ ⟨1⟩).creditResponse
      ⟨["a", "b", "c"]⟩ ⟨1⟩
    (book.records.names.map fun name =>
      (name, (book.faceScore? ⟨name, ⟨1⟩⟩).map (·.stats.responses))) =
      [(⟨["a"]⟩, some 2), (⟨["a", "b", "c"]⟩, some 1)] := by decide +kernel

end Overhear.ScoreBook
