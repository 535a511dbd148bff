import Overhear.Proofs.Roster
import Overhear.Proofs.Score.Views

/-! The timers of a score book: each score has at most one decay timer, and the book one refresh timer.
Every operation on scores only arms missing timers and disarms those of scores that it drops. -/
namespace Overhear.ScoreBook

variable {α : Type}

/-- The handle that counts for an event, among those that a book holds. -/
def live (book : ScoreBook α) : Event → Option Handle
  | .forward _ => none
  | .decay name face => (book.faceScore? ⟨name, face⟩).bind (·.decayTimer)
  | .refresh => book.refreshTimer

def roster (book : ScoreBook α) : Roster := ⟨book.timers, book.live⟩

/-- Nothing counts in a book without scores and without a refresh to come. -/
theorem live_of_unscored {book : ScoreBook α} (unscored : ∀ key, book.faceScore? key = none)
    (unrefreshed : book.refreshTimer = none) (event : Event) : book.live event = none := by
  cases event with
  | forward name => rfl
  | decay name face => rw [live, unscored, Option.bind_none]
  | refresh => exact unrefreshed

/-- From one book to another only timers of scores change. -/
def Upkeep (book after : ScoreBook α) : Prop :=
  Roster.Changes (fun event => event.isUpkeep = true) book.roster after.roster

theorem Upkeep.refl (book : ScoreBook α) : book.Upkeep book := Roster.Changes.refl

theorem Upkeep.trans {book middle after : ScoreBook α} (first : book.Upkeep middle)
    (second : middle.Upkeep after) : book.Upkeep after := Roster.Changes.trans first second

/-- Steps that are upkeep one by one are upkeep together. -/
theorem Upkeep.foldl {β : Type} (step : ScoreBook α → β → ScoreBook α)
    (upkeep : ∀ (book : ScoreBook α) (item : β), book.Upkeep (step book item)) (items : List β)
    (book : ScoreBook α) :
    book.Upkeep (items.foldl step book) := by
  induction items generalizing book with
  | nil => exact .refl book
  | cons item rest ih => exact (upkeep book item).trans (ih (step book item))

/-- Neither timers nor scores change. -/
theorem upkeep_of_eq {book after : ScoreBook α} (timers : after.timers = book.timers)
    (live : ∀ event, after.live event = book.live event) : book.Upkeep after :=
  Roster.Changes.of_eq timers live

theorem touchRecord_upkeep (book : ScoreBook α) (name : Name) :
    book.Upkeep (book.touchRecord name) := upkeep_of_eq rfl fun event => by cases event <;> rfl

theorem extendRecord_upkeep (book : ScoreBook α) (name : Name) :
    book.Upkeep (book.extendRecord name) := upkeep_of_eq rfl fun event => by cases event <;> rfl

theorem setScore_upkeep {book : ScoreBook α} {key : ScoreKey} {score : FaceScore α}
    (same : (book.faceScore? key).bind (·.decayTimer) = score.decayTimer) :
    book.Upkeep (book.setScore key score) := by
  refine upkeep_of_eq rfl ?_
  intro event
  cases event with
  | forward name => rfl
  | decay name face =>
    simp only [live, faceScore?_setScore]
    split
    · rename_i equal
      rw [equal, same, Option.bind_some]
    · rfl
  | refresh => rfl

theorem modifyStats_upkeep (book : ScoreBook α) (key : ScoreKey) (change : Stats α → Stats α) :
    book.Upkeep (book.modifyStats key change) := by
  rcases book.modifyStats_cases key change with ⟨-, same⟩ | ⟨score, found, same⟩
  · rw [same]
    exact .refl book
  · rw [same]
    exact setScore_upkeep (by simp [found, FaceScore.restate])

/-- A decay timer may be armed where none counts, whatever the book held for it before. -/
theorem armDecay_changes (book : ScoreBook α) (key : ScoreKey) (score : FaceScore α)
    {before : Roster} (timers : before.timers = book.timers)
    (idle : before.live (.decay key.name key.face) = none)
    (others : ∀ event, event ≠ .decay key.name key.face → before.live event = book.live event) :
    Roster.Changes (fun event => event.isUpkeep = true) before (book.armDecay key score).roster := by
  refine .engage (.decay key.name key.face) book.config.decayPeriod .refl rfl idle ?_ ?_
  · rw [timers]
    rfl
  · intro event
    by_cases same : event = .decay key.name key.face
    · simp [same, roster, armDecay, live, faceScore?_setScore, timers]
    · rw [if_neg same, others event same]
      cases event with
      | forward name => rfl
      | decay name face =>
        have otherKey : (⟨name, face⟩ : ScoreKey) ≠ key := by
          intro same
          subst same
          exact same rfl
        simp only [roster, armDecay, live, faceScore?_setScore, if_neg otherKey]
        rfl
      | refresh => rfl

theorem armRefresh_upkeep (book : ScoreBook α) : book.Upkeep book.armRefresh := by
  unfold armRefresh
  split
  · exact .refl book
  · rename_i idle
    refine .engage .refresh book.config.refreshPeriod .refl rfl idle rfl ?_
    intro event
    cases event <;> rfl

section

variable [Scalar α]

theorem openScore_upkeep (book : ScoreBook α) (key : ScoreKey) : book.Upkeep (book.openScore key) := by
  unfold openScore
  refine (touchRecord_upkeep book key.name).trans ?_
  dsimp only
  split
  · exact .refl _
  · rename_i idle
    refine armDecay_changes _ key _ rfl ?_ fun event _ => rfl
    simp only [roster, live]
    cases found : (book.touchRecord key.name).faceScore? key with
    | none => rfl
    | some score => simpa [found] using idle

theorem credit_upkeep (count : Stats α → Stats α) (book : ScoreBook α) (key : ScoreKey) :
    book.Upkeep (book.credit count key) := by
  refine ((openScore_upkeep book key).trans (modifyStats_upkeep _ key count)).trans ?_
  exact upkeep_of_eq rfl fun event => by cases event <;> rfl

theorem creditUpward_upkeep (count : Stats α → Stats α) (book : ScoreBook α) (start : Name)
    (face : FaceId) : book.Upkeep (book.creditUpward count start face) := by
  refine Upkeep.trans ?_ (armRefresh_upkeep _)
  exact Upkeep.foldl (fun book name => book.credit count ⟨name, face⟩)
    (fun book name => credit_upkeep count book _) _ book

theorem creditRequest_upkeep (book : ScoreBook α) (name : Name) (face : FaceId) :
    book.Upkeep (book.creditRequest name face) := by
  unfold creditRequest
  split
  · exact creditUpward_upkeep _ book _ face
  · exact (credit_upkeep _ book _).trans (armRefresh_upkeep _)

theorem creditResponse_upkeep (book : ScoreBook α) (name : Name) (face : FaceId) :
    book.Upkeep (book.creditResponse name face) := creditUpward_upkeep _ book name face

theorem refreshTouched_upkeep (book : ScoreBook α) : book.Upkeep book.refreshTouched.2 := by
  have updated := Upkeep.foldl (fun book key => book.update key)
    (fun book key => modifyStats_upkeep book key _)
    (book.touched.toList.filter fun key => (book.faceScore? key).isSome) book
  exact updated.trans (upkeep_of_eq rfl fun event => by cases event <;> rfl)

end

theorem setDestination_upkeep (book : ScoreBook α) (name : Name) (destination : Coordinate) :
    book.Upkeep (book.setDestination name destination) := by
  refine (touchRecord_upkeep book name).trans (upkeep_of_eq rfl ?_)
  intro event
  cases event with
  | forward other => rfl
  | decay other face =>
    change ((book.setDestination name destination).faceScore? ⟨other, face⟩).bind (·.decayTimer) = _
    rw [faceScore?_setDestination]
    rfl
  | refresh => rfl

section

variable [Scalar α]

/-- `ended` is the roster of a book once the timer of an event has fired. -/
def Ended (book : ScoreBook α) (event : Event) (ended : Roster) : Prop :=
  ended.timers = book.timers ∧
    ∀ other, ended.live other = if other = event then none else book.live other

theorem fireDecay_of_stale {book : ScoreBook α} {handle : Handle} (key : ScoreKey)
    (stale : book.live (.decay key.name key.face) ≠ some handle) :
    book.fireDecay handle key = (false, book) := by
  simp only [live] at stale
  cases known : book.faceScore? key with
  | none => simp [fireDecay, known]
  | some score =>
    have other : score.decayTimer ≠ some handle := by simpa [known] using stale
    simp [fireDecay, known, other]

/-- A decay timer that counts is replaced by a new one. -/
theorem fireDecay_of_live {book : ScoreBook α} {handle : Handle} (key : ScoreKey)
    (counts : book.live (.decay key.name key.face) = some handle) :
    (book.fireDecay handle key).1 = true ∧
      ∃ ended, book.Ended (.decay key.name key.face) ended ∧
        Roster.Changes (fun event => event.isUpkeep = true) ended
          (book.fireDecay handle key).2.roster := by
  obtain ⟨score, found, timer⟩ := Option.bind_eq_some_iff.mp counts
  have fired : book.fireDecay handle key =
      (true, book.armDecay key
        { score with stats := score.stats.decay book.config.decayFactor }) := by
    simp only [fireDecay, show book.faceScore? key = some score from found, timer, if_pos]
  rw [fired]
  let ended : Roster :=
    ⟨book.timers, fun other => if other = .decay key.name key.face then none else book.live other⟩
  exact ⟨rfl, ended, ⟨rfl, fun _ => rfl⟩,
    armDecay_changes book key _ rfl (if_pos rfl) fun event other => if_neg other⟩

theorem fireRefresh_of_stale {book : ScoreBook α} {handle : Handle}
    (stale : book.live .refresh ≠ some handle) : book.fireRefresh handle = (false, book) :=
  if_neg stale

/-- A refresh timer that counts is replaced by a new one while there are scores. -/
theorem fireRefresh_of_live {book : ScoreBook α} {handle : Handle}
    (counts : book.live .refresh = some handle) :
    (book.fireRefresh handle).1 = true ∧
      ∃ ended, book.Ended .refresh ended ∧
        Roster.Changes (fun event => event.isUpkeep = true) ended
          (book.fireRefresh handle).2.roster := by
  have timer : book.refreshTimer = some handle := counts
  simp only [fireRefresh, if_pos timer, true_and]
  refine ⟨({ book with refreshTimer := none } : ScoreBook α).roster, ⟨rfl, ?_⟩, ?_⟩
  · intro other
    cases other <;> rfl
  · refine (refreshTouched_upkeep _).trans ?_
    split
    · exact .refl _
    · exact armRefresh_upkeep _

end

theorem mem_handles_standing {standing : Standing α} {handle : Handle} :
    handle ∈ standing.handles ↔
      ∃ (face : FaceId) (score : FaceScore α),
        standing.faces[face]? = some score ∧ score.decayTimer = some handle := by
  simp only [Standing.handles, List.mem_filterMap, Prod.exists,
    Std.ExtTreeMap.mem_toList_iff_getElem?_eq_some]

theorem live_forget (book : ScoreBook α) (name other : Name) (face : FaceId) :
    (book.forget name).live (.decay other face) =
      if other = name then none else book.live (.decay other face) := by
  simp only [live, faceScore?_forget]
  split <;> rfl

/-- Forgetting a name only disarms the decay timers under it. -/
theorem forget_changes (book : ScoreBook α) (name : Name) :
    Roster.Changes (fun event => ∃ face, event = .decay name face) book.roster
      (book.forget name).roster := by
  cases found : book.standing? name with
  | none =>
    have same : book.forget name = book := by simp only [forget, found]
    rw [same]
    exact .refl
  | some standing =>
    refine .release (fun event => ∃ face, event = .decay name face) standing.handles .refl
      (fun _ ended => ended) ?_ ?_ ?_ ?_
    · intro handle
      rw [mem_handles_standing]
      constructor
      · rintro ⟨face, score, present, timer⟩
        exact ⟨_, ⟨face, rfl⟩, by simp [roster, live, faceScore?, found, present, timer]⟩
      · rintro ⟨event, ⟨face, rfl⟩, counts⟩
        refine ⟨face, ?_⟩
        simpa [roster, live, faceScore?, found, Option.bind_eq_some_iff] using counts
    · simp only [roster, forget, found]
    · rintro event ⟨face, rfl⟩
      exact (live_forget book name name face).trans (if_pos rfl)
    · intro event outside
      cases event with
      | forward other => rfl
      | decay other face =>
        have different : other ≠ name := by
          intro same
          subst same
          exact outside ⟨face, rfl⟩
        exact (live_forget book name other face).trans (if_neg different)
      | refresh => exact refreshTimer_forget book name

/-- The event is the decay of a score under one of the names. -/
def DecaysAny (names : List Name) (event : Event) : Prop :=
  ∃ name ∈ names, ∃ face, event = .decay name face

theorem foldl_forget_changes (names : List Name) (book : ScoreBook α) :
    Roster.Changes (DecaysAny names) book.roster
      (names.foldl (fun book name => book.forget name) book).roster := by
  induction names generalizing book with
  | nil => exact .refl
  | cons name rest ih =>
    have first : Roster.Changes (DecaysAny (name :: rest)) book.roster (book.forget name).roster :=
      (forget_changes book name).widen fun _ decays => ⟨name, .head _, decays⟩
    apply first.trans
    apply (ih (book.forget name)).widen
    intro event ⟨other, member, decays⟩
    exact ⟨other, .tail _ member, decays⟩

/-- A sweep only disarms the decay timers under the names that it takes out. -/
theorem sweep_changes (book : ScoreBook α) :
    Roster.Changes (DecaysAny book.sweep.1) book.roster book.sweep.2.roster := by
  let taken : ScoreBook α := { book with records := (book.records.takeExpired book.now).2 }
  have same : Roster.Changes (DecaysAny book.sweep.1) book.roster taken.roster := by
    refine .of_eq rfl ?_
    intro event
    cases event <;> rfl
  exact same.trans (foldl_forget_changes book.sweep.1 taken)

theorem forget_upkeep (book : ScoreBook α) (name : Name) : book.Upkeep (book.forget name) :=
  (forget_changes book name).widen fun _ ⟨_, decays⟩ => decays ▸ rfl

theorem sweep_upkeep (book : ScoreBook α) : book.Upkeep book.sweep.2 :=
  (sweep_changes book).widen fun _ ⟨_, _, _, decays⟩ => decays ▸ rfl

theorem mem_handles {book : ScoreBook α} {handle : Handle} :
    handle ∈ book.handles ↔ ∃ event, book.live event = some handle := by
  simp only [handles, List.mem_append, List.mem_flatMap, Prod.exists, mem_handles_standing,
    Std.ExtTreeMap.mem_toList_iff_getElem?_eq_some, Option.mem_toList]
  constructor
  · rintro (⟨name, standing, found, face, score, present, timer⟩ | refresh)
    · exact ⟨.decay name face, by simp [live, faceScore?, standing?, found, present, timer]⟩
    · exact ⟨.refresh, refresh⟩
  · rintro ⟨event, counts⟩
    cases event with
    | forward name => cases counts
    | decay name face =>
      obtain ⟨score, found, timer⟩ := Option.bind_eq_some_iff.mp counts
      obtain ⟨standing, known, present⟩ := Option.bind_eq_some_iff.mp found
      exact .inl ⟨name, standing, known, face, score, present, timer⟩
    | refresh => exact .inr counts

/-- After a shutdown no timer of the book counts. -/
theorem live_shutdown (book : ScoreBook α) (event : Event) : book.shutdown.live event = none := by
  cases event with
  | forward name => rfl
  | decay name face =>
    rw [live, faceScore?_shutdown]
    cases book.faceScore? ⟨name, face⟩ <;> rfl
  | refresh => rfl

theorem shutdown_upkeep (book : ScoreBook α) : book.Upkeep book.shutdown := by
  refine .release (fun event => event.isUpkeep = true) book.handles .refl (fun _ ended => ended)
    ?_ rfl (fun event _ => live_shutdown book event) ?_
  · intro handle
    rw [mem_handles]
    constructor
    · rintro ⟨event, counts⟩
      refine ⟨event, ?_, counts⟩
      cases event with
      | forward name => cases counts
      | decay name face => rfl
      | refresh => rfl
    · rintro ⟨event, -, counts⟩
      exact ⟨event, counts⟩
  · intro event outside
    cases event with
    | forward name => rfl
    | decay name face => exact False.elim (outside rfl)
    | refresh => exact False.elim (outside rfl)

end Overhear.ScoreBook
