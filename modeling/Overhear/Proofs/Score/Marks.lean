import Overhear.Proofs.Score.Session
import Overhear.Proofs.Score.Views

/-! Counters and marks. Whatever was counted since the last refresh stands in a marked score, so a refresh
that goes by the marks leaves no counter behind. -/
namespace Overhear

/-- Nothing was counted since the last update. -/
def Stats.Idle {α : Type} (stats : Stats α) : Prop := stats.requests = 0 ∧ stats.responses = 0

namespace ScoreBook

variable {α : Type} {book after : ScoreBook α} {key : ScoreKey}

structure Marked (book : ScoreBook α) : Prop where
  scored : ∀ key ∈ book.touched, (book.faceScore? key).isSome
  counted : ∀ key score, book.faceScore? key = some score → ¬ score.stats.Idle → key ∈ book.touched

theorem Marked.of_same (marked : book.Marked)
    (scores : ∀ key, after.faceScore? key = book.faceScore? key)
    (touched : after.touched = book.touched) : after.Marked where
  scored key member := by
    rw [scores]
    exact marked.scored key (touched ▸ member)
  counted key score found busy := by
    rw [scores] at found
    exact touched ▸ marked.counted key score found busy

/-- A score may be written anew as long as no count comes up in it. -/
theorem Marked.written (marked : book.Marked) {written : FaceScore α}
    (scores : ∀ other, after.faceScore? other =
      if other = key then some written else book.faceScore? other)
    (touched : after.touched = book.touched)
    (counts : ¬ written.stats.Idle → key ∈ book.touched) : after.Marked where
  scored other member := by
    rw [scores]
    split
    · rfl
    · exact marked.scored other (touched ▸ member)
  counted other score found busy := by
    rw [scores] at found
    rw [touched]
    split at found
    · rename_i same
      cases found
      exact same ▸ counts busy
    · exact marked.counted other score found busy

theorem Marked.modifyStats (marked : book.Marked) {change : Stats α → Stats α}
    (idle : ∀ stats : Stats α, stats.Idle → (change stats).Idle) :
    (book.modifyStats key change).Marked := by
  rcases book.modifyStats_cases key change with ⟨-, same⟩ | ⟨score, found, same⟩
  · rwa [same]
  · rw [same]
    refine marked.written (fun other => faceScore?_setScore book key other _) rfl ?_
    exact fun busy => marked.counted key score found fun resting => busy (idle _ resting)

theorem Marked.armRefresh (marked : book.Marked) : book.armRefresh.Marked :=
  marked.of_same (fun key => faceScore?_armRefresh book key) (touched_armRefresh book)

section

variable [Scalar α]

theorem Marked.openScore (marked : book.Marked) : (book.openScore key).Marked := by
  obtain ⟨timer, scores⟩ := book.faceScore?_openScore key
  refine marked.written scores (touched_openScore book key) ?_
  intro busy
  cases found : book.faceScore? key with
  | none =>
    have fresh : (Stats.fresh : Stats α).Idle := ⟨rfl, rfl⟩
    exact absurd fresh (by simpa [openedStats, found] using busy)
  | some score => exact marked.counted key score found (by simpa [openedStats, found] using busy)

/-- What is counted is marked at once. -/
theorem Marked.credit (marked : book.Marked) (count : Stats α → Stats α) :
    (book.credit count key).Marked := by
  have opened : (book.openScore key).Marked := marked.openScore
  have present : ((book.openScore key).faceScore? key).isSome := by
    obtain ⟨timer, scores⟩ := book.faceScore?_openScore key
    simp [scores]
  have scores : ∀ other, (book.credit count key).faceScore? other =
      ((book.openScore key).modifyStats key count).faceScore? other := fun other => rfl
  constructor
  · intro other member
    rw [scores, faceScore?_modifyStats]
    split
    · simpa using present
    · rename_i different
      refine opened.scored other ?_
      simpa [ScoreBook.credit, Ne.symm different] using member
  · intro other score found busy
    rw [scores, faceScore?_modifyStats] at found
    simp only [ScoreBook.credit, touched_modifyStats, Std.ExtTreeSet.mem_insert,
      Std.compare_eq_iff_eq]
    split at found
    · rename_i same
      exact .inl same.symm
    · exact .inr (opened.counted other score found busy)

/-- What single credits keep, a credit up the records keeps. -/
theorem creditUpward_keeps {holds : ScoreBook α → Prop} {count : Stats α → Stats α}
    (credits : ∀ book key, holds book → holds (book.credit count key))
    (arms : ∀ book, holds book → holds book.armRefresh) (held : holds book) (start : Name)
    (face : FaceId) : holds (book.creditUpward count start face) := by
  refine arms _ ?_
  exact List.foldlRecOn _ _ held fun book held name _ => credits book ⟨name, face⟩ held

theorem creditRequest_keeps {holds : ScoreBook α → Prop}
    (credits : ∀ book key, holds book → holds (book.credit Stats.countRequest key))
    (arms : ∀ book, holds book → holds book.armRefresh) (held : holds book) (name : Name)
    (face : FaceId) : holds (book.creditRequest name face) := by
  unfold creditRequest
  split
  · exact creditUpward_keeps credits arms held _ face
  · exact arms _ (credits book _ held)

theorem idle_update (smoothing : α) (stats : Stats α) : (stats.update smoothing).Idle := ⟨rfl, rfl⟩

theorem idle_decay {factor : α} {stats : Stats α} (idle : stats.Idle) : (stats.decay factor).Idle :=
  idle

theorem Marked.update (marked : book.Marked) : (book.update key).Marked :=
  marked.modifyStats fun stats _ => idle_update _ stats

theorem Marked.updateLongest (marked : book.Marked) (name : Name) (face : FaceId) :
    (book.updateLongest name face).2.Marked := by
  refine List.foldlRecOn _ _ marked fun book marked key _ => ?_
  have updated : (book.update key).Marked := marked.update
  exact updated.of_same (fun other => rfl) rfl

/-- Each score among those listed is updated, and no other. A key listed twice would be updated twice. -/
theorem faceScore?_foldl_update {keys : List ScoreKey} (distinct : keys.Nodup) (book : ScoreBook α)
    (other : ScoreKey) :
    (keys.foldl (fun book key => book.update key) book).faceScore? other =
      if other ∈ keys then (book.faceScore? other).map (.restate (Stats.update book.config.smoothing))
      else book.faceScore? other := by
  induction keys generalizing book with
  | nil => simp
  | cons key rest ih =>
    obtain ⟨absent, distinct⟩ := List.nodup_cons.mp distinct
    rw [List.foldl_cons, ih distinct]
    simp only [ScoreBook.update, faceScore?_modifyStats, config_modifyStats, List.mem_cons]
    by_cases same : other = key
    · subst same
      simp [absent]
    · simp [same]

theorem faceScore?_refreshTouched (book : ScoreBook α) (key : ScoreKey) :
    book.refreshTouched.2.faceScore? key =
      if key ∈ book.touched then
        (book.faceScore? key).map (.restate (Stats.update book.config.smoothing))
      else book.faceScore? key := by
  have distinct : book.touched.toList.Nodup := by
    refine book.touched.distinct_toList.imp ?_
    rintro key other different rfl
    exact different Std.compare_self
  refine (faceScore?_foldl_update (distinct.filter _) book key).trans ?_
  simp only [List.mem_filter, Std.ExtTreeSet.mem_toList]
  cases found : book.faceScore? key with
  | none => simp
  | some score => simp

theorem Marked.idle_refreshTouched (marked : book.Marked) {score : FaceScore α}
    (found : book.refreshTouched.2.faceScore? key = some score) : score.stats.Idle := by
  rw [faceScore?_refreshTouched] at found
  split at found
  · obtain ⟨before, -, rfl⟩ := Option.map_eq_some_iff.mp found
    exact idle_update _ before.stats
  · rename_i unmarked
    by_contra busy
    exact unmarked (marked.counted key score found busy)

theorem Marked.refreshTouched (marked : book.Marked) : book.refreshTouched.2.Marked where
  scored _ member := absurd member Std.ExtTreeSet.not_mem_empty
  counted _ _ found busy := absurd (marked.idle_refreshTouched found) busy

end

theorem Marked.forget (marked : book.Marked) (name : Name) : (book.forget name).Marked where
  scored key member := by
    obtain ⟨before, spared⟩ := (mem_touched_forget book key name).mp member
    have present := marked.scored key before
    have different : key.name ≠ name := fun same => spared ⟨same, present⟩
    rwa [faceScore?_forget, if_neg different]
  counted key score found busy := by
    rw [faceScore?_forget] at found
    split at found
    · cases found
    · rename_i different
      rw [mem_touched_forget]
      exact ⟨marked.counted key score found busy, fun dropped => different dropped.1⟩

theorem Marked.sweep (marked : book.Marked) : book.sweep.2.Marked := by
  have swept : ({ book with records := (book.records.takeExpired book.now).2 } : ScoreBook α).Marked :=
    marked.of_same (fun key => rfl) rfl
  exact List.foldlRecOn _ _ swept fun book marked name _ => marked.forget name

theorem Marked.shutdown (marked : book.Marked) : book.shutdown.Marked where
  scored key member := by simpa using marked.scored key member
  counted key score found busy := by
    rw [faceScore?_shutdown] at found
    obtain ⟨before, present, rfl⟩ := Option.map_eq_some_iff.mp found
    exact marked.counted key before present busy

variable [Scalar α]

theorem Marked.fireDecay (marked : book.Marked) (handle : Handle) :
    (book.fireDecay handle key).2.Marked := by
  unfold ScoreBook.fireDecay
  split
  · exact marked
  · rename_i score found
    split
    · refine marked.written (fun other => faceScore?_armDecay book key other _) rfl ?_
      exact fun busy => marked.counted key score found fun idle => busy (idle_decay idle)
    · exact marked

theorem Marked.fireRefresh (marked : book.Marked) (handle : Handle) :
    (book.fireRefresh handle).2.Marked := by
  unfold ScoreBook.fireRefresh
  split
  · have unarmed : ({ book with refreshTimer := none } : ScoreBook α).Marked :=
      marked.of_same (fun key => rfl) rfl
    dsimp only
    split
    · exact unarmed.refreshTouched
    · exact unarmed.refreshTouched.armRefresh
  · exact marked

theorem Marked.perform (marked : book.Marked) (act : Act) : (book.perform act).2.Marked := by
  cases act with
  | openScore key => exact marked.openScore
  | creditRequest name face =>
    exact creditRequest_keeps (fun book key marked => marked.credit _)
      (fun book marked => marked.armRefresh) marked name face
  | creditResponse name face =>
    exact creditUpward_keeps (fun book key marked => marked.credit _)
      (fun book marked => marked.armRefresh) marked name face
  | update key => exact marked.update
  | updateLongest name face => exact marked.updateLongest name face
  | decay key => exact marked.modifyStats fun stats idle => idle_decay idle
  | refreshTouched => exact marked.refreshTouched
  | setDestination name destination =>
    exact marked.of_same (fun key => faceScore?_setDestination book key name destination) rfl
  | forget name => exact marked.forget name
  | sweep => exact marked.sweep
  | shutdown => exact marked.shutdown
  | move move => exact marked.of_same (fun key => rfl) rfl
  | deliver firing =>
    simp only [ScoreBook.perform, ScoreBook.fire]
    split
    · exact marked
    · exact marked.fireDecay firing.handle
    · exact marked.fireRefresh firing.handle

/-- What delivering a refresh timer does to the scores of a book. -/
structure RefreshesOnce (book : ScoreBook α) (handle : Handle) : Prop where
  accepted_iff : (book.fireRefresh handle).1 = true ↔ book.refreshTimer = some handle
  refused : (book.fireRefresh handle).1 = false → (book.fireRefresh handle).2 = book
  updated : (book.fireRefresh handle).1 = true → ∀ key ∈ book.touched, ∃ score,
    book.faceScore? key = some score ∧ (book.fireRefresh handle).2.faceScore? key =
      some { score with stats := score.stats.update book.config.smoothing } ∧
    score.stats.Updates book.config.smoothing (score.stats.update book.config.smoothing)
  spared : (book.fireRefresh handle).1 = true → ∀ key, key ∉ book.touched →
    (book.fireRefresh handle).2.faceScore? key = book.faceScore? key
  idle : (book.fireRefresh handle).1 = true → ∀ key score,
    (book.fireRefresh handle).2.faceScore? key = some score → score.stats.Idle
  unmarked : (book.fireRefresh handle).1 = true → (book.fireRefresh handle).2.touched = ∅

theorem fireRefresh_accepted_iff {handle : Handle} :
    (book.fireRefresh handle).1 = true ↔ book.refreshTimer = some handle := by
  unfold ScoreBook.fireRefresh
  split
  · rename_i live
    exact iff_of_true rfl live
  · rename_i stale
    exact iff_of_false Bool.false_ne_true stale

/-- A refresh that is accepted does to the scores what updating the touched ones does. -/
theorem fireRefresh_scores {handle : Handle} (accepted : (book.fireRefresh handle).1 = true) :
    (∀ key, (book.fireRefresh handle).2.faceScore? key = book.refreshTouched.2.faceScore? key) ∧
      (book.fireRefresh handle).2.touched = ∅ := by
  have live := fireRefresh_accepted_iff.mp accepted
  have unarmed : ∀ key,
      ({ book with refreshTimer := none } : ScoreBook α).refreshTouched.2.faceScore? key =
        book.refreshTouched.2.faceScore? key := by
    intro key
    simp only [faceScore?_refreshTouched]
    rfl
  simp only [ScoreBook.fireRefresh, if_pos live]
  split
  · exact ⟨unarmed, rfl⟩
  · simp only [faceScore?_armRefresh, touched_armRefresh]
    exact ⟨unarmed, rfl⟩

theorem fireRefresh_refused {handle : Handle} (refused : (book.fireRefresh handle).1 = false) :
    (book.fireRefresh handle).2 = book := by
  unfold ScoreBook.fireRefresh at refused ⊢
  split at refused
  · cases refused
  · rename_i stale
    rw [if_neg stale]

theorem Marked.refreshesOnce (marked : book.Marked) (handle : Handle) : book.RefreshesOnce handle := by
  constructor
  · exact fireRefresh_accepted_iff
  · exact fireRefresh_refused
  · intro accepted key member
    obtain ⟨score, found⟩ := Option.isSome_iff_exists.mp (marked.scored key member)
    refine ⟨score, found, ?_, score.stats.updates_update _⟩
    rw [(fireRefresh_scores accepted).1, faceScore?_refreshTouched, if_pos member, found]
    rfl
  · intro accepted key unmarked
    rw [(fireRefresh_scores accepted).1, faceScore?_refreshTouched, if_neg unmarked]
  · intro accepted key score found
    rw [(fireRefresh_scores accepted).1] at found
    exact marked.idle_refreshTouched found
  · exact fun accepted => (fireRefresh_scores accepted).2

/-- Whatever a host did with a new book, all that was counted since the last refresh stands in a marked
score, and the next refresh updates the marked scores and leaves no counter. -/
theorem refresh_loses_no_credit (config : ScoreConfig α) (timers : Timers Event) (records : Records)
    (acts : List Act) (handle : Handle) :
    let book := (Session.after { book := { config, timers, records } } acts).book
    (∀ key score, book.faceScore? key = some score →
        score.stats.requests ≠ 0 ∨ score.stats.responses ≠ 0 → key ∈ book.touched) ∧
      book.RefreshesOnce handle := by
  intro book
  have start : ({ config, timers, records } : ScoreBook α).Marked :=
    ⟨fun key member => absurd member Std.ExtTreeSet.not_mem_empty, by simp [faceScore?, standing?]⟩
  have marked : book.Marked :=
    Session.after_keeps start fun book marked act _ => Marked.perform marked act
  refine ⟨fun key score found counted => marked.counted key score found ?_, marked.refreshesOnce handle⟩
  rintro ⟨noRequests, noResponses⟩
  exact counted.elim (fun some => some noRequests) fun some => some noResponses

end ScoreBook

end Overhear
