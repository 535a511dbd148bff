import Mathlib.Tactic.Linarith
import Mathlib.Tactic.NormNum
import Overhear.Proofs.Score.Lifetimes
import Overhear.Proofs.Score.Marks
import Overhear.Proofs.Settings

/-! Properties of the statistics that every score of a book has. One that a new score has and that counts,
updates and decays keep holds of all scores after any session; that a ratio and a score lie between zero
and one is such a property. -/
namespace Overhear

variable {α : Type}

/-- A property that statistics start with and that no change of them takes away. -/
structure Stats.Lasting [Scalar α] (smoothing factor : α) (holds : Stats α → Prop) : Prop where
  fresh : holds .fresh
  countRequest : ∀ stats, holds stats → holds stats.countRequest
  countResponse : ∀ stats, holds stats → holds stats.countResponse
  update : ∀ stats, holds stats → holds (stats.update smoothing)
  decay : ∀ stats, holds stats → holds (stats.decay factor)

namespace ScoreBook

variable {holds : Stats α → Prop} {book after : ScoreBook α} {key : ScoreKey} {config : ScoreConfig α}

/-- All scores of a book with these settings have the property. -/
structure Throughout (config : ScoreConfig α) (holds : Stats α → Prop) (book : ScoreBook α) : Prop where
  config : book.config = config
  scores : ∀ key score, book.faceScore? key = some score → holds score.stats

theorem Throughout.of_same (throughout : book.Throughout config holds)
    (same : after.config = book.config)
    (scores : ∀ key score, after.faceScore? key = some score → book.faceScore? key = some score) :
    after.Throughout config holds where
  config := same.trans throughout.config
  scores key score found := throughout.scores key score (scores key score found)

/-- One score may be written anew, with statistics that have the property. -/
theorem Throughout.written (throughout : book.Throughout config holds) {written : FaceScore α}
    (same : after.config = book.config)
    (scores : ∀ other, after.faceScore? other =
      if other = key then some written else book.faceScore? other)
    (held : holds written.stats) : after.Throughout config holds where
  config := same.trans throughout.config
  scores other score found := by
    rw [scores] at found
    split at found
    · cases found
      exact held
    · exact throughout.scores other score found

theorem Throughout.modifyStats (throughout : book.Throughout config holds) {change : Stats α → Stats α}
    (keeps : ∀ stats, holds stats → holds (change stats)) :
    (book.modifyStats key change).Throughout config holds := by
  rcases book.modifyStats_cases key change with ⟨-, same⟩ | ⟨score, found, same⟩
  · rwa [same]
  · rw [same]
    exact throughout.written rfl (fun other => faceScore?_setScore book key other _)
      (keeps _ (throughout.scores key score found))

theorem Throughout.armRefresh (throughout : book.Throughout config holds) :
    book.armRefresh.Throughout config holds :=
  throughout.of_same (postpones_armRefresh book).config fun key score found => by
    rwa [faceScore?_armRefresh] at found

theorem Throughout.forget (throughout : book.Throughout config holds) (name : Name) :
    (book.forget name).Throughout config holds := by
  refine throughout.of_same (postpones_forget book name).config fun key score found => ?_
  rw [faceScore?_forget] at found
  split at found
  · cases found
  · exact found

variable [Scalar α] (lasting : Stats.Lasting config.smoothing config.decayFactor holds)

include lasting

theorem Throughout.openScore (throughout : book.Throughout config holds) :
    (book.openScore key).Throughout config holds := by
  obtain ⟨timer, scores⟩ := book.faceScore?_openScore key
  refine throughout.written (postpones_openScore book key).config scores ?_
  cases found : book.faceScore? key with
  | none =>
    simp only [openedStats, found, Option.getD_none]
    exact lasting.fresh
  | some score =>
    simp only [openedStats, found, Option.getD_some]
    exact throughout.scores key score found

theorem Throughout.credit (throughout : book.Throughout config holds) {count : Stats α → Stats α}
    (keeps : ∀ stats, holds stats → holds (count stats)) :
    (book.credit count key).Throughout config holds :=
  ((throughout.openScore lasting).modifyStats keeps).of_same rfl fun _ _ => id

theorem Throughout.update (throughout : book.Throughout config holds) :
    (book.update key).Throughout config holds :=
  throughout.modifyStats (throughout.config ▸ lasting.update)

theorem Throughout.refreshTouched (throughout : book.Throughout config holds) :
    book.refreshTouched.2.Throughout config holds := by
  have updated : ((book.touched.toList.filter fun key => (book.faceScore? key).isSome).foldl
      (fun book key => book.update key) book).Throughout config holds :=
    List.foldlRecOn _ _ throughout fun _ throughout _ _ => throughout.update lasting
  exact updated.of_same rfl fun _ _ => id

theorem Throughout.fireDecay (throughout : book.Throughout config holds) (handle : Handle) :
    (book.fireDecay handle key).2.Throughout config holds := by
  unfold ScoreBook.fireDecay
  split
  · exact throughout
  · rename_i score found
    split
    · refine throughout.written rfl (fun other => faceScore?_armDecay book key other _) ?_
      rw [throughout.config]
      exact lasting.decay _ (throughout.scores key score found)
    · exact throughout

theorem Throughout.fireRefresh (throughout : book.Throughout config holds) (handle : Handle) :
    (book.fireRefresh handle).2.Throughout config holds := by
  unfold ScoreBook.fireRefresh
  split
  · have unarmed : ({ book with refreshTimer := none } : ScoreBook α).Throughout config holds :=
      throughout.of_same rfl fun _ _ => id
    dsimp only
    split
    · exact unarmed.refreshTouched lasting
    · exact (unarmed.refreshTouched lasting).armRefresh
  · exact throughout

/-- Whatever a host does once, the scores keep a lasting property. -/
theorem Throughout.perform (throughout : book.Throughout config holds) (act : Act) :
    (book.perform act).2.Throughout config holds := by
  cases act with
  | openScore key => exact throughout.openScore lasting
  | creditRequest name face =>
    exact creditRequest_keeps (fun _ _ held => held.credit lasting lasting.countRequest)
      (fun _ held => held.armRefresh) throughout name face
  | creditResponse name face =>
    exact creditUpward_keeps (fun _ _ held => held.credit lasting lasting.countResponse)
      (fun _ held => held.armRefresh) throughout name face
  | update key => exact throughout.update lasting
  | updateLongest name face =>
    refine List.foldlRecOn _ _ throughout fun _ held key _ => ?_
    exact (held.update lasting).of_same rfl fun _ _ => id
  | decay key => exact throughout.modifyStats (throughout.config ▸ lasting.decay)
  | refreshTouched => exact throughout.refreshTouched lasting
  | setDestination name destination =>
    refine throughout.of_same rfl fun key score found => ?_
    rwa [← faceScore?_setDestination book key name destination]
  | forget name => exact throughout.forget name
  | sweep =>
    have swept : ({ book with records := (book.records.takeExpired book.now).2 } :
        ScoreBook α).Throughout config holds := throughout.of_same rfl fun _ _ => id
    exact List.foldlRecOn _ _ swept fun _ held name _ => held.forget name
  | shutdown =>
    refine ⟨throughout.config, fun key score found => ?_⟩
    change book.shutdown.faceScore? key = some score at found
    rw [faceScore?_shutdown] at found
    obtain ⟨before, present, rfl⟩ := Option.map_eq_some_iff.mp found
    exact throughout.scores key before present
  | move move => exact throughout.of_same rfl fun _ _ => id
  | deliver firing =>
    simp only [ScoreBook.perform, ScoreBook.fire]
    split
    · exact throughout
    · exact throughout.fireDecay lasting firing.handle
    · exact throughout.fireRefresh lasting firing.handle

/-- A lasting property holds of every score of a new book after any acts. -/
theorem Session.throughout_after (timers : Timers Event) (records : Records) (acts : List Act) :
    (Session.after { book := { config, timers, records } } acts).book.Throughout config holds := by
  have start : ({ config, timers, records } : ScoreBook α).Throughout config holds :=
    ⟨rfl, by simp [faceScore?, standing?]⟩
  exact Session.after_keeps start fun book held act _ => Throughout.perform lasting held act

end ScoreBook

/-- The ratio and the score lie between zero and one. -/
def Stats.InUnit (stats : Stats ℚ) : Prop :=
  (0 ≤ stats.ratio ∧ stats.ratio ≤ 1) ∧ 0 ≤ stats.score ∧ stats.score ≤ 1

/-- Whatever was counted, the ratio of it lies between zero and one. -/
theorem Stats.pendingRatio_inUnit (stats : Stats ℚ) :
    0 ≤ stats.pendingRatio ∧ stats.pendingRatio ≤ 1 := by
  unfold pendingRatio
  split
  · rename_i fewer
    split
    · rename_i busy
      have served : (stats.responses.toNat : ℚ) ≤ stats.requests.toNat :=
        Nat.cast_le.mpr (UInt64.le_iff_toNat_le.mp fewer)
      have sent : (0 : ℚ) < stats.requests.toNat := Nat.cast_pos.mpr (UInt64.lt_iff_toNat_lt.mp busy)
      exact ⟨div_nonneg (Nat.cast_nonneg _) sent.le, (div_le_one sent).mpr served⟩
    · simp
  · simp

/-- A mean of two numbers of the unit interval lies in it. -/
theorem mean_inUnit {share x y : ℚ} (shareInUnit : 0 ≤ share ∧ share ≤ 1) (first : 0 ≤ x ∧ x ≤ 1)
    (second : 0 ≤ y ∧ y ≤ 1) :
    0 ≤ share * x + (1 - share) * y ∧ share * x + (1 - share) * y ≤ 1 := by
  obtain ⟨low, high⟩ := shareInUnit
  have rest : 0 ≤ 1 - share := sub_nonneg.mpr high
  constructor
  · exact add_nonneg (mul_nonneg low first.1) (mul_nonneg rest second.1)
  · calc share * x + (1 - share) * y ≤ share * 1 + (1 - share) * 1 :=
          add_le_add (mul_le_mul_of_nonneg_left first.2 low) (mul_le_mul_of_nonneg_left second.2 rest)
      _ = 1 := by ring

/-- Settings that passed the check leave every score in the unit interval. -/
theorem inUnit_lasting {config : Config ℚ} (accepted : config.check = .ok ()) :
    Stats.Lasting config.scores.smoothing config.scores.decayFactor Stats.InUnit where
  fresh := by
    simp [Stats.InUnit, Stats.fresh]
  countRequest _ held := held
  countResponse _ held := held
  update stats held := by
    obtain ⟨positive, high⟩ := Config.smoothing_of_check accepted
    have ratio := stats.pendingRatio_inUnit
    exact ⟨ratio, mean_inUnit ⟨positive.le, high⟩ ratio held.2⟩
  decay stats held := by
    obtain ⟨low, high⟩ := Config.decayFactor_of_check accepted
    obtain ⟨ratio, positive, below⟩ := held
    exact ⟨ratio, mul_nonneg positive low, mul_le_one₀ below low high⟩

namespace ScoreBook

/-- With settings that passed the check, no session of a new book takes a ratio, a score or the score for
a name out of the unit interval. -/
theorem scores_stay_in_unit {config : Config ℚ} (accepted : config.check = .ok ())
    (timers : Timers Event) (records : Records) (acts : List Act) :
    let book := (Session.after { book := { config := config.scores, timers, records } } acts).book
    (∀ key score, book.faceScore? key = some score →
        (0 ≤ score.stats.ratio ∧ score.stats.ratio ≤ 1) ∧
          0 ≤ score.stats.score ∧ score.stats.score ≤ 1) ∧
      ∀ name face, 0 ≤ book.scoreFor name face ∧ book.scoreFor name face ≤ 1 := by
  intro book
  have throughout : book.Throughout config.scores Stats.InUnit :=
    Session.throughout_after (inUnit_lasting accepted) timers records acts
  refine ⟨throughout.scores, fun name face => ?_⟩
  unfold scoreFor
  cases found : (book.nearestScored? name).bind fun other => book.smoothed? ⟨other, face⟩ with
  | none => simp
  | some value =>
    obtain ⟨other, -, smoothed⟩ := Option.bind_eq_some_iff.mp found
    obtain ⟨score, present, rfl⟩ := Option.map_eq_some_iff.mp smoothed
    exact (throughout.scores ⟨other, face⟩ score present).2

/-- Settings under which the scores closely follow the newest ratios. -/
def brisk : Config ℚ where
  scores :=
    { smoothing := 3 / 4
      decayFactor := 1 / 2
      decayPeriod := Nanos.ofSeconds 10
      recordLifetime := Nanos.ofSeconds 3000
      refreshPeriod := Nanos.ofSeconds 6
      bootstrap := Name.root }
  delays :=
    { locationShare := 1 / 2
      jitterLow := 1 / 2
      jitterHigh := 3 / 2
      unit := Nanos.ofMillis 1
      cap := none
      distances := .planar
      seed := none }
  strategy := .standard

/-- First there are more responses than requests, then fewer. A refresh, a decay and an update without any
traffic follow. -/
def unevenTraffic : List Act :=
  [.creditResponse ⟨["a"]⟩ ⟨256⟩, .creditResponse ⟨["a", "b"]⟩ ⟨256⟩, .update ⟨⟨["a"]⟩, ⟨256⟩⟩,
    .creditRequest ⟨["a", "c"]⟩ ⟨256⟩, .creditRequest ⟨["a"]⟩ ⟨256⟩, .creditResponse ⟨["a"]⟩ ⟨256⟩,
    .move .fireNext, .deliver ⟨⟨2⟩, .refresh⟩, .move .fireNext,
    .deliver ⟨⟨1⟩, .decay ⟨["a"]⟩ ⟨256⟩⟩, .updateLongest ⟨["a", "d"]⟩ ⟨256⟩]

theorem scores_stay_in_unit_uneven :
    brisk.check = .ok () ∧
      let book := (Session.after { book := { config := brisk.scores } } unevenTraffic).book
      book.smoothed? ⟨⟨["a"]⟩, ⟨256⟩⟩ = some (9 / 128) ∧
        book.scoreFor ⟨["a", "b", "e"]⟩ ⟨256⟩ = 3 / 4 ∧
        (∀ key score, book.faceScore? key = some score →
          (0 ≤ score.stats.ratio ∧ score.stats.ratio ≤ 1) ∧
            0 ≤ score.stats.score ∧ score.stats.score ≤ 1) ∧
        ∀ name face, 0 ≤ book.scoreFor name face ∧ book.scoreFor name face ≤ 1 := by
  have accepted : brisk.check = .ok () := by decide +kernel
  refine ⟨accepted, by decide +kernel, by decide +kernel, ?_⟩
  exact scores_stay_in_unit accepted {} {} unevenTraffic

end ScoreBook

end Overhear
