import Overhear.Proofs.Delay.Waiting
import Overhear.Proofs.Score.Growth
import Overhear.Proofs.Timers.Arming

/-! Which timers a book arms: a score gets one for a decay period, the book one for a refresh period, and no
operation arms any other. -/
namespace Overhear

/-- How long a timer for an event may be armed for. A request waits for a drawn delay, which a 64-bit count of
microseconds limits; the scores wait for the periods of the settings. -/
def ScoreConfig.Waits {α : Type} (config : ScoreConfig α) : Event → Nanos → Prop
  | .forward _, wait => wait ≤ Exact.longestWait
  | .decay .., wait => wait = config.decayPeriod
  | .refresh, wait => wait = config.refreshPeriod

/-- Neither period of the scores is longer than half of the range of spans. -/
structure ScoreConfig.Short {α : Type} (config : ScoreConfig α) : Prop where
  decay : config.decayPeriod ≤ Nanos.ofSeconds (2 ^ 63)
  refresh : config.refreshPeriod ≤ Nanos.ofSeconds (2 ^ 63)

/-- No delay of a request takes half of the range. -/
theorem Exact.longestWait_le_half : longestWait ≤ Nanos.ofSeconds (2 ^ 63) := by decide

/-- In the first half of the range the timer of a request fits in, and that of a score if the periods are short. -/
theorem ScoreConfig.Waits.fits {α : Type} {config : ScoreConfig α} {event : Event} {wait : Nanos}
    {timers : Timers Event} (waits : config.Waits event wait)
    (early : timers.elapsed < Nanos.ofSeconds (2 ^ 63)) (short : event.isUpkeep = true → config.Short) :
    timers.Fits event wait := by
  cases event with
  | forward name => exact Timers.fits_of_early early (waits.trans Exact.longestWait_le_half)
  | decay name face => exact Timers.fits_of_early early (waits.trans_le (short rfl).decay)
  | refresh => exact Timers.fits_of_early early (waits.trans_le (short rfl).refresh)

namespace ScoreBook

variable {α : Type} {book middle after : ScoreBook α} {key : ScoreKey}

/-- The book grows, and all timers that it armed on the way are for the waits of its settings. -/
structure Schedules (book after : ScoreBook α) : Prop where
  grows : book.Grows after
  arms : book.timers.Arms book.config.Waits after.timers

theorem Grows.schedules (grows : book.Grows after) (same : after.timers = book.timers) :
    book.Schedules after :=
  ⟨grows, .of_next (congrArg (·.next) same)⟩

theorem Schedules.refl (book : ScoreBook α) : book.Schedules book := (Grows.refl book).schedules rfl

theorem Schedules.trans (first : book.Schedules middle) (second : middle.Schedules after) :
    book.Schedules after where
  grows := first.grows.trans second.grows
  arms := by
    have later := second.arms
    rw [first.grows.config] at later
    exact first.arms.trans later first.grows.now second.grows.armed

theorem schedules_armRefresh (book : ScoreBook α) : book.Schedules book.armRefresh := by
  refine ⟨grows_armRefresh book, ?_⟩
  unfold armRefresh
  split
  · exact .of_next rfl
  · exact Timers.arms_arm _ rfl

theorem schedules_modifyStats (book : ScoreBook α) (key : ScoreKey) (change : Stats α → Stats α) :
    book.Schedules (book.modifyStats key change) :=
  (grows_modifyStats book key change).schedules (by rw [modifyStats_frame])

theorem next_forget (book : ScoreBook α) (name : Name) : (book.forget name).timers.next = book.timers.next := by
  unfold forget
  split
  · rfl
  · exact Timers.next_cancelAll _ _

theorem next_sweep (book : ScoreBook α) : book.sweep.2.timers.next = book.timers.next := by
  let Same (middle : ScoreBook α) : Prop := middle.timers.next = book.timers.next
  have step : ∀ middle, Same middle → ∀ name ∈ book.sweep.1, Same (middle.forget name) :=
    fun middle same name _ => (next_forget middle name).trans same
  exact List.foldlRecOn (motive := Same) _ forget rfl step

variable [Scalar α]

theorem schedules_openScore (book : ScoreBook α) (key : ScoreKey) : book.Schedules (book.openScore key) := by
  refine ⟨grows_openScore book key, ?_⟩
  unfold openScore
  dsimp only
  split
  · exact .of_next rfl
  · exact Timers.arms_arm _ rfl

theorem schedules_credit (count : Stats α → Stats α) (book : ScoreBook α) (key : ScoreKey) :
    book.Schedules (book.credit count key) :=
  ((schedules_openScore book key).trans (schedules_modifyStats _ key count)).trans
    (Grows.schedules (.of_same rfl rfl fun _ => rfl) rfl)

theorem schedules_creditUpward (count : Stats α → Stats α) (book : ScoreBook α) (start : Name)
    (face : FaceId) : book.Schedules (book.creditUpward count start face) :=
  creditUpward_keeps (fun middle key before => Schedules.trans before (schedules_credit count middle key))
    (fun middle before => Schedules.trans before (schedules_armRefresh middle)) (.refl book) start face

theorem schedules_creditRequest (book : ScoreBook α) (name : Name) (face : FaceId) :
    book.Schedules (book.creditRequest name face) :=
  creditRequest_keeps
    (fun middle key before => Schedules.trans before (schedules_credit Stats.countRequest middle key))
    (fun middle before => Schedules.trans before (schedules_armRefresh middle)) (.refl book) name face

/-- The first request that a book is credited for arms a decay of the bootstrap score, and the refresh. -/
theorem timers_creditRequest_of_unscored {name : Name} {face : FaceId}
    (nearest : book.nearestScored? name = none)
    (unscored : book.faceScore? ⟨book.config.bootstrap, face⟩ = none)
    (unrefreshed : book.refreshTimer = none) :
    (book.creditRequest name face).timers =
      ((book.timers.arm book.config.decayPeriod (.decay book.config.bootstrap face)).2.arm
        book.config.refreshPeriod .refresh).2 := by
  generalize bootstrap : (⟨book.config.bootstrap, face⟩ : ScoreKey) = key at unscored
  have absent : (book.touchRecord key.name).faceScore? key = none := unscored
  have opened : book.openScore key = (book.touchRecord key.name).armDecay key ⟨.fresh, none⟩ := by
    simp only [openScore, absent, Option.getD_none]
  have credited : book.creditRequest name face = (book.credit Stats.countRequest key).armRefresh := by
    rw [creditRequest, nearest, bootstrap]
  have idle : (book.credit Stats.countRequest key).refreshTimer = none := by
    rw [credit, opened, modifyStats_frame]
    exact unrefreshed
  rw [credited, armRefresh, idle, credit, opened, modifyStats_frame, ← bootstrap]
  rfl

theorem timers_refreshTouched (book : ScoreBook α) : book.refreshTouched.2.timers = book.timers := by
  let Same (middle : ScoreBook α) : Prop := middle.timers = book.timers
  have step : ∀ middle, Same middle → ∀ key ∈ book.touched.toList.filter fun key =>
      (book.faceScore? key).isSome, Same (middle.update key) := by
    intro middle same key _
    unfold Same update
    rw [modifyStats_frame]
    exact same
  exact List.foldlRecOn (motive := Same) _ (fun book key => book.update key) rfl step

theorem timers_fireDecay (book : ScoreBook α) (handle : Handle) (key : ScoreKey) :
    (book.fireDecay handle key).2.timers = book.timers ∨
      (book.fireDecay handle key).2.timers =
        (book.timers.arm book.config.decayPeriod (.decay key.name key.face)).2 := by
  unfold fireDecay
  split
  · exact .inl rfl
  · split
    · exact .inr rfl
    · exact .inl rfl

theorem timers_fireRefresh (book : ScoreBook α) (handle : Handle) :
    (book.fireRefresh handle).2.timers = book.timers ∨
      (book.fireRefresh handle).2.timers = (book.timers.arm book.config.refreshPeriod .refresh).2 := by
  unfold fireRefresh
  split
  · dsimp only
    generalize unarmed : ({ book with refreshTimer := none } : ScoreBook α) = middle
    have timers : middle.refreshTouched.2.timers = book.timers := by
      rw [timers_refreshTouched, ← unarmed]
    have config : middle.refreshTouched.2.config = book.config := by
      rw [(grows_refreshTouched middle).config, ← unarmed]
    split
    · exact .inl timers
    · unfold armRefresh
      split
      · exact .inl timers
      · rw [timers, config]
        exact .inr rfl
  · exact .inl rfl

theorem arms_fire (book : ScoreBook α) (firing : Firing Event) :
    book.timers.Arms book.config.Waits (book.fire firing).timers := by
  obtain ⟨handle, event⟩ := firing
  cases event with
  | forward name => exact .of_next rfl
  | decay name face =>
    rcases timers_fireDecay book handle ⟨name, face⟩ with same | same
    · exact .of_next (congrArg (·.next) same)
    · exact (congrArg (book.timers.Arms book.config.Waits) same).mpr (Timers.arms_arm _ rfl)
  | refresh =>
    rcases timers_fireRefresh book handle with same | same
    · exact .of_next (congrArg (·.next) same)
    · exact (congrArg (book.timers.Arms book.config.Waits) same).mpr (Timers.arms_arm _ rfl)

/-- Whatever is done with a book, all timers that it arms are for the waits of its settings. -/
theorem arms_perform (sound : book.timers.Sound) (act : Act) :
    book.timers.Arms book.config.Waits (book.perform act).2.timers := by
  cases act with
  | openScore key => exact (schedules_openScore book key).arms
  | creditRequest name face => exact (schedules_creditRequest book name face).arms
  | creditResponse name face => exact (schedules_creditUpward _ book name face).arms
  | update key => exact (schedules_modifyStats book key _).arms
  | updateLongest name face =>
    have updated : book.Schedules (book.updateLongest name face).2 :=
      List.foldlRecOn _ _ (Schedules.refl book) fun middle before key _ =>
        (before.trans (schedules_modifyStats middle key _)).trans
          (Grows.schedules (.of_same rfl rfl fun _ => rfl) rfl)
    exact updated.arms
  | decay key => exact (schedules_modifyStats book key _).arms
  | refreshTouched => exact .of_next (congrArg (·.next) (timers_refreshTouched book))
  | setDestination name destination => exact .of_next rfl
  | forget name => exact .of_next (next_forget book name)
  | sweep => exact .of_next (next_sweep book)
  | shutdown => exact .of_next (Timers.next_cancelAll _ _)
  | move move => exact .of_next (sound.move move).next
  | deliver firing => exact arms_fire book firing

end ScoreBook

end Overhear
