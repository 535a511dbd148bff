import Overhear.Proofs.Score.Marks
import Overhear.Proofs.Timers.Calls

/-! Scores, their records and their timers. Until a shutdown every name with scores has a record, every
score has one decay timer, and a refresh is on its way whenever a score is marked. -/
namespace Overhear.ScoreBook

variable {α : Type} {book after : ScoreBook α} {key : ScoreKey}

/-- Names with scores have records, and scores have timers. -/
structure Backed (book : ScoreBook α) : Prop where
  recorded : ∀ name ∈ book.standings, book.records.contains name = true
  timed : ∀ key score, book.faceScore? key = some score → score.decayTimer.isSome

theorem Backed.of_same (backed : book.Backed)
    (names : ∀ name ∈ after.standings, name ∈ book.standings)
    (records : ∀ name, book.records.contains name = true → after.records.contains name = true)
    (scores : ∀ key, after.faceScore? key = book.faceScore? key) : after.Backed where
  recorded name member := records name (backed.recorded name (names name member))
  timed key score found := backed.timed key score (scores key ▸ found)

theorem Backed.modifyStats (backed : book.Backed) (change : Stats α → Stats α) :
    (book.modifyStats key change).Backed where
  recorded name member := by
    rw [records_modifyStats]
    exact backed.recorded name ((mem_standings_modifyStats ..).mp member)
  timed other score found := by
    rw [faceScore?_modifyStats] at found
    split at found
    · obtain ⟨before, present, rfl⟩ := Option.map_eq_some_iff.mp found
      exact backed.timed key before present
    · exact backed.timed other score found

theorem Backed.armRefresh (backed : book.Backed) : book.armRefresh.Backed :=
  backed.of_same (by simp) (by simp) (by simp)

theorem Backed.extendRecord (backed : book.Backed) (name : Name) : (book.extendRecord name).Backed :=
  backed.of_same (fun _ => id) (by simp [ScoreBook.extendRecord]) fun _ => rfl

theorem Backed.setDestination (backed : book.Backed) (name : Name) (destination : Coordinate) :
    (book.setDestination name destination).Backed where
  recorded other member := by
    have records : (book.setDestination name destination).records = (book.touchRecord name).records := rfl
    rw [records, contains_touchRecord]
    rcases (mem_standings_setDestination ..).mp member with same | before
    · simp [same]
    · simp [backed.recorded other before]
  timed key score found := backed.timed key score (by simpa using found)

theorem Backed.forget (backed : book.Backed) (name : Name) : (book.forget name).Backed where
  recorded other member := by
    rw [records_forget]
    exact backed.recorded other ((mem_standings_forget ..).mp member).2
  timed key score found := by
    rw [faceScore?_forget] at found
    split at found
    · cases found
    · exact backed.timed key score found

/-- A sweep takes the scores of a name out with its record. -/
theorem Backed.sweep (backed : book.Backed) : book.sweep.2.Backed where
  recorded name member := by
    -- The records go first, so a name may lack its record until it is forgotten.
    obtain ⟨spared, before⟩ := (mem_standings_foldl_forget _ _ name).mp member
    have present := backed.recorded name before
    rcases book.records.mem_takeExpired book.now name present with expired | still
    · exact absurd expired spared
    · simp only [ScoreBook.sweep, records_foldl_forget]
      exact still
  timed := by
    let Timed (book : ScoreBook α) : Prop :=
      ∀ key score, book.faceScore? key = some score → score.decayTimer.isSome
    have start : Timed { book with records := (book.records.takeExpired book.now).2 } := backed.timed
    refine List.foldlRecOn (motive := Timed) _ _ start fun book timed name _ => ?_
    intro key score found
    rw [faceScore?_forget] at found
    split at found
    · cases found
    · exact timed key score found

section

variable [Scalar α]

theorem Backed.openScore (backed : book.Backed) : (book.openScore key).Backed where
  recorded name member := by
    rw [records_openScore, contains_touchRecord]
    rcases (mem_standings_openScore ..).mp member with same | before
    · simp [same]
    · simp [backed.recorded name before]
  timed other score found := by
    obtain ⟨timer, scores⟩ := book.faceScore?_openScore key
    rw [scores] at found
    split at found
    · cases found
      rfl
    · exact backed.timed other score found

theorem Backed.credit (backed : book.Backed) (count : Stats α → Stats α) :
    (book.credit count key).Backed :=
  (backed.openScore.modifyStats count).of_same (fun _ => id) (fun _ => id) fun _ => rfl

theorem Backed.updateLongest (backed : book.Backed) (name : Name) (face : FaceId) :
    (book.updateLongest name face).2.Backed :=
  List.foldlRecOn _ _ backed fun _ backed key _ => (backed.modifyStats _).extendRecord key.name

theorem Backed.refreshTouched (backed : book.Backed) : book.refreshTouched.2.Backed := by
  have updated : ((book.touched.toList.filter fun key => (book.faceScore? key).isSome).foldl
      (fun book key => book.update key) book).Backed :=
    List.foldlRecOn _ _ backed fun _ backed key _ => backed.modifyStats _
  exact updated.of_same (fun _ => id) (fun _ => id) fun _ => rfl

theorem Backed.fireDecay (backed : book.Backed) (handle : Handle) :
    (book.fireDecay handle key).2.Backed := by
  unfold ScoreBook.fireDecay
  split
  · exact backed
  · rename_i score found
    split
    · have present := mem_standings_of_faceScore? (Option.isSome_of_eq_some found)
      constructor
      · intro name member
        rcases (mem_standings_armDecay ..).mp member with same | before
        · exact backed.recorded name (same ▸ present)
        · exact backed.recorded name before
      · intro other score found
        rw [faceScore?_armDecay] at found
        split at found
        · cases found
          rfl
        · exact backed.timed other score found
    · exact backed

theorem Backed.fireRefresh (backed : book.Backed) (handle : Handle) :
    (book.fireRefresh handle).2.Backed := by
  unfold ScoreBook.fireRefresh
  split
  · have unarmed : ({ book with refreshTimer := none } : ScoreBook α).Backed :=
      backed.of_same (fun _ => id) (fun _ => id) fun _ => rfl
    dsimp only
    split
    · exact unarmed.refreshTouched
    · exact unarmed.refreshTouched.armRefresh
  · exact backed

theorem Backed.perform (backed : book.Backed) {act : Act} (running : act ≠ .shutdown) :
    (book.perform act).2.Backed := by
  cases act with
  | openScore key => exact backed.openScore
  | creditRequest name face =>
    exact creditRequest_keeps (fun book key backed => backed.credit _)
      (fun book backed => backed.armRefresh) backed name face
  | creditResponse name face =>
    exact creditUpward_keeps (fun book key backed => backed.credit _)
      (fun book backed => backed.armRefresh) backed name face
  | update key => exact backed.modifyStats _
  | updateLongest name face => exact backed.updateLongest name face
  | decay key => exact backed.modifyStats _
  | refreshTouched => exact backed.refreshTouched
  | setDestination name destination => exact backed.setDestination name destination
  | forget name => exact backed.forget name
  | sweep => exact backed.sweep
  | shutdown => exact absurd rfl running
  | move move => exact backed.of_same (fun _ => id) (fun _ => id) fun _ => rfl
  | deliver firing =>
    simp only [ScoreBook.perform, ScoreBook.fire]
    split
    · exact backed
    · exact backed.fireDecay firing.handle
    · exact backed.fireRefresh firing.handle

end

/-- The book holds a refresh timer whenever a score is marked. -/
def Awaited (book : ScoreBook α) : Prop := ∀ key ∈ book.touched, book.refreshTimer.isSome

theorem Awaited.of_fewer (awaited : book.Awaited) (touched : ∀ key ∈ after.touched, key ∈ book.touched)
    (timer : after.refreshTimer = book.refreshTimer) : after.Awaited :=
  fun key member => timer ▸ awaited key (touched key member)

theorem Awaited.of_none (unmarked : book.touched = ∅) : book.Awaited := by
  intro key member
  rw [unmarked] at member
  exact absurd member Std.ExtTreeSet.not_mem_empty

theorem Awaited.armRefresh (book : ScoreBook α) : book.armRefresh.Awaited :=
  fun _ _ => book.isSome_refreshTimer_armRefresh

theorem Awaited.modifyStats (awaited : book.Awaited) (change : Stats α → Stats α) :
    (book.modifyStats key change).Awaited := awaited.of_fewer (by simp) (by simp)

theorem Awaited.forget (awaited : book.Awaited) (name : Name) : (book.forget name).Awaited :=
  awaited.of_fewer (fun key member => ((mem_touched_forget ..).mp member).1) (by simp)

theorem Awaited.perform [Scalar α] (awaited : book.Awaited) {act : Act} (running : act ≠ .shutdown) :
    (book.perform act).2.Awaited := by
  cases act with
  | openScore key => exact awaited.of_fewer (by simp [ScoreBook.perform]) (by simp [ScoreBook.perform])
  | creditRequest name face =>
    simp only [ScoreBook.perform, creditRequest]
    split
    · exact .armRefresh _
    · exact .armRefresh _
  | creditResponse name face => exact .armRefresh _
  | update key => exact awaited.modifyStats _
  | updateLongest name face =>
    exact List.foldlRecOn _ _ awaited fun _ awaited key _ =>
      (awaited.modifyStats _).of_fewer (fun _ => id) rfl
  | decay key => exact awaited.modifyStats _
  | refreshTouched => exact .of_none rfl
  | setDestination name destination => exact awaited.of_fewer (fun _ => id) rfl
  | forget name => exact awaited.forget name
  | sweep =>
    have swept : ({ book with records := (book.records.takeExpired book.now).2 } : ScoreBook α).Awaited :=
      awaited
    exact List.foldlRecOn _ _ swept fun _ awaited name _ => awaited.forget name
  | shutdown => exact absurd rfl running
  | move move => exact awaited
  | deliver firing =>
    simp only [ScoreBook.perform, ScoreBook.fire]
    split
    · exact awaited
    · unfold ScoreBook.fireDecay
      split
      · exact awaited
      · split <;> exact awaited
    · cases accepted : (book.fireRefresh firing.handle).1 with
      | true => exact .of_none (fireRefresh_scores accepted).2
      | false =>
        rwa [fireRefresh_refused accepted]

namespace Session

/-- A new book with no records yet. -/
def opened (config : ScoreConfig α) (timers : Timers Event) (firstLifetime : Nanos) : Session α :=
  { book := { config, timers, records := { firstLifetime } } }

/-- A timer is armed for an event, or was popped and not delivered yet. -/
def Underway (session : Session α) (handle : Handle) (event : Event) : Prop :=
  (∃ deadline, session.book.timers.armed? handle = some (deadline, event)) ∨
    (⟨handle, event⟩ : Firing Event) ∈ session.popped ∧
      (⟨handle, event⟩ : Firing Event) ∉ session.delivered

/-- The scores of a book and the timers of its service belong to each other. -/
structure Matched (session : Session α) : Prop where
  recorded : ∀ name ∈ session.book.standings, session.book.records.contains name = true
  timed : ∀ key score, session.book.faceScore? key = some score → ∃ handle,
    score.decayTimer = some handle ∧ session.Underway handle (.decay key.name key.face)
  apart : ∀ first second a b, session.book.faceScore? first = some a →
    session.book.faceScore? second = some b → a.decayTimer = b.decayTimer → first = second
  decays : ∀ handle deadline name face,
    session.book.timers.armed? handle = some (deadline, .decay name face) → ∃ score,
      session.book.faceScore? ⟨name, face⟩ = some score ∧ score.decayTimer = some handle
  refreshes : ∀ handle deadline, session.book.timers.armed? handle = some (deadline, .refresh) →
    session.book.refreshTimer = some handle
  scored : ∀ key ∈ session.book.touched, (session.book.faceScore? key).isSome
  awaited : session.book.touched ≠ ∅ → ∃ handle,
    session.book.refreshTimer = some handle ∧ session.Underway handle .refresh
  spent : ∀ firing ∈ session.popped, session.book.timers.armed? firing.handle = none
  pending : ∀ handle, session.book.timers.isPending handle = true ↔
    ∃ entry, session.book.timers.armed? handle = some entry

/-- Before any shutdown the timers of a book match its scores, however late its host delivers firings. The
service of a new book may have run before, as long as no timer is pending in it that is for scores. -/
theorem timers_match_scores [Scalar α] (config : ScoreConfig α) (calls : List (Timers.Call Event))
    (quiet : ∀ handle deadline event,
      (Timers.Run.after calls).timers.armed? handle = some (deadline, event) → event.isUpkeep = false)
    (firstLifetime : Nanos) {acts : List Act}
    (honest : (opened config (Timers.Run.after calls).timers firstLifetime).Honest acts)
    (running : Act.shutdown ∉ acts) :
    ((opened config (Timers.Run.after calls).timers firstLifetime).after acts).Matched := by
  have sound := (Timers.Run.kept_after calls).logged.account.sound
  generalize (Timers.Run.after calls).timers = timers at *
  have runs : ∀ act ∈ acts, act ≠ Act.shutdown := by
    rintro act member rfl
    exact running member
  have unscored : ∀ key, (opened config timers firstLifetime).book.faceScore? key = none := by
    simp [opened, faceScore?, standing?]
  have idle : ∀ event, (opened config timers firstLifetime).book.live event = none := by
    intro event
    cases event with
    | forward name => rfl
    | decay name face => rw [live, unscored, Option.bind_none]
    | refresh => rfl
  have exact : (opened config timers firstLifetime).book.roster.ExactFor
      fun event => event.isUpkeep = true := by
    intro handle deadline event upkeep armed
    simp [quiet handle deadline event armed] at upkeep
  obtain ⟨balance, exact⟩ := balance_after (.start sound idle) exact honest
  have marked : ((opened config timers firstLifetime).after acts).book.Marked := by
    refine after_keeps ⟨?_, by simp [unscored]⟩ fun _ marked act _ => Marked.perform marked act
    exact fun key member => absurd member Std.ExtTreeSet.not_mem_empty
  have backed : ((opened config timers firstLifetime).after acts).book.Backed := by
    refine after_keeps ⟨?_, by simp [unscored]⟩ fun _ backed act member =>
      Backed.perform backed (runs act member)
    exact fun name member => absurd member Std.ExtTreeMap.not_mem_empty
  have awaited : ((opened config timers firstLifetime).after acts).book.Awaited :=
    after_keeps (.of_none rfl) fun _ awaited act member => Awaited.perform awaited (runs act member)
  generalize (opened config timers firstLifetime).after acts = session at *
  have counts : ∀ key score handle, session.book.faceScore? key = some score →
      score.decayTimer = some handle →
      session.book.roster.live (.decay key.name key.face) = some handle := by
    intro key score handle found timer
    simp [roster, live, found, timer]
  constructor
  · exact backed.recorded
  · intro key score found
    obtain ⟨handle, timer⟩ := Option.isSome_iff_exists.mp (backed.timed key score found)
    exact ⟨handle, timer, balance.accounted _ _ (counts key score handle found timer)⟩
  · intro first second a b foundFirst foundSecond same
    obtain ⟨handle, timer⟩ := Option.isSome_iff_exists.mp (backed.timed first a foundFirst)
    have shared := balance.sound.exclusive _ _ _ (counts first a handle foundFirst timer)
      (counts second b handle foundSecond (same ▸ timer))
    cases first
    cases second
    cases shared
    rfl
  · intro handle deadline name face armed
    exact Option.bind_eq_some_iff.mp (exact _ _ _ rfl armed)
  · intro handle deadline armed
    exact exact _ _ _ rfl armed
  · exact marked.scored
  · intro touched
    obtain ⟨key, member⟩ : ∃ key, key ∈ session.book.touched := by
      by_contra none
      exact touched (Std.ExtTreeSet.eq_empty_iff_forall_not_mem.mpr (not_exists.mp none))
    obtain ⟨handle, timer⟩ := Option.isSome_iff_exists.mp (awaited key member)
    exact ⟨handle, timer, balance.accounted .refresh handle timer⟩
  · exact fun firing member => (balance.spent firing member).2
  · exact fun handle => (balance.sound.timers.isPending_iff handle).trans Option.isSome_iff_exists

/-- A service that had run for a while, with one timer pending that is not for scores. -/
def usedService : List (Timers.Call Event) :=
  [.move (.advanceTo 5), .arm (Nanos.ofSeconds 60) (.forward ⟨["b"]⟩)]

/-- A book with records that live for a second only. -/
def fleeting : Session Float :=
  opened { ScoreConfig.standard with recordLifetime := Nanos.ofSeconds 1 }
    (Timers.Run.after usedService).timers 0

/-- A record expires while the timers of its score are on their way. The name is credited again before they
are delivered, the refresh two times. -/
def revival : List Act :=
  [.creditResponse ⟨["a"]⟩ ⟨256⟩, .move .fireNext, .move .fireNext, .sweep,
    .creditResponse ⟨["a"]⟩ ⟨256⟩, .deliver ⟨⟨2⟩, .decay ⟨["a"]⟩ ⟨256⟩⟩, .deliver ⟨⟨3⟩, .refresh⟩,
    .deliver ⟨⟨3⟩, .refresh⟩]

theorem timers_match_scores_revival :
    (∀ handle deadline event, (Timers.Run.after usedService).timers.armed? handle =
        some (deadline, event) → event.isUpkeep = false) ∧
      fleeting.Honest revival ∧ Act.shutdown ∉ revival ∧
      (fleeting.after (revival.take 4)).book.standings.isEmpty = true ∧
      ((fleeting.after revival).book.faceScore? ⟨⟨["a"]⟩, ⟨256⟩⟩).bind (·.decayTimer) = some ⟨4⟩ ∧
      (fleeting.after revival).book.refreshTimer = some ⟨5⟩ ∧
      (fleeting.after revival).Matched := by
  have quiet : ∀ handle deadline event, (Timers.Run.after usedService).timers.armed? handle =
      some (deadline, event) → event.isUpkeep = false := by
    intro handle deadline event armed
    have account := (Timers.Run.kept_after usedService).logged.account
    have source := account.source handle deadline event armed
    have armings : (Timers.Run.after usedService).log.armings.all (fun arming => !arming.2.isUpkeep) := by
      decide +kernel
    simpa using List.all_eq_true.mp armings _ source
  have honest : fleeting.Honest revival := by decide +kernel
  have running : Act.shutdown ∉ revival := by simp [revival]
  refine ⟨quiet, honest, running, by decide +kernel, by decide +kernel, by decide +kernel, ?_⟩
  exact timers_match_scores _ usedService quiet 0 honest running

end Session

end Overhear.ScoreBook
