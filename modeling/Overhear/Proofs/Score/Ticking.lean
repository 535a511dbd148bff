import Overhear.Proofs.Score.Growth

/-! What a turn of the firing loop does to the decays of the scores. The timer that fires is the first in the
queue, so a score whose own timer fires decays at its deadline, and no other score is overtaken. -/
namespace Overhear.ScoreBook

variable {α : Type} {book after : ScoreBook α} {key : ScoreKey}

/-- The firing is that of the timer by which a score decays. -/
def Fires (book : ScoreBook α) (firing : Firing Event) (key : ScoreKey) : Prop :=
  firing.event = .decay key.name key.face ∧ book.live firing.event = some firing.handle

theorem Fires.unique {firing : Firing Event} {other : ScoreKey} (fires : book.Fires firing key)
    (same : book.Fires firing other) : other = key := by
  obtain ⟨sameName, sameFace⟩ := Event.decay.inj (same.1.symm.trans fires.1)
  cases other
  cases key
  simp_all

variable [Scalar α]

/-- What a delivered firing does to the decays of the scores. `counted` is to tell whether the book did not
ignore it. -/
structure Delivered (book : ScoreBook α) (firing : Firing Event) (counted : Prop)
    (after : ScoreBook α) : Prop where
  config : after.config = book.config
  now : after.now = book.now
  ticked : ∀ key, book.Fires firing key → counted ∧ after.DecaysNext key
  decayed : ∀ key, book.Fires firing key → ∃ timer, after.faceScore? key =
    (book.faceScore? key).map fun score => ⟨score.stats.decay book.config.decayFactor, timer⟩
  kept : ∀ key time, book.DecaysAt key time → ¬ book.Fires firing key → after.DecaysAt key time
  ignored : ∀ key : ScoreKey, firing.event = .decay key.name key.face → ¬ book.Fires firing key →
    ¬ counted
  opened : ∀ key, book.faceScore? key = none → (after.faceScore? key).isSome → after.DecaysNext key

/-- A firing that is for no score only adds scores. -/
theorem Grows.delivered (grows : book.Grows after) (sound : book.timers.Sound) {firing : Firing Event}
    (other : ∀ key : ScoreKey, firing.event ≠ .decay key.name key.face) (counted : Prop) :
    book.Delivered firing counted after where
  config := grows.config
  now := grows.now
  ticked key fires := absurd fires.1 (other key)
  decayed key fires := absurd fires.1 (other key)
  kept _ _ decays _ := grows.decaysAt sound decays
  ignored key same := absurd same (other key)
  opened _ := grows.decaysNext

theorem delivered_of_ignored (book : ScoreBook α) {firing : Firing Event} {counted : Prop}
    (stale : book.live firing.event ≠ some firing.handle) (ignored : ¬ counted) :
    book.Delivered firing counted book where
  config := rfl
  now := rfl
  ticked _ fires := absurd fires.2 stale
  decayed _ fires := absurd fires.2 stale
  kept _ _ decays _ := decays
  ignored _ _ _ := ignored
  opened key absent present := by simp [absent] at present

/-- The timer of a score makes it decay and is armed anew; the other scores are left alone. -/
theorem delivered_armDecay (sound : book.timers.Sound) {firing : Firing Event} {score : FaceScore α}
    (fires : book.Fires firing key) (known : book.faceScore? key = some score) {counted : Prop}
    (counts : counted) :
    book.Delivered firing counted
      (book.armDecay key { score with stats := score.stats.decay book.config.decayFactor }) where
  config := rfl
  now := rfl
  ticked other same := by
    rw [fires.unique same]
    refine ⟨counts, book.timers.next, ?_, (Timers.armed?_arm ..).trans (if_pos rfl)⟩
    simp only [live, faceScore?_armDecay, if_true, Option.bind_some]
  decayed other same := by
    rw [fires.unique same, faceScore?_armDecay, if_pos rfl, known]
    exact ⟨_, rfl⟩
  kept other time decays spared := by
    obtain ⟨own, holds, armed⟩ := decays
    have different : other ≠ key := by
      rintro rfl
      exact spared fires
    refine ⟨own, ?_, (Timers.armed?_arm_of_lt (sound.handedOut_of_armed armed) _ _).trans armed⟩
    simp only [live, faceScore?_armDecay, if_neg different]
    exact holds
  ignored other same spared := absurd ⟨same, fires.2⟩ spared
  opened other absent present := by
    have different : other ≠ key := by
      rintro rfl
      simp [known] at absent
    rw [faceScore?_armDecay, if_neg different, absent] at present
    cases present

theorem delivered_fireDecay (sound : book.timers.Sound) (handle : Handle) (key : ScoreKey) :
    book.Delivered ⟨handle, .decay key.name key.face⟩ ((book.fireDecay handle key).1 = true)
      (book.fireDecay handle key).2 := by
  by_cases counts : book.live (.decay key.name key.face) = some handle
  · obtain ⟨score, found, timer⟩ := Option.bind_eq_some_iff.mp counts
    have known : book.faceScore? key = some score := found
    have fired : book.fireDecay handle key = (true, book.armDecay key
        { score with stats := score.stats.decay book.config.decayFactor }) := by
      simp only [fireDecay, known, timer, if_pos]
    rw [fired]
    exact delivered_armDecay sound ⟨rfl, counts⟩ known rfl
  · rw [fireDecay_of_stale key counts]
    exact delivered_of_ignored book counts Bool.false_ne_true

/-- What a turn of the loop does to the decays of the scores. -/
structure Turns (book : ScoreBook α) (limit : Nanos) (event : Event) (counted : Prop)
    (after : ScoreBook α) : Prop where
  config : after.config = book.config
  clock : ∃ deadline ≤ limit, after.now = max book.now deadline ∧
    ∀ key due, book.DecaysAt key due →
      (due = deadline ∧ event = .decay key.name key.face ∧ counted ∧ after.DecaysNext key) ∨
        (deadline ≤ due ∧ ¬ (event = .decay key.name key.face ∧ counted) ∧ after.DecaysAt key due)
  decayed : ∀ key : ScoreKey, event = .decay key.name key.face → counted → ∃ timer,
    after.faceScore? key = (book.faceScore? key).map fun score =>
      ⟨score.stats.decay book.config.decayFactor, timer⟩
  opened : ∀ key, book.faceScore? key = none → (after.faceScore? key).isSome → after.DecaysNext key

/-- Popping the first timer and delivering it is a turn. -/
theorem Delivered.turns {limit : Nanos} {firing : Firing Event} {rest : Timers Event} {counted : Prop}
    (delivered : (book.withTimers rest).Delivered firing counted after) (sound : book.timers.Sound)
    (popped : book.timers.popDue limit = some (firing, rest)) :
    book.Turns limit firing.event counted after := by
  obtain ⟨slot, first, due, queued, sameHandle, elapsed⟩ := Timers.popDue_eq_some popped
  have fired := sound.popDue popped
  have armedFirst := sound.queued_iff.mp queued
  have clock : rest.elapsed = max book.timers.elapsed slot.deadline := by rw [elapsed]
  refine ⟨delivered.config, ⟨slot.deadline, due, delivered.now.trans clock, ?_⟩, ?_, delivered.opened⟩
  · rintro key time ⟨timer, holds, armed⟩
    by_cases own : timer = firing.handle
    · -- The timer of the score is the one that fires.
      subst own
      rw [sameHandle] at armed
      obtain ⟨sameTime, sameEvent⟩ := Prod.mk.inj (Option.some.inj (armed.symm.trans armedFirst))
      have fires : (book.withTimers rest).Fires firing key :=
        ⟨sameEvent.symm, sameEvent ▸ holds⟩
      exact .inl ⟨sameTime, sameEvent.symm, delivered.ticked key fires⟩
    · have spared : ¬ (book.withTimers rest).Fires firing key := by
        rintro ⟨same, counts⟩
        rw [same] at counts
        exact own (Option.some.inj (holds.symm.trans counts))
      have waiting : (book.withTimers rest).DecaysAt key time := by
        refine ⟨timer, holds, ?_⟩
        have remaining := fired.remaining timer
        rw [if_neg (by simpa using own)] at remaining
        exact remaining.trans armed
      refine .inr ⟨?_, fun ticks => delivered.ignored key ticks.1 spared ticks.2,
        delivered.kept key time waiting spared⟩
      have member : (⟨time, timer⟩ : Slot) ∈ book.timers.queue :=
        Std.ExtTreeMap.mem_iff_isSome_getElem?.mpr (Option.isSome_of_eq_some (sound.queued_iff.mpr armed))
      have different : (⟨time, timer⟩ : Slot) ≠ slot := by
        rintro rfl
        exact own sameHandle.symm
      rcases Slot.compare_lt_iff.mp ((Timers.firstSlot?_eq_some first).2 _ member different) with
        below | ⟨level, -⟩
      · exact Nat.le_of_lt below
      · exact Nat.le_of_eq level
  · intro key same counts
    by_cases fires : (book.withTimers rest).Fires firing key
    · exact delivered.decayed key fires
    · exact absurd counts (delivered.ignored key same fires)

end Overhear.ScoreBook
