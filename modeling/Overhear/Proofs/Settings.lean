import Overhear.Error
import Overhear.Proofs.Exact

/-! Settings that passed the check: none of the problems is there. -/
namespace Overhear.Config

variable {α : Type} [Scalar α] {config : Config α}

/-- Settings pass exactly when each check finds that its problem is not there. -/
theorem check_eq_ok_iff : config.check = .ok () ↔
    ∀ check ∈ config.scores.checks ++ config.delays.checks, check.2 = false := by
  have unproblematic : config.problems = [] ↔
      ∀ check ∈ config.scores.checks ++ config.delays.checks, check.2 = false := by
    simp only [problems, List.filterMap_eq_nil_iff, ite_eq_right_iff, reduceCtorEq, imp_false,
      Bool.not_eq_true]
  rw [← unproblematic]
  unfold check
  split
  · rename_i none
    exact iff_of_true rfl none
  · rename_i problem others some
    exact iff_of_false nofun (by simp [some])

theorem scores_of_check (accepted : config.check = .ok ()) :
    ∀ check ∈ config.scores.checks, check.2 = false :=
  fun check member => check_eq_ok_iff.mp accepted check (List.mem_append_left _ member)

theorem decayPeriod_pos (accepted : config.check = .ok ()) : 0 < config.scores.decayPeriod := by
  have nonzero := scores_of_check accepted (.zeroDecayPeriod, config.scores.decayPeriod == 0)
    (by simp [ScoreConfig.checks])
  exact Nat.pos_of_ne_zero (by simpa using nonzero)

theorem refreshPeriod_pos (accepted : config.check = .ok ()) : 0 < config.scores.refreshPeriod := by
  have nonzero := scores_of_check accepted (.zeroRefreshPeriod, config.scores.refreshPeriod == 0)
    (by simp [ScoreConfig.checks])
  exact Nat.pos_of_ne_zero (by simpa using nonzero)

theorem smoothing_of_check {config : Config ℚ} (accepted : config.check = .ok ()) :
    0 < config.scores.smoothing ∧ config.scores.smoothing ≤ 1 := by
  have inside := scores_of_check accepted
    (.smoothingOutOfRange, !(Scalar.lt Scalar.zero config.scores.smoothing &&
      Scalar.le config.scores.smoothing Scalar.one)) (by simp [ScoreConfig.checks])
  simpa using inside

theorem decayFactor_of_check {config : Config ℚ} (accepted : config.check = .ok ()) :
    0 ≤ config.scores.decayFactor ∧ config.scores.decayFactor ≤ 1 := by
  have inside := scores_of_check accepted
    (.decayFactorOutOfRange, !Scalar.within Scalar.zero Scalar.one config.scores.decayFactor)
    (by simp [ScoreConfig.checks])
  simpa [Scalar.within_rat] using inside

theorem delays_of_check (accepted : config.check = .ok ()) :
    ∀ check ∈ config.delays.checks, check.2 = false :=
  fun check member => check_eq_ok_iff.mp accepted check (List.mem_append_right _ member)

theorem locationShare_of_check (accepted : config.check = .ok ()) :
    Scalar.within Scalar.zero Scalar.one config.delays.locationShare = true := by
  have inside := delays_of_check accepted
    (.locationShareOutOfRange, !Scalar.within Scalar.zero Scalar.one config.delays.locationShare)
    (by simp [DelayConfig.checks])
  simpa using inside

theorem jitter_of_check (accepted : config.check = .ok ()) :
    Scalar.lt Scalar.zero config.delays.jitterLow = true ∧
      Scalar.lt Scalar.zero config.delays.jitterHigh = true ∧
      Scalar.lt config.delays.jitterHigh config.delays.jitterLow = false := by
  have positive := delays_of_check accepted
    (.nonPositiveJitter, !(Scalar.lt Scalar.zero config.delays.jitterLow &&
      Scalar.lt Scalar.zero config.delays.jitterHigh)) (by simp [DelayConfig.checks])
  have inOrder := delays_of_check accepted
    (.jitterInverted, Scalar.lt config.delays.jitterHigh config.delays.jitterLow)
    (by simp [DelayConfig.checks])
  rw [Bool.not_eq_false', Bool.and_eq_true] at positive
  exact ⟨positive.1, positive.2, inOrder⟩

end Overhear.Config
