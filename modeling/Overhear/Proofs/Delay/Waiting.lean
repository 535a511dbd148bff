import Mathlib.Algebra.Order.Round
import Overhear.Proofs.Delay.Placement
import Overhear.Proofs.Score.Bounds

/-! How long a weight makes a relay wait, in exact numbers. The drawn point of the range is rounded to whole
microseconds, cut off at the longest count of them and then at the cap. Each of these steps keeps the order, so
for one and the same draw the heavier of two weights never waits longer. -/
namespace Overhear.Exact

variable {config : Config ℚ} {delays : DelayConfig ℚ} {units other weight heavier share low high : ℚ}

/-- The span nearest to a number of delay units among those of whole microseconds, a half going up. There is no
upper limit to it. -/
def nearestSpan (unit : Nanos) (units : ℚ) : Nanos := Nanos.ofMicros (round (units * unit / 1000)).toNat

/-- The longest span that a 64-bit count of microseconds can give. -/
def longestWait : Nanos := Nanos.ofMicros (Nat.pow 2 64 - 1)

theorem nearestSpan_mono (unit : Nanos) (le : units ≤ other) : nearestSpan unit units ≤ nearestSpan unit other := by
  have scaled : units * unit / 1000 + 1 / 2 ≤ other * unit / 1000 + 1 / 2 := by gcongr
  rw [nearestSpan, nearestSpan, round_eq, round_eq]
  exact Nat.mul_le_mul_left 1000 (Int.toNat_le_toNat (Int.floor_le_floor scaled))

theorem secondsOf_eq (span : Nanos) : (secondsOf span : ℚ) = span / 1000000000 := by
  have parts : (span : ℚ) = 1000000000 * (span / 1000000000 : Nat) + (span % 1000000000 : Nat) := by
    exact_mod_cast (Nat.div_add_mod span 1000000000).symm
  rw [parts]
  simp only [secondsOf, Scalar.ofNat_rat, Nanos.seconds, Nanos.subseconds]
  push_cast
  ring

theorem roundWord_eq (x : ℚ) : Scalar.roundWord x = min (round x).toNat (Nat.pow 2 64 - 1) := by
  rw [round_eq]
  rfl

theorem ofMicros_min (count most : Nat) :
    Nanos.ofMicros (min count most) = min (Nanos.ofMicros count) (Nanos.ofMicros most) :=
  (Nat.mul_min_mul_left 1000 count most).symm

/-- A delay is the nearest span, the longest wait or the cap, whichever is least. -/
theorem unitsToDelay_eq (delays : DelayConfig ℚ) (nonneg : 0 ≤ units) :
    delays.unitsToDelay units =
      delays.cap.elim (min (nearestSpan delays.unit units) longestWait)
        (min (min (nearestSpan delays.unit units) longestWait)) := by
  have micros : units * secondsOf delays.unit * Scalar.ofNat 1000000 = units * delays.unit / 1000 := by
    rw [secondsOf_eq, Scalar.ofNat_rat]
    push_cast
    ring
  have number (x : ℚ) : Scalar.isNaN x = false := rfl
  have scaled : 0 ≤ units * delays.unit / 1000 := by positivity
  unfold DelayConfig.unitsToDelay DelayConfig.microsToDelay
  rw [micros, number, Bool.false_or]
  split
  · rename_i none
    rw [Scalar.le_rat, Scalar.zero_rat] at none
    have nothing : nearestSpan delays.unit units = 0 := by
      rw [nearestSpan, le_antisymm none scaled, round_zero]
      rfl
    cases delays.cap <;> simp [nothing]
  · have rounded : Nanos.ofMicros (Scalar.roundWord (units * delays.unit / 1000)) =
        min (nearestSpan delays.unit units) longestWait := by
      rw [roundWord_eq, ofMicros_min]
      rfl
    rw [rounded]
    cases delays.cap <;> rfl

theorem jitterBounds_eq (delays : DelayConfig ℚ) (positive : 0 < weight) :
    delays.jitterBounds weight = some (1 / weight * delays.jitterLow, 1 / weight * delays.jitterHigh) := by
  have finite : Scalar.isFinite weight = true := rfl
  have above : Scalar.le weight Scalar.zero = false := by
    rw [Bool.eq_false_iff, ne_eq, Scalar.le_rat, Scalar.zero_rat]
    exact positive.not_ge
  simp only [DelayConfig.jitterBounds, finite, above, Bool.not_true, Bool.or_false, Bool.false_eq_true, if_false,
    Scalar.one_rat]

/-- The factors of accepted settings are positive and in order. -/
theorem jitter_of_check (accepted : config.check = .ok ()) :
    0 < config.delays.jitterLow ∧ config.delays.jitterLow ≤ config.delays.jitterHigh := by
  obtain ⟨least, -, inOrder⟩ := Config.jitter_of_check accepted
  rw [Scalar.lt_rat, Scalar.zero_rat] at least
  rw [Bool.eq_false_iff, ne_eq, Scalar.lt_rat, not_lt] at inOrder
  exact ⟨least, inOrder⟩

theorem pointAt_mem (fraction : 0 ≤ share ∧ share < 1) (le : low ≤ high) :
    low ≤ Random.pointAt share low high ∧ Random.pointAt share low high ≤ high := by
  have span : 0 ≤ high - low := sub_nonneg.mpr le
  constructor
  · exact le_add_of_nonneg_left (mul_nonneg fraction.1 span)
  · calc share * (high - low) + low ≤ 1 * (high - low) + low := by gcongr; exact fraction.2.le
      _ = high := by ring

/-- How long a relay waits: the point that the draw falls on in the range of the weight is made a delay, and
without a cap that lies between the nearest spans to the ends of the range, up to the longest wait. -/
structure Waits (delays : DelayConfig ℚ) (weight share : ℚ) (delay : Nanos) : Prop where
  given : delays.delayAt weight share = .ok delay
  placed : ∃ low high, delays.jitterBounds weight = some (low, high) ∧
    delay = delays.unitsToDelay (share * (high - low) + low) ∧
    delay ≤ nearestSpan delays.unit high ∧
    (delays.cap = none → min (nearestSpan delays.unit low) longestWait ≤ delay)

/-- The end of the range that a single factor leaves is the point that every draw falls on. -/
theorem delayAt_eq_pointAt (accepted : config.check = .ok ()) (positive : 0 < weight)
    (bounds : config.delays.jitterBounds weight = some (low, high)) (share : ℚ) :
    config.delays.delayAt weight share = .ok (config.delays.unitsToDelay (Random.pointAt share low high)) := by
  obtain ⟨-, inOrder⟩ := jitter_of_check accepted
  rw [jitterBounds_eq config.delays positive] at bounds
  obtain ⟨rfl, rfl⟩ := Prod.mk.inj (Option.some.inj bounds)
  rw [delayAt_eq config.delays positive]
  congr 2
  unfold Random.pointAt
  split
  · ring
  · rename_i single
    rw [le_antisymm inOrder (not_lt.mp single)]
    ring

theorem exists_waits (accepted : config.check = .ok ()) (positive : 0 < weight)
    (fraction : 0 ≤ share ∧ share < 1) : ∃ delay, Waits config.delays weight share delay := by
  obtain ⟨least, inOrder⟩ := jitter_of_check accepted
  have base : 0 < 1 / weight := one_div_pos.mpr positive
  have bounds := jitterBounds_eq config.delays positive
  have ends : 1 / weight * config.delays.jitterLow ≤ 1 / weight * config.delays.jitterHigh :=
    mul_le_mul_of_nonneg_left inOrder base.le
  obtain ⟨above, below⟩ := pointAt_mem fraction ends
  have delayed := unitsToDelay_eq config.delays ((mul_pos base least).le.trans above)
  refine ⟨_, delayAt_eq_pointAt accepted positive bounds share, _, _, bounds, rfl, ?_, fun uncapped => ?_⟩
  · rw [delayed]
    refine le_trans ?_ (nearestSpan_mono config.delays.unit below)
    cases config.delays.cap with
    | none => exact min_le_left _ _
    | some cap => exact (min_le_left _ _).trans (min_le_left _ _)
  · rw [delayed, uncapped]
    exact min_le_min_right _ (nearestSpan_mono config.delays.unit above)

/-- With accepted settings the heavier of two weights never waits longer for one and the same draw, whatever is
rounded, cut off or capped on the way. Each delay is that of the drawn point and lies between the ends. -/
theorem heavier_waits_no_longer (accepted : config.check = .ok ()) (positive : 0 < weight)
    (le : weight ≤ heavier) (fraction : 0 ≤ share ∧ share < 1) :
    ∃ longer shorter, Waits config.delays weight share longer ∧ Waits config.delays heavier share shorter ∧
      shorter ≤ longer := by
  obtain ⟨longer, waits⟩ := exists_waits accepted positive fraction
  obtain ⟨shorter, waits'⟩ := exists_waits accepted (positive.trans_le le) fraction
  obtain ⟨delay, delay', given, given', ordered⟩ := delayAt_anti accepted positive le fraction.1
  obtain rfl : longer = delay := Except.ok.inj (waits.given.symm.trans given)
  obtain rfl : shorter = delay' := Except.ok.inj (waits'.given.symm.trans given')
  exact ⟨longer, shorter, waits, waits', ordered⟩

/-- The lighter weight calls for more microseconds than a word can count, the heavier for half a microsecond,
which is rounded up. -/
theorem heavier_waits_no_longer_rounded :
    let fine : Config ℚ := { ScoreBook.brisk with delays := { ScoreBook.brisk.delays with unit := 1000 } }
    fine.check = .ok () ∧ fine.delays.delayAt (1 / 10 ^ 20) (1 / 2) = .ok longestWait ∧
      fine.delays.delayAt 2 (1 / 2) = .ok 1000 ∧
      ∃ longer shorter, Waits fine.delays (1 / 10 ^ 20) (1 / 2) longer ∧ Waits fine.delays 2 (1 / 2) shorter ∧
        shorter ≤ longer := by
  intro fine
  have accepted : fine.check = .ok () := by decide +kernel
  exact ⟨accepted, by decide +kernel, by decide +kernel,
    heavier_waits_no_longer accepted (by norm_num) (by norm_num) (by norm_num)⟩

end Overhear.Exact
