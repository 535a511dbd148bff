import Overhear.Delay
import Overhear.Proofs.Float.Operations
import Overhear.Proofs.Settings

/-! When a delay can be drawn. Its range goes from one jitter factor to the other, both times the reciprocal of
the weight, and a number is drawn from it only if the range has a finite span. It has, unless its high end alone
is too large for a number. -/
namespace Overhear

open Floating

namespace DelayConfig

section Caps

variable {α : Type} [Scalar α] {delays : DelayConfig α} {cap : Nanos}

theorem microsToDelay_le_cap (capped : delays.cap = some cap) (micros : α) :
    delays.microsToDelay micros ≤ cap := by
  unfold microsToDelay
  split
  · exact Nat.zero_le cap
  · rw [capped]
    exact Nat.min_le_right _ cap

theorem unitsToDelay_le_cap (capped : delays.cap = some cap) (units : α) :
    delays.unitsToDelay units ≤ cap :=
  microsToDelay_le_cap capped _

end Caps

variable {σ : Type} {delays : DelayConfig Float} {weight low high : Float}

/-- Of the two ends of the range only the low one is a finite number. -/
def Overflows (delays : DelayConfig Float) (weight : Float) : Prop :=
  ∃ low high, delays.jitterBounds weight = some (low, high) ∧ low.isFinite = true ∧ high.isFinite = false

theorem exists_share_draw (delays : DelayConfig Float) (next : σ → UInt64 × σ) (weight : Float) (source : σ) :
    ∃ share, (delays.draw next weight source).1 = delays.delayAt weight share := by
  unfold draw
  split
  · exact ⟨_, rfl⟩
  · exact ⟨_, rfl⟩

/-- The range for a weight: the weight is a positive number, and the ends are multiples of its reciprocal. -/
theorem jitterBounds_eq_some (bounds : delays.jitterBounds weight = some (low, high)) :
    (∃ w : ℚ, Amounts weight w ∧ 0 < w) ∧ low = 1 / weight * delays.jitterLow ∧
      high = 1 / weight * delays.jitterHigh := by
  unfold jitterBounds at bounds
  split at bounds
  · cases bounds
  · rename_i positive
    rw [Bool.not_eq_true, Bool.or_eq_false_iff, Bool.not_eq_false'] at positive
    have above : ¬ weight ≤ 0 := of_decide_eq_false positive.2
    obtain ⟨rfl, rfl⟩ := Prod.mk.inj (Option.some.inj bounds)
    exact ⟨exists_amounts_of_finite positive.1 above, rfl, rfl⟩

theorem amounts_reciprocal {w : ℚ} (amounts : Amounts weight w) (positive : 0 < w) :
    Amounts (1 / weight) (fit (1 / w : ℚ)) :=
  amounts_one.div amounts positive

theorem fit_reciprocal_pos {w : ℚ} (amounts : Amounts weight w) (positive : 0 < w) :
    0 < fit (1 / w : ℚ) := by
  refine fit_pos (WithTop.coe_le_coe.mpr ?_)
  calc (2 ^ (-1074 : ℤ) : ℚ) ≤ 1 / limit := by
        rw [limit, one_div, ← zpow_neg]
        exact zpow_le_zpow_right₀ one_le_two (by norm_num)
    _ ≤ 1 / w := one_div_le_one_div_of_le positive amounts.lt_limit.le

/-- An end of the range for a positive jitter factor. -/
theorem amounts_end {w : ℚ} {jitter : Float} {j : WithTop ℚ} (amounts : Amounts weight w)
    (positive : 0 < w) (factor : Amounts jitter j) (some : 0 < j) :
    Amounts (1 / weight * jitter) (fit (fit (1 / w : ℚ) * j)) :=
  (amounts_reciprocal amounts positive).mul factor
    (fun none => absurd none (fit_reciprocal_pos amounts positive).ne') (fun none => absurd none some.ne')

end DelayConfig

namespace Config

open DelayConfig

variable {σ : Type} {config : Config Float} {weight low high : Float}

/-- The factors that the check lets through are positive and in order. One of them, or both, may be infinite. -/
theorem exists_jitter (accepted : config.check = .ok ()) :
    ∃ l h, Amounts config.delays.jitterLow l ∧ Amounts config.delays.jitterHigh h ∧ 0 < l ∧ l ≤ h := by
  obtain ⟨low, high, inOrder⟩ := jitter_of_check accepted
  obtain ⟨l, least, positive⟩ := amounts_zero.exists_of_lt (of_decide_eq_true low)
  obtain ⟨h, greatest, -⟩ := amounts_zero.exists_of_lt (of_decide_eq_true high)
  have above : ¬ config.delays.jitterHigh < config.delays.jitterLow := of_decide_eq_false inOrder
  exact ⟨l, h, least, greatest, positive, not_lt.mp (mt (greatest.lt_iff least).mpr above)⟩

theorem amounts_bounds (accepted : config.check = .ok ())
    (bounds : config.delays.jitterBounds weight = some (low, high)) :
    ∃ a b, Amounts low a ∧ Amounts high b ∧ a ≤ b := by
  obtain ⟨⟨w, amounts, positive⟩, rfl, rfl⟩ := jitterBounds_eq_some bounds
  obtain ⟨l, h, least, greatest, some, le⟩ := exists_jitter accepted
  have base := fit_reciprocal_pos amounts positive
  exact ⟨_, _, amounts_end amounts positive least some,
    amounts_end amounts positive greatest (some.trans_le le),
    fit_mono (mul_size_pos base some).le (mul_le_mul_size base.le some.le le)⟩

/-- The span is looked at only when the range is not a point. It is infinite then just when the range
overflows. -/
theorem overflows_iff (accepted : config.check = .ok ())
    (bounds : config.delays.jitterBounds weight = some (low, high)) :
    config.delays.Overflows weight ↔ low < high ∧ (high - low).isFinite = false := by
  obtain ⟨a, b, lowEnd, highEnd, le⟩ := amounts_bounds accepted bounds
  constructor
  · rintro ⟨low', high', same, finite, infinite⟩
    obtain ⟨rfl, rfl⟩ := Prod.mk.inj (Option.some.inj (bounds.symm.trans same))
    have below : a < b := by
      refine le.lt_of_ne fun equal => ?_
      have fits := lowEnd.isFinite_iff.mp finite
      rw [equal] at fits
      exact absurd (highEnd.isFinite_iff.mpr fits) (Bool.not_eq_true _ ▸ infinite)
    refine ⟨(lowEnd.lt_iff highEnd).mpr below, ?_⟩
    rw [Bool.eq_false_iff, ne_eq, isFinite_span_iff lowEnd highEnd below, infinite]
    exact nofun
  · rintro ⟨ordered, infinite⟩
    have below := (lowEnd.lt_iff highEnd).mp ordered
    rw [Bool.eq_false_iff, ne_eq, isFinite_span_iff lowEnd highEnd below] at infinite
    exact ⟨low, high, bounds, lowEnd.isFinite_iff.mpr below.ne_top, Bool.eq_false_iff.mpr infinite⟩

theorem delayAt_of_overflows (accepted : config.check = .ok ()) (overflows : config.delays.Overflows weight)
    (share : Float) : config.delays.delayAt weight share = .error .unbounded := by
  have ⟨low, high, bounds, _⟩ := overflows
  obtain ⟨ordered, infinite⟩ := (overflows_iff accepted bounds).mp overflows
  have ordered : Scalar.lt low high = true := decide_eq_true ordered
  have infinite : Scalar.isFinite (high - low) = false := infinite
  simp only [delayAt, bounds, ordered, infinite, if_true, Bool.false_eq_true, if_false]

theorem delayAt_of_not_overflows (accepted : config.check = .ok ())
    (fits : ¬ config.delays.Overflows weight) (share : Float) :
    ∃ delay, config.delays.delayAt weight share = .ok delay ∧
      ∀ cap, config.delays.cap = some cap → delay ≤ cap := by
  unfold delayAt
  cases bounds : config.delays.jitterBounds weight with
  | none => exact ⟨0, rfl, fun cap _ => Nat.zero_le cap⟩
  | some ends =>
    obtain ⟨low, high⟩ := ends
    dsimp only
    split
    · rename_i ordered
      have finite : Scalar.isFinite (high - low) = true := by
        by_contra infinite
        exact fits ((overflows_iff accepted bounds).mpr
          ⟨of_decide_eq_true ordered, Bool.eq_false_iff.mpr infinite⟩)
      exact ⟨_, if_pos finite, fun cap capped => unitsToDelay_le_cap capped _⟩
    · exact ⟨_, rfl, fun cap capped => unitsToDelay_le_cap capped _⟩

theorem fit_reciprocal_le {w : ℚ} (large : power (-1022) ≤ w) : fit (1 / w : ℚ) ≤ power 1022 := by
  have large : 2 ^ (-1022 : ℤ) ≤ w := WithTop.coe_le_coe.mp large
  have positive : 0 < w := (two_zpow_pos _).trans_le large
  have small : 1 / w ≤ 2 ^ (1022 : ℤ) :=
    calc 1 / w ≤ 1 / 2 ^ (-1022 : ℤ) := one_div_le_one_div_of_le (two_zpow_pos _) large
      _ = 2 ^ (1022 : ℤ) := by rw [one_div, ← zpow_neg, neg_neg]
  calc fit (1 / w : ℚ) ≤ fit (power 1022) :=
        fit_mono (WithTop.coe_nonneg.mpr (one_div_pos.mpr positive).le) (WithTop.coe_le_coe.mpr small)
    _ = power 1022 := fit_power (by norm_num) (by norm_num)

theorem fit_end_le {b j : WithTop ℚ} (base : 0 < b) (small : b ≤ power 1022) (some : 0 < j)
    (narrow : j ≤ power 1) : fit (b * j) ≤ power 1023 := by
  have product : b * j ≤ power 1023 :=
    calc b * j ≤ b * power 1 := mul_le_mul_size base.le some.le narrow
      _ = power 1 * b := mul_comm ..
      _ ≤ power 1 * power 1022 := mul_le_mul_size (power_pos 1).le base.le small
      _ = power 1023 := power_mul 1 1022
  calc fit (b * j) ≤ fit (power 1023) := fit_mono (mul_size_pos base some).le product
    _ = power 1023 := fit_power (by norm_num) (by norm_num)

/-- For a weight from the least normal number on, and jitter up to twice the base delay, all delays are
finite. -/
theorem not_overflows_of_normal (accepted : config.check = .ok ()) (narrow : config.delays.jitterHigh ≤ 2)
    (normal : Float.ofBits 0x0010000000000000 ≤ weight) : ¬ config.delays.Overflows weight := by
  rintro ⟨low, high, bounds, -, infinite⟩
  obtain ⟨⟨w, amounts, positive⟩, rfl, rfl⟩ := jitterBounds_eq_some bounds
  obtain ⟨l, h, -, greatest, some, le⟩ := exists_jitter accepted
  have least : Amounts (Float.ofBits 0x0010000000000000) (power (-1022)) := amounts_of_power rfl
  have two : Amounts 2 (power 1) := amounts_of_power rfl
  have bounded := fit_end_le (fit_reciprocal_pos amounts positive)
    (fit_reciprocal_le ((least.le_iff amounts).mp normal)) (some.trans_le le) ((greatest.le_iff two).mp narrow)
  have highEnd := amounts_end amounts positive greatest (some.trans_le le)
  cases (highEnd.isFinite_iff.mpr (bounded.trans_lt (WithTop.coe_lt_top _)).ne).symm.trans infinite

/-- A draw fails exactly when the range overflows. What it gives otherwise respects the cap. -/
theorem draw_fails_on_overflow_only (accepted : config.check = .ok ()) (next : σ → UInt64 × σ)
    (weight : Float) (source : σ) :
    let drawn := (config.delays.draw next weight source).1
    (config.delays.Overflows weight → drawn = .error .unbounded) ∧
    (¬ config.delays.Overflows weight →
      ∃ delay, drawn = .ok delay ∧ ∀ cap, config.delays.cap = some cap → delay ≤ cap) ∧
    (config.delays.jitterHigh ≤ 2 → Float.ofBits 0x0010000000000000 ≤ weight →
      ¬ config.delays.Overflows weight) := by
  intro drawn
  obtain ⟨share, same⟩ := exists_share_draw config.delays next weight source
  refine ⟨fun overflows => ?_, fun fits => ?_, not_overflows_of_normal accepted⟩
  · exact same.trans (delayAt_of_overflows accepted overflows share)
  · obtain ⟨delay, given, capped⟩ := delayAt_of_not_overflows accepted fits share
    exact ⟨delay, same.trans given, capped⟩

theorem draw_fails_on_overflow_only_standard :
    ∃ delay, (standard.delays.draw Random.Generator.nextLongWord 0.5 (.ofSeed 0)).1 = .ok delay := by
  have accepted : standard.check = .ok () := by decide +kernel
  obtain ⟨-, given, fits⟩ := draw_fails_on_overflow_only accepted Random.Generator.nextLongWord 0.5 (.ofSeed 0)
  obtain ⟨delay, same, -⟩ := given (fits (by decide +kernel) (by decide +kernel))
  exact ⟨delay, same⟩

/-- The settings are the standard ones with a cap of one delay unit. The weight is positive and finite, but
below the least normal number: half its reciprocal is finite and three halves of it are not. -/
theorem draw_fails_at_subnormal_weight :
    let config : Config Float :=
      { standard with delays := { DelayConfig.standard with cap := some DelayConfig.standard.unit } }
    let weight := Float.ofBits 0x00045080ae75f218
    config.check = .ok () ∧ 0 < weight ∧ weight.isFinite = true ∧
      (config.delays.draw Random.Generator.nextLongWord weight (.ofSeed 0)).1 = .error .unbounded := by
  decide +kernel

end Config

end Overhear
