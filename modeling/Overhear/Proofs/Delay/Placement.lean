import Overhear.Proofs.Delay.Draw
import Overhear.Proofs.Engine.Forwarding
import Overhear.Proofs.Float.Words

/-! How the place of a relay decides its delay. The weight takes one less the progress, so of two relays the one
that is nearer the destination has the smaller weight and waits longer. -/
namespace Overhear

open Floating

variable {own other previous share score : Float} {q r : WithTop ℚ}

theorem larger_eq_own (number : own.isNaN = false) (above : ¬ own < previous) :
    Scalar.max own previous = own := by
  have number : Scalar.isNaN own = false := number
  have above : Scalar.lt own previous = false := decide_eq_false above
  simp [Scalar.max, number, above]

theorem larger_eq_previous (number : own.isNaN = false) (number' : previous.isNaN = false)
    (below : own < previous) : Scalar.max own previous = previous := by
  have number : Scalar.isNaN own = false := number
  have number' : Scalar.isNaN previous = false := number'
  have below : Scalar.lt own previous = true := decide_eq_true below
  simp [Scalar.max, number, number', below]

theorem progress_eq_zero
    (vanishing : Scalar.max own previous ≤ 0 ∨ (Scalar.max own previous).isFinite = false) :
    progress own previous = 0 := by
  have vanishing : (Scalar.le (Scalar.max own previous) Scalar.zero ||
      !Scalar.isFinite (Scalar.max own previous)) = true := by
    rcases vanishing with none | infinite
    · exact Bool.or_eq_true_iff.mpr (.inl (decide_eq_true none))
    · have infinite : Scalar.isFinite (Scalar.max own previous) = false := infinite
      rw [infinite, Bool.not_false, Bool.or_true]
  unfold progress
  exact if_pos vanishing

theorem progress_eq_complement {m : ℚ} (amounts : Amounts (Scalar.max own previous) m) (positive : 0 < m) :
    progress own previous = 1 - own / Scalar.max own previous := by
  have above : ¬ Scalar.max own previous ≤ 0 := by
    rw [amounts.le_iff amounts_zero]
    exact (WithTop.coe_pos.mpr positive).not_ge
  have finite : Scalar.isFinite (Scalar.max own previous) = true := amounts.isFinite_iff.mpr WithTop.coe_ne_top
  have above : Scalar.le (Scalar.max own previous) Scalar.zero = false := decide_eq_false above
  unfold progress
  refine if_neg ?_
  rw [above, finite]
  exact nofun

/-- A relay that is nearer than the hop before, at a finite distance, makes the complement of what is left of
the way; every other relay makes none. -/
theorem progress_cases (amounts : Amounts own q) (previous : Float) :
    (∃ m : ℚ, Amounts previous m ∧ q < m ∧ progress own previous = 1 - own / previous) ∨
      (¬ ∃ m : ℚ, Amounts previous m ∧ q < m) ∧ Amounts (progress own previous) 0 := by
  by_cases nearer : ∃ m : ℚ, Amounts previous m ∧ q < m
  · obtain ⟨m, before, below⟩ := nearer
    have larger := larger_eq_previous amounts.isNaN_eq before.isNaN_eq ((amounts.lt_iff before).mpr below)
    have positive : 0 < m := WithTop.coe_pos.mp ((Denotes.nonneg amounts).trans_lt below)
    have dominating : Amounts (Scalar.max own previous) m := by
      rw [larger]
      exact before
    exact .inl ⟨m, before, below, (progress_eq_complement dominating positive).trans (by rw [larger])⟩
  · refine .inr ⟨nearer, ?_⟩
    by_cases below : own < previous
    · obtain ⟨r, before, less⟩ := amounts.exists_of_lt below
      have infinite : r = ⊤ := by
        by_contra finite
        obtain ⟨m, rfl⟩ := WithTop.ne_top_iff_exists.mp finite
        exact nearer ⟨m, before, less⟩
      have larger := larger_eq_previous amounts.isNaN_eq before.isNaN_eq below
      rw [progress_eq_zero (.inr ?_)]
      · exact amounts_zero
      · rw [larger, Bool.eq_false_iff, ne_eq, before.isFinite_iff, infinite]
        exact not_not_intro rfl
    · have larger := larger_eq_own amounts.isNaN_eq below
      cases q with
      | top =>
        rw [progress_eq_zero (.inr ?_)]
        · exact amounts_zero
        · rw [larger, Bool.eq_false_iff, ne_eq, amounts.isFinite_iff]
          exact not_not_intro rfl
      | coe a =>
        rcases (WithTop.coe_nonneg.mp (Denotes.nonneg amounts)).eq_or_lt with rfl | positive
        · rw [progress_eq_zero (.inl ?_)]
          · exact amounts_zero
          · rw [larger, amounts.le_iff amounts_zero]
            exact le_rfl
        · rw [progress_eq_complement (larger.symm ▸ amounts) positive, larger]
          have ratio := amounts.div amounts positive
          rw [div_self positive.ne', WithTop.coe_one, amounts_one.fit_eq] at ratio
          have complement := amounts_complement ratio le_rfl
          rwa [sub_self, WithTop.coe_zero, fit_zero] at complement

theorem isShare_ratio {a m : ℚ} (amounts : Amounts own a) (before : Amounts previous m) (below : a < m) :
    IsShare (own / previous) := by
  have nonneg := WithTop.coe_nonneg.mp (Denotes.nonneg amounts)
  have positive := nonneg.trans_lt below
  exact isShare_of_fit (amounts.div before positive) (div_nonneg nonneg positive.le)
    ((div_le_one positive).mpr below.le)

theorem isShare_progress (nonneg : 0 ≤ own) (previous : Float) : IsShare (progress own previous) := by
  obtain ⟨q, amounts⟩ := exists_amounts nonneg
  rcases progress_cases amounts previous with ⟨m, before, below, same⟩ | ⟨-, none⟩
  · obtain ⟨a, rfl⟩ := WithTop.ne_top_iff_exists.mp below.ne_top
    rw [same]
    exact (isShare_ratio amounts before (WithTop.coe_lt_coe.mp below)).complement
  · exact isShare_iff.mpr ⟨0, none, le_rfl, zero_le_one⟩

theorem progress_anti (nonneg : 0 ≤ own) (nearer : own ≤ other) (previous : Float) :
    progress other previous ≤ progress own previous := by
  obtain ⟨q, amounts⟩ := exists_amounts nonneg
  obtain ⟨r, amounts'⟩ := amounts.exists_of_le nearer
  have le := (amounts.le_iff amounts').mp nearer
  rcases progress_cases amounts' previous with ⟨m, before, below, same⟩ | ⟨-, none⟩
  · obtain ⟨b, rfl⟩ := WithTop.ne_top_iff_exists.mp below.ne_top
    obtain ⟨a, rfl⟩ := WithTop.ne_top_iff_exists.mp (le.trans_lt below).ne_top
    rcases progress_cases amounts previous with ⟨l, -, -, same'⟩ | ⟨behind, -⟩
    · have small := WithTop.coe_lt_coe.mp below
      have small' := (WithTop.coe_le_coe.mp le).trans_lt small
      rw [same, same']
      refine complement_anti (isShare_ratio amounts before small') (isShare_ratio amounts' before small) ?_
      have nonneg := WithTop.coe_nonneg.mp (Denotes.nonneg amounts)
      have positive := nonneg.trans_lt small'
      rw [(amounts.div before positive).le_iff (amounts'.div before positive)]
      exact fit_mono (WithTop.coe_nonneg.mpr (div_nonneg nonneg positive.le))
        (WithTop.coe_le_coe.mpr (div_le_div_of_nonneg_right (WithTop.coe_le_coe.mp le) positive.le))
    · exact absurd ⟨m, before, le.trans_lt below⟩ behind
  · obtain ⟨p, some⟩ := exists_amounts (isShare_progress nonneg previous).1
    exact (none.le_iff some).mpr (Denotes.nonneg some)

/-- More progress makes a smaller weight. -/
theorem combinedWeight_anti (sharing : IsShare share) (scored : IsShare score) {more less : Float}
    (first : IsShare less) (second : IsShare more) (le : less ≤ more) :
    combinedWeight share (some more) score ≤ combinedWeight share (some less) score :=
  add_share_mono (sharing.mul second.complement) (sharing.mul first.complement)
    (sharing.complement.mul scored)
    (mul_share_mono sharing second.complement first.complement (complement_anti first second le))

namespace DelayConfig

theorem microsToDelay_le {α : Type} [Scalar α] (delays : DelayConfig α) {x y : α}
    (rounds : (Scalar.isNaN x || Scalar.le x Scalar.zero) = false →
      (Scalar.isNaN y || Scalar.le y Scalar.zero) = false ∧ Scalar.roundWord x ≤ Scalar.roundWord y) :
    delays.microsToDelay x ≤ delays.microsToDelay y := by
  unfold microsToDelay
  split
  · exact Nat.zero_le _
  · rename_i some
    obtain ⟨other, le⟩ := rounds (Bool.not_eq_true _ ▸ some)
    have rounded : Nanos.ofMicros (Scalar.roundWord x) ≤ Nanos.ofMicros (Scalar.roundWord y) :=
      Nat.mul_le_mul_left 1000 le
    rw [other]
    cases delays.cap with
    | none => exact rounded
    | some cap => exact min_le_min_right cap rounded

variable {units other : Float}

theorem microsToDelay_mono (delays : DelayConfig Float) (first : Reads units q) (second : Reads other r)
    (le : q ≤ r) : delays.microsToDelay units ≤ delays.microsToDelay other := by
  refine delays.microsToDelay_le fun some => ?_
  rw [Bool.or_eq_false_iff] at some
  have positive : 0 < q := by
    rcases first with amounts | ⟨none, -⟩
    · exact not_le.mp (mt (amounts.le_iff amounts_zero).mpr (of_decide_eq_false some.2))
    · cases some.1.symm.trans none
  have amounts := second.amounts (positive.trans_le le)
  have above : ¬ other ≤ 0 := mt (amounts.le_iff amounts_zero).mp (positive.trans_le le).not_ge
  exact ⟨Bool.or_eq_false_iff.mpr ⟨amounts.isNaN_eq, decide_eq_false above⟩,
    nearestWord_mono (first.amounts positive) amounts le⟩

theorem nonneg_secondsOf (span : Nanos) : (0 : Float) ≤ secondsOf span := by
  obtain ⟨b, nano, positive⟩ : ∃ b : ℚ, Amounts (Scalar.ofNat 1000000000) b ∧ 0 < b :=
    exists_amounts_of_finite (by decide +kernel) (by decide +kernel)
  exact nonneg_add (nonneg_ofNat _) (nonneg_div (nonneg_ofNat _) nano positive)

theorem unitsToDelay_mono (delays : DelayConfig Float) (first : Reads units q) (second : Reads other r)
    (le : q ≤ r) : delays.unitsToDelay units ≤ delays.unitsToDelay other := by
  obtain ⟨s, seconds⟩ := exists_amounts (nonneg_secondsOf delays.unit)
  obtain ⟨m, million⟩ := exists_amounts (nonneg_ofNat 1000000)
  have scaled := fit_mul_mono (Denotes.nonneg seconds) first.nonneg le
  have scaled' := fit_mul_mono (Denotes.nonneg million) scaled.1 scaled.2
  exact microsToDelay_mono delays ((first.mul seconds).mul million) ((second.mul seconds).mul million) scaled'.2

end DelayConfig

namespace Exact

variable {own other previous share score weight heavier p q : ℚ}

theorem max_eq (x y : ℚ) : Scalar.max x y = max x y := by
  have number (x : ℚ) : Scalar.isNaN x = false := rfl
  simp only [Scalar.max, number, Bool.false_eq_true, if_false, Scalar.lt_rat]
  split
  · rename_i below
    exact (max_eq_right below.le).symm
  · rename_i above
    exact (max_eq_left (not_lt.mp above)).symm

theorem progress_eq (nonneg : 0 ≤ own) (previous : ℚ) :
    progress own previous = if own < previous then 1 - own / previous else 0 := by
  have finite : Scalar.isFinite (max own previous) = true := rfl
  simp only [progress, max_eq, finite, Bool.not_true, Bool.or_false, Scalar.le_rat, Scalar.zero_rat,
    Scalar.one_rat]
  by_cases nearer : own < previous
  · rw [max_eq_right nearer.le, if_neg (nonneg.trans_lt nearer).not_ge, if_pos nearer]
  · rw [max_eq_left (not_lt.mp nearer), if_neg nearer]
    split
    · rfl
    · rename_i some
      rw [div_self (not_le.mp some).ne', sub_self]

theorem progress_anti (nonneg : 0 ≤ own) (nearer : own ≤ other) (previous : ℚ) :
    progress other previous ≤ progress own previous := by
  rw [progress_eq nonneg, progress_eq (nonneg.trans nearer)]
  by_cases ahead : other < previous
  · rw [if_pos ahead, if_pos (nearer.trans_lt ahead)]
    exact sub_le_sub_left (div_le_div_of_nonneg_right nearer ((nonneg.trans nearer).trans ahead.le)) 1
  · rw [if_neg ahead]
    split
    · rename_i ahead
      exact sub_nonneg.mpr ((div_le_one (nonneg.trans_lt ahead)).mpr ahead.le)
    · exact le_rfl

theorem combinedWeight_anti (sharing : 0 ≤ share) (le : p ≤ q) (score : ℚ) :
    combinedWeight share (some q) score ≤ combinedWeight share (some p) score := by
  simp only [combinedWeight, Scalar.one_rat]
  gcongr

theorem roundWord_mono {x y : ℚ} (le : x ≤ y) : Scalar.roundWord x ≤ Scalar.roundWord y :=
  min_le_min_right _ (Int.toNat_le_toNat (Int.floor_le_floor (add_le_add_left le _)))

theorem microsToDelay_mono (delays : DelayConfig ℚ) {x y : ℚ} (le : x ≤ y) :
    delays.microsToDelay x ≤ delays.microsToDelay y := by
  have number (x : ℚ) : Scalar.isNaN x = false := rfl
  refine delays.microsToDelay_le fun some => ?_
  simp only [number, Bool.false_or, Bool.eq_false_iff, ne_eq, Scalar.le_rat, Scalar.zero_rat] at some ⊢
  exact ⟨mt le.trans some, roundWord_mono le⟩

theorem unitsToDelay_mono (delays : DelayConfig ℚ) {x y : ℚ} (le : x ≤ y) :
    delays.unitsToDelay x ≤ delays.unitsToDelay y := by
  refine microsToDelay_mono delays ?_
  simp only [secondsOf, Scalar.ofNat_rat]
  gcongr

/-- The point of the range that a share of the way leads to, as a multiple of the reciprocal of the weight. -/
theorem delayAt_eq (delays : DelayConfig ℚ) (positive : 0 < weight) (share : ℚ) :
    delays.delayAt weight share = .ok (delays.unitsToDelay
      (1 / weight * if delays.jitterLow < delays.jitterHigh then
        share * (delays.jitterHigh - delays.jitterLow) + delays.jitterLow else delays.jitterLow)) := by
  have finite (x : ℚ) : Scalar.isFinite x = true := rfl
  have base : 0 < 1 / weight := one_div_pos.mpr positive
  simp only [DelayConfig.delayAt, DelayConfig.jitterBounds, finite, Bool.not_true, Bool.false_or, Scalar.le_rat,
    Scalar.zero_rat, if_neg positive.not_ge, Scalar.lt_rat, Scalar.one_rat, mul_lt_mul_iff_right₀ base, if_true]
  split
  · congr 2
    unfold Random.pointAt
    ring
  · rfl

/-- For one and the same draw a larger weight means no longer delay. -/
theorem delayAt_anti {config : Config ℚ} (accepted : config.check = .ok ()) (positive : 0 < weight)
    (le : weight ≤ heavier) (fraction : 0 ≤ share) :
    ∃ longer shorter, config.delays.delayAt weight share = .ok longer ∧
      config.delays.delayAt heavier share = .ok shorter ∧ shorter ≤ longer := by
  obtain ⟨least, -, -⟩ := Config.jitter_of_check accepted
  have low : 0 < config.delays.jitterLow := by simpa using least
  refine ⟨_, _, delayAt_eq _ positive share, delayAt_eq _ (positive.trans_le le) share, ?_⟩
  refine unitsToDelay_mono _ (mul_le_mul_of_nonneg_right (one_div_le_one_div_of_le positive le) ?_)
  split
  · rename_i ordered
    exact add_nonneg (mul_nonneg fraction (sub_nonneg.mpr ordered.le)) low.le
  · exact low.le

end Exact

end Overhear
