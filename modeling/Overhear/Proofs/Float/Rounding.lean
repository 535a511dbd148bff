import Mathlib
import Mathlib.Tactic.Linarith
import Mathlib.Tactic.Positivity
import Mathlib.Tactic.Ring

/-! Rounding a number that is not negative to 53 binary digits, on exact numbers: to the nearest multiple of
the last place, a half to the even one. The last place is the 1074th after the point at the latest. -/
namespace Overhear.Floating

variable {x y q r : ℚ} {n : ℕ}

def nearestEven (x : ℚ) : ℕ :=
  if x < ⌊x⌋₊ + 1 / 2 then ⌊x⌋₊
  else if x = ⌊x⌋₊ + 1 / 2 then ⌊x⌋₊ + ⌊x⌋₊ % 2
  else ⌊x⌋₊ + 1

theorem floor_le_nearestEven (x : ℚ) : ⌊x⌋₊ ≤ nearestEven x := by
  unfold nearestEven
  split_ifs <;> omega

theorem nearestEven_le_floor (x : ℚ) : nearestEven x ≤ ⌊x⌋₊ + 1 := by
  unfold nearestEven
  split_ifs <;> omega

theorem nearestEven_mono (le : x ≤ y) : nearestEven x ≤ nearestEven y := by
  rcases (Nat.floor_mono le).lt_or_eq with below | same
  · exact (nearestEven_le_floor x).trans ((Nat.succ_le_of_lt below).trans (floor_le_nearestEven y))
  · unfold nearestEven
    rw [← same]
    rcases lt_trichotomy x (⌊x⌋₊ + 1 / 2) with low | half | high
    · rw [if_pos low]
      split_ifs <;> omega
    · rw [if_neg half.not_lt, if_pos half, if_neg (half ▸ le).not_gt]
      split_ifs <;> omega
    · have high' := high.trans_le le
      rw [if_neg high.not_gt, if_neg high.ne', if_neg high'.not_gt, if_neg high'.ne']

theorem nearestEven_natCast (n : ℕ) : nearestEven n = n := by
  unfold nearestEven
  rw [Nat.floor_natCast, if_pos (by linarith)]

theorem two_zpow_pos (e : ℤ) : (0 : ℚ) < 2 ^ e := zpow_pos two_pos e

theorem log_mul_zpow (positive : 0 < x) (e : ℤ) : Int.log 2 (x * 2 ^ e) = Int.log 2 x + e := by
  have shifted : 0 < x * 2 ^ e := mul_pos positive (two_zpow_pos e)
  have low : (2 : ℚ) ^ Int.log 2 x ≤ x := by
    exact_mod_cast Int.zpow_log_le_self Nat.one_lt_two positive
  have high : x < (2 : ℚ) ^ (Int.log 2 x + 1) := by
    exact_mod_cast Int.lt_zpow_succ_log_self Nat.one_lt_two x
  apply le_antisymm
  · rw [← Int.lt_add_one_iff, ← Int.lt_zpow_iff_log_lt Nat.one_lt_two shifted, add_right_comm,
      Nat.cast_ofNat, zpow_add₀ two_ne_zero]
    exact mul_lt_mul_of_pos_right high (two_zpow_pos e)
  · rw [← Int.zpow_le_iff_le_log Nat.one_lt_two shifted, Nat.cast_ofNat, zpow_add₀ two_ne_zero]
    exact mul_le_mul_of_nonneg_right low (two_zpow_pos e).le

/-- The exponent of the last place. -/
def lastPlace (q : ℚ) : ℤ := max (Int.log 2 q - 52) (-1074)

def rounded (q : ℚ) : ℚ := nearestEven (q / 2 ^ lastPlace q) * 2 ^ lastPlace q

theorem rounded_nonneg (q : ℚ) : 0 ≤ rounded q :=
  mul_nonneg (Nat.cast_nonneg _) (two_zpow_pos _).le

theorem rounded_zero : rounded 0 = 0 := by
  rw [rounded, zero_div, ← Nat.cast_zero, nearestEven_natCast, Nat.cast_zero, zero_mul]

/-- There are 53 digits before the last place at the most. -/
theorem lt_two_zpow_lastPlace (q : ℚ) : q < 2 ^ (lastPlace q + 53) := by
  have log : q < 2 ^ (Int.log 2 q + 1) := by
    exact_mod_cast Int.lt_zpow_succ_log_self Nat.one_lt_two q
  refine log.trans_le (zpow_le_zpow_right₀ one_le_two ?_)
  unfold lastPlace
  omega

/-- There are 53 digits before the last place unless that is as late as it can be. -/
theorem two_zpow_le_of_lt_lastPlace (positive : 0 < q) (normal : -1074 < lastPlace q) :
    (2 : ℚ) ^ (lastPlace q + 52) ≤ q := by
  have place : lastPlace q + 52 = Int.log 2 q := by
    unfold lastPlace at normal ⊢
    omega
  rw [place]
  exact_mod_cast Int.zpow_log_le_self Nat.one_lt_two positive

theorem lastPlace_mono (positive : 0 < q) (le : q ≤ r) : lastPlace q ≤ lastPlace r :=
  max_le_max (sub_le_sub_right (Int.log_mono_right positive le) 52) le_rfl

theorem lastPlace_le {e : ℤ} (positive : 0 < q) (below : q < 2 ^ (e + 53)) (place : -1074 ≤ e) :
    lastPlace q ≤ e := by
  refine max_le ?_ place
  have log := (Int.lt_zpow_iff_log_lt Nat.one_lt_two positive).mp (by exact_mod_cast below)
  omega

/-- A number with 53 digits up to a place that is not too late stays as it is. -/
theorem rounded_of_digits {e : ℤ} (digits : n < 2 ^ 53) (place : -1074 ≤ e) :
    rounded (n * 2 ^ e) = n * 2 ^ e := by
  rcases Nat.eq_zero_or_pos n with rfl | positive
  · simp [rounded_zero]
  have below : (n * 2 ^ e : ℚ) < 2 ^ (e + 53) := by
    rw [zpow_add₀ two_ne_zero, mul_comm]
    exact mul_lt_mul_of_pos_left (by exact_mod_cast digits) (two_zpow_pos e)
  have early := lastPlace_le (mul_pos (by exact_mod_cast positive) (two_zpow_pos e)) below place
  unfold rounded
  generalize lastPlace (n * 2 ^ e) = last at early
  obtain ⟨shift, rfl⟩ := Int.exists_add_of_le early
  have whole : (n * 2 ^ (last + shift) / 2 ^ last : ℚ) = (n * 2 ^ shift : ℕ) := by
    rw [zpow_add₀ two_ne_zero]
    push_cast
    rw [zpow_natCast]
    field_simp
  rw [whole, nearestEven_natCast, ← whole, div_mul_cancel₀ _ (two_zpow_pos last).ne']

theorem nearestEven_le_of_lastPlace (q : ℚ) : nearestEven (q / 2 ^ lastPlace q) ≤ 2 ^ 53 := by
  have below := lt_two_zpow_lastPlace q
  rw [zpow_add₀ two_ne_zero, mul_comm, ← div_lt_iff₀ (two_zpow_pos _)] at below
  have upper : q / 2 ^ lastPlace q ≤ (2 ^ 53 : ℕ) := by
    push_cast
    exact below.le
  exact (nearestEven_mono upper).trans_eq (nearestEven_natCast _)

theorem le_nearestEven_of_lastPlace (positive : 0 < q) (normal : -1074 < lastPlace q) :
    2 ^ 52 ≤ nearestEven (q / 2 ^ lastPlace q) := by
  have above := two_zpow_le_of_lt_lastPlace positive normal
  rw [zpow_add₀ two_ne_zero, mul_comm, ← le_div_iff₀ (two_zpow_pos _)] at above
  have lower : (2 ^ 52 : ℕ) ≤ q / 2 ^ lastPlace q := by
    push_cast
    exact above
  exact (nearestEven_natCast _).symm.trans_le (nearestEven_mono lower)

/-- Where the last place moves, the smaller number is rounded to a power of two at the most, and the larger
one to no less. -/
theorem rounded_mono (nonneg : 0 ≤ q) (le : q ≤ r) : rounded q ≤ rounded r := by
  rcases nonneg.eq_or_lt with rfl | positive
  · exact rounded_zero.trans_le (rounded_nonneg r)
  rcases (lastPlace_mono positive le).lt_or_eq with earlier | same
  · have normal : -1074 < lastPlace r := (le_max_right _ _).trans_lt earlier
    have digits : (nearestEven (q / 2 ^ lastPlace q) : ℚ) ≤ 2 ^ 53 := by
      exact_mod_cast nearestEven_le_of_lastPlace q
    have full : (2 : ℚ) ^ 52 ≤ nearestEven (r / 2 ^ lastPlace r) := by
      exact_mod_cast le_nearestEven_of_lastPlace (positive.trans_le le) normal
    have place : (2 : ℚ) * 2 ^ lastPlace q ≤ 2 ^ lastPlace r := by
      rw [← zpow_one_add₀ two_ne_zero]
      exact zpow_le_zpow_right₀ one_le_two (by omega)
    calc rounded q ≤ 2 ^ 53 * 2 ^ lastPlace q := mul_le_mul_of_nonneg_right digits (two_zpow_pos _).le
      _ = 2 ^ 52 * (2 * 2 ^ lastPlace q) := by ring
      _ ≤ 2 ^ 52 * 2 ^ lastPlace r := mul_le_mul_of_nonneg_left place (by norm_num)
      _ ≤ rounded r := mul_le_mul_of_nonneg_right full (two_zpow_pos _).le
  · unfold rounded
    rw [same]
    have scaled : q / 2 ^ lastPlace r ≤ r / 2 ^ lastPlace r :=
      div_le_div_of_nonneg_right le (two_zpow_pos _).le
    exact mul_le_mul_of_nonneg_right (by exact_mod_cast nearestEven_mono scaled) (two_zpow_pos _).le

end Overhear.Floating
