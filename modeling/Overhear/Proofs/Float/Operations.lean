import Overhear.Proofs.Float.Packing

/-! Sums, differences, products and quotients of numbers that are not negative: the exact result, rounded and
stored. All of them respect the order. -/
namespace Overhear.Floating

open Float.Model (Format UnpackedFloat totalExponent)
open Float.Model.UnpackedFloat

variable {mantissa other : ℕ} {exponent level : ℤ} {x y : Float} {q r : WithTop ℚ}

/-- The size of the floating-point number that stands for an exact one. -/
def fit (q : WithTop ℚ) : WithTop ℚ := stored (q.map rounded)

theorem stored_mono (le : q ≤ r) : stored q ≤ stored r := by
  unfold stored
  split
  · split
    · exact le
    · exact le_top
  · rename_i large
    rw [if_neg (mt le.trans_lt large)]

theorem fit_mono (nonneg : 0 ≤ q) (le : q ≤ r) : fit q ≤ fit r := by
  cases r with
  | top =>
    have large : fit ⊤ = ⊤ := rfl
    exact large ▸ le_top
  | coe r =>
    cases q with
    | top => simp at le
    | coe q =>
      exact stored_mono (WithTop.coe_le_coe.mpr
        (rounded_mono (WithTop.coe_nonneg.mp nonneg) (WithTop.coe_le_coe.mp le)))

theorem map_rounded_zero : (0 : WithTop ℚ).map rounded = 0 := congrArg WithTop.some rounded_zero

theorem Denotes.map_rounded {u : UnpackedFloat} (denotes : Denotes u q) : q.map rounded = q := by
  cases denotes with
  | zero => exact map_rounded_zero
  | finite canonical => exact congrArg WithTop.some (rounded_of_digits canonical.digits canonical.late)
  | infinity => rfl

theorem Denotes.unique {u : UnpackedFloat} (first : Denotes u q) (second : Denotes u r) : q = r := by
  cases first <;> cases second <;> rfl

/-- Sizes other than zero have one representation. -/
theorem Denotes.injective {u v : UnpackedFloat} (first : Denotes u q) (second : Denotes v q)
    (positive : 0 < q) : u = v := by
  have order := first.compare_eq second
  rw [compare_eq_iff_eq.mpr rfl] at order
  generalize same : q = r at second
  cases first with
  | zero => exact absurd positive (lt_irrefl 0)
  | infinity =>
    cases second with
    | infinity => rfl
    | zero | finite => cases order
  | @finite mantissa exponent canonical filled =>
    cases second with
    | zero | infinity => cases order
    | @finite other level full filled' =>
      obtain ⟨exponents, mantissas⟩ := Ordering.then_eq_eq.mp (Option.some.inj order)
      exact finite_congr (compare_eq_iff_eq.mp mantissas) (compare_eq_iff_eq.mp exponents)

theorem Amounts.eq (first : Amounts x q) (second : Amounts y q) (positive : 0 < q) : x = y := by
  have same : parts x = parts y := Denotes.injective first second positive
  have packed := congrArg (pack .binary64) same
  rw [parts, parts, Float.Model.unpack, Float.Model.unpack, pack_unpack_of_valid x.toModel.valid,
    pack_unpack_of_valid y.toModel.valid] at packed
  obtain ⟨bits, valid⟩ := x
  obtain ⟨other, valid'⟩ := y
  obtain rfl : bits = other := UInt64.eq_of_toBitVec_eq packed
  rfl

theorem Amounts.stored_eq (amounts : Amounts x q) : stored q = q := by
  have packed := Denotes.stored amounts
  rw [parts, Float.Model.unpack, pack_unpack_of_valid x.toModel.valid] at packed
  exact packed.unique amounts

theorem Amounts.lt_limit {a : ℚ} (amounts : Amounts x a) : a < limit := by
  have kept := amounts.stored_eq
  unfold stored at kept
  split at kept
  · rename_i small
    exact WithTop.coe_lt_coe.mp small
  · cases kept

theorem Amounts.fit_eq (amounts : Amounts x q) : fit q = q := by
  rw [fit, Denotes.map_rounded amounts, amounts.stored_eq]

theorem fit_zero : fit 0 = 0 := amounts_zero.fit_eq

theorem fit_power {e : ℤ} (late : -1074 ≤ e) (small : e < 1024) : fit (power e) = power e := by
  have same : rounded (2 ^ e) = 2 ^ e := by
    have digits := rounded_of_digits (by norm_num : 1 < 2 ^ 53) late
    rwa [Nat.cast_one, one_mul] at digits
  rw [fit, power, WithTop.map_coe, same, stored, if_pos]
  exact WithTop.coe_lt_coe.mpr (zpow_lt_zpow_right₀ one_lt_two small)

theorem fit_pos (large : power (-1074) ≤ q) : 0 < fit q :=
  calc 0 < power (-1074) := power_pos _
    _ = fit (power (-1074)) := (fit_power le_rfl (by norm_num)).symm
    _ ≤ fit q := fit_mono (power_pos _).le large

theorem early_mul (canonical : Canonical mantissa exponent) (positive : 0 < mantissa)
    (full : Canonical other level) (filled : 0 < other) :
    exponent + level ≤
      Format.binary64.targetExponent (totalExponent (mantissa * other) (exponent + level)) := by
  rw [targetExponent_totalExponent]
  have product : mantissa * other ≠ 0 := (Nat.mul_pos positive filled).ne'
  have late := canonical.late
  have late' := full.late
  -- Unless both are subnormal, one factor has 53 digits, and so has the product.
  rcases late.eq_or_lt with latest | normal
  · rcases late'.eq_or_lt with latest' | normal'
    · omega
    · have long : 52 ≤ (mantissa * other).log2 :=
        (Nat.le_log2 product).mpr ((full.full filled normal').trans (Nat.le_mul_of_pos_left other positive))
      omega
  · have long : 52 ≤ (mantissa * other).log2 :=
      (Nat.le_log2 product).mpr
        ((canonical.full positive normal).trans (Nat.le_mul_of_pos_right mantissa filled))
    omega

theorem represents_exactly {a : ℚ} (size : (mantissa : ℚ) * 2 ^ exponent = a) :
    Represents (.ofMantissaAndAccuracy mantissa .exact) (a / 2 ^ exponent) := by
  rw [← size, mul_div_cancel_right₀ _ (two_zpow_pos exponent).ne']
  exact represents_exact mantissa

theorem denotes_mul {u v : UnpackedFloat} (first : Denotes u q) (second : Denotes v r)
    (vanishing : q = 0 → r ≠ ⊤) (vanishing' : r = 0 → q ≠ ⊤) :
    Denotes (UnpackedFloat.mul .binary64 u v) ((q * r).map rounded) := by
  cases first with
  | zero sign =>
    rw [zero_mul, map_rounded_zero]
    cases second with
    | zero => exact .zero _
    | finite => exact .zero _
    | infinity => exact absurd rfl (vanishing rfl)
  | @finite mantissa exponent canonical positive =>
    have nonzero := (WithTop.coe_pos.mpr (size_pos positive exponent)).ne'
    cases second with
    | zero =>
      rw [mul_zero, map_rounded_zero]
      exact .zero _
    | @finite other level full filled =>
      rw [← WithTop.coe_mul]
      refine denotes_roundWithAccuracy (mul_pos (size_pos positive exponent) (size_pos filled level))
        (represents_exactly ?_) (early_mul canonical positive full filled)
      rw [zpow_add₀ two_ne_zero]
      push_cast
      ring
    | infinity =>
      rw [WithTop.mul_top nonzero]
      exact .infinity
  | infinity =>
    cases second with
    | zero => exact absurd rfl (vanishing' rfl)
    | @finite other level full filled =>
      rw [WithTop.top_mul (WithTop.coe_pos.mpr (size_pos filled level)).ne']
      exact .infinity
    | infinity => exact .infinity

theorem Amounts.mul (first : Amounts x q) (second : Amounts y r) (vanishing : q = 0 → r ≠ ⊤)
    (vanishing' : r = 0 → q ≠ ⊤) : Amounts (x * y) (fit (q * r)) :=
  (denotes_mul first second vanishing vanishing').stored

theorem mul_size_pos (first : 0 < q) (second : 0 < r) : 0 < q * r := by
  cases q with
  | top =>
    rw [WithTop.top_mul second.ne']
    exact first
  | coe q =>
    cases r with
    | top =>
      rw [WithTop.mul_top first.ne']
      exact second
    | coe r => exact_mod_cast mul_pos (WithTop.coe_pos.mp first) (WithTop.coe_pos.mp second)

theorem mul_size_nonneg (first : 0 ≤ q) (second : 0 ≤ r) : 0 ≤ q * r := by
  rcases first.eq_or_lt with rfl | first
  · rw [zero_mul]
  · rcases second.eq_or_lt with rfl | second
    · rw [mul_zero]
    · exact (mul_size_pos first second).le

/-- Products of sizes keep the order. Zero times infinity is zero here. -/
theorem mul_le_mul_size {p : WithTop ℚ} (nonneg : 0 ≤ p) (some : 0 ≤ q) (le : q ≤ r) : p * q ≤ p * r := by
  rcases nonneg.eq_or_lt with rfl | positive
  · rw [zero_mul, zero_mul]
  cases r with
  | top =>
    rw [WithTop.mul_top positive.ne']
    exact le_top
  | coe r =>
    obtain ⟨q, rfl⟩ := WithTop.ne_top_iff_exists.mp (ne_top_of_le_ne_top WithTop.coe_ne_top le)
    have ordered := WithTop.coe_le_coe.mp le
    cases p with
    | top =>
      rcases some.eq_or_lt with none | some
      · rw [← none, mul_zero]
        exact mul_size_nonneg le_top (none.le.trans le)
      · rw [WithTop.top_mul some.ne', WithTop.top_mul (some.trans_le le).ne']
    | coe p =>
      have product := mul_le_mul_of_nonneg_left ordered (WithTop.coe_nonneg.mp nonneg)
      exact_mod_cast product

theorem Denotes.finite_cases {u : UnpackedFloat} {a : ℚ} (denotes : Denotes u a) :
    (∃ sign, u = .zero sign ∧ a = 0) ∨ ∃ mantissa exponent, ∃ positive : 0 < mantissa,
      u = .finite .positive mantissa exponent positive ∧ Canonical mantissa exponent ∧
        mantissa * 2 ^ exponent = a := by
  generalize size : (a : WithTop ℚ) = q at denotes
  cases denotes with
  | zero sign => exact .inl ⟨sign, rfl, WithTop.coe_eq_zero.mp size⟩
  | finite canonical positive => exact .inr ⟨_, _, positive, rfl, canonical, (WithTop.coe_inj.mp size).symm⟩
  | infinity => cases size

/-- The quotient has 53 digits before its last place, unless that is late enough. -/
theorem early_div {shift : ℕ} {last : ℤ} (positive : 0 < mantissa) (filled : 0 < other)
    (early : last ≤ Format.binary64.targetExponent
      (totalExponent mantissa exponent - totalExponent other level))
    (shifted : (shift : ℤ) = exponent - level - last) :
    last ≤ Format.binary64.targetExponent (totalExponent (mantissa <<< shift / other) last) := by
  rw [targetExponent_totalExponent]
  rw [targetExponent_eq, totalExponent, totalExponent] at early
  by_cases late : last ≤ -1074
  · omega
  have room : other.log2 + 53 ≤ mantissa.log2 + shift := by omega
  have long : 2 ^ 52 ≤ mantissa <<< shift / other := by
    rw [Nat.le_div_iff_mul_le filled, Nat.shiftLeft_eq]
    calc 2 ^ 52 * other ≤ 2 ^ 52 * 2 ^ (other.log2 + 1) := Nat.mul_le_mul_left _ Nat.lt_log2_self.le
      _ = 2 ^ (other.log2 + 53) := by rw [← pow_add]; congr 1; omega
      _ ≤ 2 ^ (mantissa.log2 + shift) := Nat.pow_le_pow_right two_pos room
      _ = 2 ^ mantissa.log2 * 2 ^ shift := pow_add ..
      _ ≤ mantissa * 2 ^ shift := Nat.mul_le_mul_right _ (Nat.log2_self_le positive.ne')
  have digits := (Nat.le_log2 (Nat.two_pow_pos 52 |>.trans_le long).ne').mpr long
  omega

theorem represents_quotient {shift : ℕ} {last : ℤ} (filled : 0 < other)
    (shifted : (shift : ℤ) = exponent - level - last) :
    Represents (.ofMantissaAndAccuracy (mantissa <<< shift / other)
      (accuracyOfFraction (mantissa <<< shift % other) other))
      (mantissa * 2 ^ exponent / (other * 2 ^ level) / 2 ^ last) := by
  have scale : (2 : ℚ) ^ exponent = 2 ^ shift * 2 ^ level * 2 ^ last := by
    rw [← zpow_natCast, ← zpow_add₀ two_ne_zero, ← zpow_add₀ two_ne_zero]
    congr 1
    omega
  have other_ne : (other : ℚ) ≠ 0 := by exact_mod_cast filled.ne'
  have whole : (mantissa * 2 ^ shift : ℚ) =
      other * (mantissa <<< shift / other : ℕ) + (mantissa <<< shift % other : ℕ) := by
    rw [Nat.shiftLeft_eq]
    exact_mod_cast (Nat.div_add_mod _ other).symm
  have quotient : (mantissa * 2 ^ exponent / (other * 2 ^ level) / 2 ^ last : ℚ) =
      (mantissa <<< shift / other : ℕ) + (mantissa <<< shift % other : ℕ) / other := by
    have level_ne := (two_zpow_pos level).ne'
    have last_ne := (two_zpow_pos last).ne'
    rw [scale]
    field_simp
    exact whole
  rw [quotient]
  exact represents_fraction _ (Nat.mod_lt _ filled)

theorem denotes_div {u v : UnpackedFloat} {a b : ℚ} (first : Denotes u a) (second : Denotes v b)
    (positive : 0 < b) : Denotes (UnpackedFloat.div .binary64 u v) (rounded (a / b)) := by
  rcases second.finite_cases with ⟨_, rfl, rfl⟩ | ⟨other, level, filled, rfl, full, rfl⟩
  · exact absurd positive (lt_irrefl 0)
  rcases first.finite_cases with ⟨sign, rfl, rfl⟩ | ⟨mantissa, exponent, some, rfl, canonical, rfl⟩
  · rw [zero_div, rounded_zero]
    exact .zero _
  · unfold UnpackedFloat.div divCore
    dsimp only
    generalize last_eq : min (exponent - level) _ = last
    have low : last ≤ exponent - level := last_eq ▸ min_le_left _ _
    have early := last_eq ▸ min_le_right (exponent - level) (Format.binary64.targetExponent
      (totalExponent mantissa exponent - totalExponent other level))
    have shifted : ((exponent - level - last).toNat : ℤ) = exponent - level - last := by omega
    exact denotes_roundWithAccuracy (div_pos (size_pos some exponent) positive)
      (represents_quotient filled shifted) (early_div some filled early shifted)

theorem Amounts.div {a b : ℚ} (first : Amounts x a) (second : Amounts y b) (positive : 0 < b) :
    Amounts (x / y) (fit (a / b : ℚ)) :=
  (denotes_div first second positive).stored

theorem size_shiftLeft {shift : ℕ} (shifted : level + shift = exponent) :
    ((mantissa <<< shift : ℕ) : ℚ) * 2 ^ level = mantissa * 2 ^ exponent := by
  rw [← shifted, zpow_add₀ two_ne_zero, zpow_natCast, Nat.shiftLeft_eq]
  push_cast
  ring

theorem size_aligned (low : level ≤ exponent) :
    ((mantissa <<< (exponent - level).toNat : ℕ) : ℚ) * 2 ^ level = mantissa * 2 ^ exponent :=
  size_shiftLeft (by omega)

theorem log2_shiftLeft (positive : 0 < mantissa) (shift : ℕ) :
    (mantissa <<< shift).log2 = mantissa.log2 + shift := by
  rw [Nat.shiftLeft_eq, Nat.log2_eq_iff (Nat.mul_pos positive (Nat.two_pow_pos shift)).ne', pow_add,
    add_right_comm, pow_add]
  exact ⟨Nat.mul_le_mul_right _ (Nat.log2_self_le positive.ne'),
    Nat.mul_lt_mul_of_pos_right Nat.lt_log2_self (Nat.two_pow_pos shift)⟩

theorem denotes_round (positive : 0 < mantissa) (exponent : ℤ) :
    Denotes (UnpackedFloat.round .binary64 .positive mantissa exponent)
      (rounded (mantissa * 2 ^ exponent)) := by
  unfold UnpackedFloat.round decreaseExponent
  dsimp only
  generalize place : Format.binary64.targetExponent (totalExponent mantissa exponent) = target
  generalize amount : (exponent - target).toNat = shift
  refine denotes_roundWithAccuracy (size_pos positive exponent)
    (represents_exactly (size_shiftLeft (by omega))) ?_
  rw [targetExponent_totalExponent] at place ⊢
  rw [log2_shiftLeft positive]
  omega

theorem denotes_normalize {total : ℤ} (nonneg : 0 ≤ total) (exponent : ℤ) :
    Denotes (UnpackedFloat.normalize .binary64 total exponent .positive) (rounded (total * 2 ^ exponent)) := by
  unfold UnpackedFloat.normalize
  rcases nonneg.eq_or_lt with rfl | positive
  · rw [Int.cast_zero, zero_mul, rounded_zero]
    exact .zero _
  · obtain ⟨mantissa, rfl⟩ := Int.eq_ofNat_of_zero_le nonneg
    rw [compare_gt_iff_gt.mpr positive]
    exact denotes_round (Int.natCast_pos.mp positive) exponent

theorem denotes_add {u v : UnpackedFloat} (first : Denotes u q) (second : Denotes v r) :
    Denotes (UnpackedFloat.add .binary64 u v) ((q + r).map rounded) := by
  cases first with
  | zero sign =>
    rw [zero_add, second.map_rounded]
    cases second with
    | zero other => cases sign <;> cases other <;> exact .zero _
    | finite full filled => exact .finite full filled
    | infinity => exact .infinity
  | @finite mantissa exponent canonical positive =>
    cases second with
    | zero =>
      rw [add_zero, (Denotes.finite canonical positive).map_rounded]
      exact .finite canonical positive
    | @finite other level full filled =>
      have low : min exponent level ≤ exponent := min_le_left ..
      have low' : min exponent level ≤ level := min_le_right ..
      have sum := denotes_normalize (Int.add_nonneg
        (Int.natCast_nonneg (mantissa <<< (exponent - min exponent level).toNat))
        (Int.natCast_nonneg (other <<< (level - min exponent level).toNat))) (min exponent level)
      rw [Int.cast_add, add_mul, Int.cast_natCast, Int.cast_natCast,
        size_aligned low, size_aligned low'] at sum
      exact sum
    | infinity => exact .infinity
  | infinity =>
    cases second with
    | zero => exact .infinity
    | finite => exact .infinity
    | infinity => exact .infinity

theorem Amounts.add (first : Amounts x q) (second : Amounts y r) : Amounts (x + y) (fit (q + r)) :=
  (denotes_add first second).stored

theorem denotes_sub {u v : UnpackedFloat} {a b : ℚ} (first : Denotes u a) (second : Denotes v b)
    (le : b ≤ a) : Denotes (UnpackedFloat.sub .binary64 u v) (rounded (a - b)) := by
  rcases first.finite_cases with ⟨sign, rfl, rfl⟩ | ⟨mantissa, exponent, positive, rfl, canonical, rfl⟩
  · rcases second.finite_cases with ⟨other, rfl, rfl⟩ | ⟨other, level, filled, rfl, full, rfl⟩
    · rw [sub_zero, rounded_zero]
      cases sign <;> cases other <;> exact .zero _
    · exact absurd (size_pos filled level) le.not_gt
  · rcases second.finite_cases with ⟨other, rfl, rfl⟩ | ⟨other, level, filled, rfl, full, rfl⟩
    · rw [sub_zero, rounded_of_digits canonical.digits canonical.late]
      exact .finite canonical positive
    · have low : min exponent level ≤ exponent := min_le_left ..
      have low' : min exponent level ≤ level := min_le_right ..
      have order : (mantissa <<< (exponent - min exponent level).toNat : ℕ) -
          (other <<< (level - min exponent level).toNat : ℕ) ≥ (0 : ℤ) := by
        rw [← size_aligned low, ← size_aligned low'] at le
        have := le_of_mul_le_mul_right le (two_zpow_pos _)
        exact Int.sub_nonneg_of_le (by exact_mod_cast this)
      have difference := denotes_normalize order (min exponent level)
      rw [Int.cast_sub, sub_mul, Int.cast_natCast, Int.cast_natCast, size_aligned low,
        size_aligned low'] at difference
      exact difference

theorem Amounts.sub {a b : ℚ} (first : Amounts x a) (second : Amounts y b) (le : b ≤ a) :
    Amounts (x - y) (fit (a - b : ℚ)) :=
  (denotes_sub first second le).stored

theorem amounts_top_sub {b : ℚ} (first : Amounts x ⊤) (second : Amounts y b) : Amounts (x - y) ⊤ := by
  have difference : Denotes (UnpackedFloat.sub .binary64 (parts x) (parts y)) ⊤ := by
    unfold Amounts at first second
    generalize parts x = u at first ⊢
    cases first
    rcases second.finite_cases with ⟨sign, same, -⟩ | ⟨mantissa, exponent, positive, same, -, -⟩ <;>
      rw [same] <;> exact .infinity
  exact difference.stored

/-- A span is finite as soon as its high end is. -/
theorem isFinite_span_iff (low : Amounts x q) (high : Amounts y r) (below : q < r) :
    (y - x).isFinite = true ↔ y.isFinite = true := by
  obtain ⟨a, rfl⟩ := WithTop.ne_top_iff_exists.mp below.ne_top
  rw [high.isFinite_iff]
  cases r with
  | top => rw [(amounts_top_sub high low).isFinite_iff]
  | coe b =>
    have ordered := WithTop.coe_lt_coe.mp below
    have low_nonneg := WithTop.coe_nonneg.mp (Denotes.nonneg low)
    have bounded : fit (b - a : ℚ) ≤ b :=
      calc fit (b - a : ℚ) ≤ fit b := fit_mono (WithTop.coe_nonneg.mpr (sub_nonneg.mpr ordered.le))
            (WithTop.coe_le_coe.mpr (sub_le_self b low_nonneg))
        _ = b := high.fit_eq
    rw [(high.sub low ordered.le).isFinite_iff]
    exact iff_of_true (bounded.trans_lt (WithTop.coe_lt_top b)).ne (WithTop.coe_lt_top b).ne

end Overhear.Floating
