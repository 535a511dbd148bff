import Mathlib

/-! Floating-point numbers by their parts: which of them have a sign, and how they compare. What has no
sign is not a number. -/
namespace Overhear.Floating

open Float.Model (Format UnpackedFloat)
open Float.Model.UnpackedFloat

/-- The sign of a number; what is not a number has none. -/
def signOf? : UnpackedFloat → Option Sign
  | .notANumber => none
  | .infinity sign | .zero sign | .finite sign .. => some sign

def parts (x : Float) : UnpackedFloat := x.toModel.unpack

def sign? (x : Float) : Option Sign := signOf? (parts x)

variable {spec : Format} {x y : Float} {u v : UnpackedFloat}

theorem signOf?_eq_none_iff : signOf? u = none ↔ u.isNaN = true := by
  cases u <;> simp [signOf?, UnpackedFloat.isNaN]

theorem sign?_eq_none_iff : sign? x = none ↔ x.isNaN = true := signOf?_eq_none_iff

theorem signOf?_unpack {sign : Sign} {exponent : BitVec spec.exponentBits}
    {mantissa : BitVec spec.mantissaBitsWithoutImplicit} (number : exponent ≠ -1#_ ∨ mantissa = 0#_) :
    signOf? (unpack spec (packComponents spec sign exponent mantissa)) = some sign := by
  unfold unpack
  simp only [unpackExponent_packComponents, unpackMantissa_packComponents, unpackSign_packComponents,
    Sign.ofBitVec_toBitVec]
  split
  · rename_i ones
    rw [if_pos (number.resolve_left (not_not_intro ones))]
    rfl
  · split
    · split <;> rfl
    · rfl

theorem signOf?_pack (u : UnpackedFloat) : signOf? (unpack spec (pack spec u)) = signOf? u := by
  cases u with
  | notANumber => simp [pack]
  | infinity sign => exact signOf?_unpack (.inr rfl)
  | zero sign => exact signOf?_unpack (.inr rfl)
  | finite sign mantissa exponent positive =>
    unfold pack
    dsimp only
    split
    · exact signOf?_unpack (.inr rfl)
    · rename_i below
      split
      · refine signOf?_unpack (.inl fun ones => ?_)
        have size := congrArg BitVec.toNat ones
        simp only [BitVec.toNat_ofNat, BitVec.neg_one_eq_allOnes, BitVec.toNat_allOnes] at size
        rw [Nat.mod_eq_of_lt (by omega)] at size
        omega
      · refine signOf?_unpack (.inl fun ones => ?_)
        simp [Nat.ne_of_gt spec.he] at ones

theorem signOf?_roundWithAccuracy (sign : Sign) (mantissa : Nat) (exponent : Int) (accuracy : Accuracy) :
    signOf? (roundWithAccuracy spec sign mantissa exponent accuracy) = some sign := by
  unfold roundWithAccuracy
  dsimp only
  split <;> rfl

theorem signOf?_normalize {mantissa : Int} (exponent : Int) (sign : Sign) (positive : 0 < mantissa) :
    signOf? (UnpackedFloat.normalize spec mantissa exponent sign) = some .positive := by
  unfold UnpackedFloat.normalize
  rw [Int.compare_eq_gt.mpr positive]
  exact signOf?_roundWithAccuracy ..

theorem signed_normalize (mantissa exponent : Int) (sign : Sign) :
    (signOf? (UnpackedFloat.normalize spec mantissa exponent sign)).isSome = true := by
  unfold UnpackedFloat.normalize
  split
  · exact congrArg Option.isSome (signOf?_roundWithAccuracy ..)
  · rfl
  · exact congrArg Option.isSome (signOf?_roundWithAccuracy ..)

theorem signed_sub (finite : u.isFinite = true) (other : v.isFinite = true) :
    (signOf? (UnpackedFloat.sub spec u v)).isSome = true := by
  cases u with
  | notANumber | infinity => cases finite
  | zero sign =>
    cases v with
    | notANumber | infinity => cases other
    | zero second => cases sign <;> cases second <;> rfl
    | finite => rfl
  | finite sign mantissa exponent positive =>
    cases v with
    | notANumber | infinity => cases other
    | zero => rfl
    | finite => exact signed_normalize ..

theorem signOf?_mul_self (signed : (signOf? u).isSome = true) :
    signOf? (UnpackedFloat.mul spec u u) = some .positive := by
  have square (sign : Sign) : sign * sign = .positive := by cases sign <;> rfl
  cases u with
  | notANumber => cases signed
  | infinity sign => exact congrArg some (square sign)
  | zero sign => exact congrArg some (square sign)
  | finite sign mantissa exponent positive =>
    exact (signOf?_roundWithAccuracy ..).trans (congrArg some (square sign))

theorem signOf?_add (first : signOf? u = some .positive) (second : signOf? v = some .positive) :
    signOf? (UnpackedFloat.add spec u v) = some .positive := by
  cases u with
  | notANumber => cases first
  | infinity sign =>
    obtain rfl := Option.some.inj first
    cases v with
    | notANumber => cases second
    | infinity sign =>
      obtain rfl := Option.some.inj second
      rfl
    | zero => rfl
    | finite => rfl
  | zero sign =>
    obtain rfl := Option.some.inj first
    cases v with
    | notANumber => cases second
    | infinity => exact second
    | zero sign =>
      obtain rfl := Option.some.inj second
      rfl
    | finite => exact second
  | finite sign mantissa exponent positive =>
    obtain rfl := Option.some.inj first
    cases v with
    | notANumber => cases second
    | infinity => exact second
    | zero => rfl
    | finite sign other _ positive =>
      obtain rfl := Option.some.inj second
      refine signOf?_normalize _ _ ?_
      simp only [Sign.apply, Nat.shiftLeft_eq]
      positivity

theorem signOf?_sqrt (positive : signOf? u = some .positive) :
    signOf? (UnpackedFloat.sqrt spec u) = some .positive := by
  cases u with
  | notANumber => cases positive
  | infinity sign =>
    obtain rfl := Option.some.inj positive
    rfl
  | zero => exact positive
  | finite sign mantissa exponent _ =>
    obtain rfl := Option.some.inj positive
    exact signOf?_roundWithAccuracy ..

theorem signOf?_mul_finite {mantissa other : Nat} {exponent level : Int} {positive : 0 < mantissa}
    {filled : 0 < other} :
    signOf? (UnpackedFloat.mul spec (.finite .positive mantissa exponent positive)
      (.finite .positive other level filled)) = some .positive :=
  signOf?_roundWithAccuracy ..

theorem signOf?_div_finite {mantissa other : Nat} {exponent level : Int} {positive : 0 < mantissa}
    {filled : 0 < other} :
    signOf? (UnpackedFloat.div spec (.finite .positive mantissa exponent positive)
      (.finite .positive other level filled)) = some .positive :=
  signOf?_roundWithAccuracy ..

theorem signOf?_ofScientific (count : Nat) (exponent : Int) :
    signOf? (UnpackedFloat.ofScientific spec count exponent) = some .positive := by
  unfold UnpackedFloat.ofScientific
  split
  · rfl
  split
  · rfl
  split
  · rfl
  split
  · exact signOf?_mul_finite
  · exact signOf?_div_finite

theorem compare_eq_none_iff : u.compare v = none ↔ signOf? u = none ∨ signOf? v = none := by
  rcases u with (_ | _) | _ | (_ | _) | ⟨_ | _, m, e, _⟩ <;>
    rcases v with (_ | _) | _ | (_ | _) | ⟨_ | _, m', e', _⟩ <;> simp [UnpackedFloat.compare, signOf?]

theorem compare_swap (u v : UnpackedFloat) : v.compare u = (u.compare v).map Ordering.swap := by
  rcases u with (_ | _) | _ | (_ | _) | ⟨_ | _, m, e, _⟩ <;>
    rcases v with (_ | _) | _ | (_ | _) | ⟨_ | _, m', e', _⟩ <;> try rfl
  all_goals
    have exponents : compare e' e = (compare e e').swap := Std.OrientedCmp.eq_swap
    have mantissas : compare m' m = (compare m m').swap := Std.OrientedCmp.eq_swap
    simp only [UnpackedFloat.compare, Option.map_some, Ordering.swap_then, Ordering.swap_swap, exponents,
      mantissas]

theorem lt_iff : x < y ↔ (parts x).compare (parts y) = some .lt := by
  change decide ((parts x).lt (parts y) = true) = true ↔ _
  rw [decide_eq_true_iff, UnpackedFloat.lt, beq_iff_eq]

theorem le_iff : x ≤ y ↔ (parts x).compare (parts y) = some .lt ∨ (parts x).compare (parts y) = some .eq := by
  change decide ((parts x).le (parts y) = true) = true ↔ _
  rw [decide_eq_true_iff, UnpackedFloat.le]
  cases (parts x).compare (parts y) with
  | none => simp
  | some order => cases order <;> simp

theorem not_le_iff : ¬ y ≤ x ↔ x < y ∨ x.isNaN = true ∨ y.isNaN = true := by
  rw [le_iff, lt_iff, compare_swap (parts x) (parts y), ← sign?_eq_none_iff, ← sign?_eq_none_iff, sign?, sign?,
    ← compare_eq_none_iff]
  cases (parts x).compare (parts y) with
  | none => simp
  | some order => cases order <;> simp

theorem isNaN_left_of_le (le : x ≤ y) : x.isNaN = false := by
  rw [Bool.eq_false_iff, ne_eq, ← sign?_eq_none_iff]
  intro none
  have incomparable := compare_eq_none_iff.mpr (.inl none : _ ∨ signOf? (parts y) = _)
  simp [le_iff, incomparable] at le

theorem signed_sub_of_finite (finite : x.isFinite = true) (other : y.isFinite = true) :
    (sign? (x - y)).isSome = true :=
  (congrArg Option.isSome (signOf?_pack _)).trans (signed_sub finite other)

theorem sign?_mul_self (signed : (sign? x).isSome = true) : sign? (x * x) = some .positive :=
  (signOf?_pack _).trans (signOf?_mul_self signed)

theorem sign?_add (first : sign? x = some .positive) (second : sign? y = some .positive) :
    sign? (x + y) = some .positive :=
  (signOf?_pack _).trans (signOf?_add first second)

theorem sign?_sqrt (positive : sign? x = some .positive) : sign? x.sqrt = some .positive :=
  (signOf?_pack _).trans (signOf?_sqrt positive)

theorem sign?_ofScientific (count : Nat) (exponent : Int) :
    sign? (.ofModel (.ofScientific count exponent)) = some .positive :=
  (signOf?_pack _).trans (signOf?_ofScientific ..)

end Overhear.Floating
