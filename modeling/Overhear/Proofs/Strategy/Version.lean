import Mathlib.Algebra.Group.Nat.Defs
import Mathlib.Tactic.SplitIfs
import Overhear.Strategy.Version

/-! What version components decode to. A component is a marker with up to eight groups after it, and its number
is that of their bytes. A group may have a plus sign for its first digit; all else is the percent form. -/
namespace Overhear

namespace Text

/-- A character that writes a hexadecimal digit, in lower or in upper case. -/
def WritesDigit (c : Char) (value : Nat) : Prop :=
  value < 16 ∧ (c = lowerHexDigit value ∨ c = upperHexDigit value)

theorem hexValue?_of_writesDigit {c : Char} {value : Nat} (writes : WritesDigit c value) :
    hexValue? c = some value := by
  have table : ∀ value < 16, hexValue? (lowerHexDigit value) = some value ∧
      hexValue? (upperHexDigit value) = some value := by decide
  obtain ⟨small, rfl | rfl⟩ := writes
  · exact (table value small).1
  · exact (table value small).2

theorem toNat_lt_of_hexValue? {c : Char} {value : Nat} (read : hexValue? c = some value) :
    c.toNat < 128 := by
  have below : ∀ bound : Char, c ≤ bound → c.toNat ≤ bound.toNat := fun _ least => least
  unfold hexValue? at read
  split_ifs at read with decimal lower upper
  · exact Nat.lt_of_le_of_lt (below _ decimal.2) (by decide)
  · exact Nat.lt_of_le_of_lt (below _ lower.2) (by decide)
  · exact Nat.lt_of_le_of_lt (below _ upper.2) (by decide)

theorem writesDigit_of_hexValue? {c : Char} {value : Nat} (read : hexValue? c = some value) :
    WritesDigit c value := by
  have table : ∀ code < 128, ∀ value ∈ hexValue? (Char.ofNat code), value < 16 ∧
      (Char.ofNat code = lowerHexDigit value ∨ Char.ofNat code = upperHexDigit value) := by decide
  have entry := table c.toNat (toNat_lt_of_hexValue? read) value
  rw [Char.ofNat_toNat] at entry
  exact entry read

theorem hexValue?_eq_some_iff {c : Char} {value : Nat} :
    hexValue? c = some value ↔ WritesDigit c value :=
  ⟨writesDigit_of_hexValue?, hexValue?_of_writesDigit⟩

theorem not_writesDigit_plus (value : Nat) : ¬ WritesDigit '+' value := by
  rw [← hexValue?_eq_some_iff]
  exact nofun

end Text

namespace Version

open Text (WritesDigit)

variable {component : String} {groups : List Char} {octets : List Nat} {number : UInt64}

/-- Two hexadecimal digits for a byte. -/
inductive Pair : Char → Char → Nat → Prop where
  | digits {first second : Char} {high low : Nat} (upper : WritesDigit first high)
      (lower : WritesDigit second low) : Pair first second (16 * high + low)

/-- What counts as a byte: two digits, or a plus sign and one. -/
inductive Octet : Char → Char → Nat → Prop where
  | pair {first second : Char} {octet : Nat} (pair : Pair first second octet) : Octet first second octet
  | signed {second : Char} {low : Nat} (lower : WritesDigit second low) : Octet '+' second low

/-- Groups of a percent sign and two characters, with the byte of each. -/
inductive Spells (reading : Char → Char → Nat → Prop) : List Char → List Nat → Prop where
  | done : Spells reading [] []
  | group {first second : Char} {octet : Nat} {rest : List Char} {others : List Nat}
      (read : reading first second octet) (later : Spells reading rest others) :
      Spells reading ('%' :: first :: second :: rest) (octet :: others)

/-- The number that bytes form, the most significant first. -/
def bigEndian (octets : List Nat) : Nat := octets.foldl (fun value octet => 256 * value + octet) 0

/-- A component that is the marker and up to eight groups, with the number of its bytes. -/
def Writes (reading : Char → Char → Nat → Prop) (component : String) (number : UInt64) : Prop :=
  ∃ groups octets, component = "%FD" ++ String.ofList groups ∧ octets.length ≤ 8 ∧
    Spells reading groups octets ∧ number.toNat = bigEndian octets

theorem octet?_eq_some_iff {first second : Char} {octet : Nat} :
    octet? first second = some octet ↔ Octet first second octet := by
  unfold octet?
  simp only [Option.bind_eq_bind, Option.bind_eq_some_iff, Text.hexValue?_eq_some_iff]
  constructor
  · rintro ⟨low, lower, result⟩
    split at result
    · rename_i sign
      cases result
      exact sign ▸ .signed lower
    · obtain ⟨high, upper, result⟩ := Option.bind_eq_some_iff.mp result
      cases result
      exact .pair (.digits (Text.hexValue?_eq_some_iff.mp upper) lower)
  · rintro (⟨⟨upper, lower⟩⟩ | lower)
    · refine ⟨_, lower, ?_⟩
      rw [if_neg fun sign => Text.not_writesDigit_plus _ (sign ▸ upper), Text.hexValue?_eq_some_iff.mpr upper]
      rfl
    · exact ⟨_, lower, rfl⟩

theorem Octet.lt {first second : Char} {octet : Nat} (read : Octet first second octet) : octet < 256 := by
  rcases read with ⟨⟨upper, lower⟩⟩ | lower
  · have := upper.1
    have := lower.1
    omega
  · exact Nat.lt_trans lower.1 (by decide)

theorem Spells.length {reading : Char → Char → Nat → Prop} (spells : Spells reading groups octets) :
    groups.length = 3 * octets.length := by
  induction spells with
  | done => rfl
  | group _ _ ih =>
    simp only [List.length_cons, ih]
    omega

/-- Groups of another reading, when each of them reads in it as well. -/
theorem Spells.imp {reading other : Char → Char → Nat → Prop} (spells : Spells reading groups octets)
    (reads : ∀ first second octet, first ∈ groups → reading first second octet → other first second octet) :
    Spells other groups octets := by
  induction spells with
  | done => exact .done
  | group read later ih =>
    refine .group (reads _ _ _ (by simp) read) (ih fun first second octet member => ?_)
    exact reads first second octet (by simp [member])

/-- A byte comes below a number, and nothing of the number is lost. -/
theorem toNat_append (value : UInt64) {octet : Nat} (room : value.toNat < 2 ^ 56) (byte : octet < 256) :
    ((value <<< 8) ||| UInt64.ofNat octet).toNat = 256 * value.toNat + octet := by
  have shifted : (value <<< 8).toNat = 2 ^ 8 * value.toNat := by
    rw [UInt64.toNat_shiftLeft, Nat.shiftLeft_eq, Nat.mul_comm]
    exact Nat.mod_eq_of_lt (by change 2 ^ 8 * _ < _; omega)
  have whole : (UInt64.ofNat octet).toNat = octet := UInt64.toNat_ofNat_of_lt' (by change _ < 2 ^ 64; omega)
  rw [UInt64.toNat_or, shifted, whole, ← Nat.two_pow_add_eq_or_of_lt byte]

theorem appendGroups_eq_some_iff {value : UInt64} {places : Nat} (small : value.toNat < 256 ^ places)
    (fits : 3 * places + groups.length ≤ 24) : appendGroups value groups = some number ↔
      ∃ octets, Spells Octet groups octets ∧
        number.toNat = octets.foldl (fun value octet => 256 * value + octet) value.toNat := by
  fun_induction appendGroups value groups generalizing places with
  | case1 value =>
    constructor
    · intro same
      exact ⟨[], .done, congrArg UInt64.toNat (Option.some.inj same).symm⟩
    · rintro ⟨octets, ⟨⟩, same⟩
      exact congrArg some (UInt64.toNat_inj.mp same.symm)
  | case2 value first second rest ih =>
    rw [List.length_cons, List.length_cons, List.length_cons] at fits
    have room : value.toNat < 2 ^ 56 :=
      Nat.lt_of_lt_of_le small (Nat.pow_le_pow_right (n := 256) (by decide) (show places ≤ 7 by omega))
    have step {octet : Nat} (read : Octet first second octet) : ((value <<< 8) ||| UInt64.ofNat octet).toNat =
        256 * value.toNat + octet := toNat_append value room read.lt
    have grown {octet : Nat} (read : Octet first second octet) :
        ((value <<< 8) ||| UInt64.ofNat octet).toNat < 256 ^ (places + 1) := by
      have byte := read.lt
      rw [step read, Nat.pow_succ]
      omega
    rw [Option.bind_eq_bind, Option.bind_eq_some_iff]
    constructor
    · rintro ⟨octet, read, result⟩
      have read := octet?_eq_some_iff.mp read
      obtain ⟨octets, spells, same⟩ := (ih octet (grown read) (by omega)).mp result
      exact ⟨octet :: octets, .group read spells, by rw [same, step read, List.foldl_cons]⟩
    · rintro ⟨octets, spells, same⟩
      cases spells with
      | @group _ _ octet _ others read later =>
        refine ⟨octet, octet?_eq_some_iff.mpr read, (ih octet (grown read) (by omega)).mpr ⟨others, later, ?_⟩⟩
        rw [same, step read, List.foldl_cons]
  | case3 value groups empty other =>
    refine iff_of_false nofun ?_
    rintro ⟨octets, spells, -⟩
    cases spells with
    | done => exact empty rfl
    | group => exact other _ _ _ rfl

theorem decode_eq_some_iff : decode component = some number ↔ Writes Octet component number := by
  have marked (groups : List Char) :
      ("%FD" ++ String.ofList groups).toList = '%' :: 'F' :: 'D' :: groups := by
    simp
  have small : (0 : UInt64).toNat < 256 ^ 0 := by decide
  have read (groups : List Char) (fits : groups.length ≤ 24) : appendGroups 0 groups = some number ↔
      ∃ octets, Spells Octet groups octets ∧ number.toNat = bigEndian octets :=
    appendGroups_eq_some_iff small (by simpa using fits)
  unfold decode
  constructor
  · intro decoded
    split at decoded
    · rename_i groups split
      split at decoded
      · rename_i fits
        obtain ⟨octets, spells, same⟩ := (read groups fits).mp decoded
        refine ⟨groups, octets, String.toList_inj.mp (split.trans (marked groups).symm), ?_, spells, same⟩
        have := spells.length
        omega
      · cases decoded
    · cases decoded
  · rintro ⟨groups, octets, rfl, few, spells, same⟩
    have fits : groups.length ≤ 24 := by
      have := spells.length
      omega
    rw [marked]
    simp only [if_pos fits]
    exact (read groups fits).mpr ⟨octets, spells, same⟩

theorem Writes.imp {reading other : Char → Char → Nat → Prop}
    (reads : ∀ first second octet, reading first second octet → other first second octet)
    (writes : Writes reading component number) : Writes other component number := by
  obtain ⟨groups, octets, split, few, spells, same⟩ := writes
  exact ⟨groups, octets, split, few, spells.imp fun first second octet _ => reads first second octet, same⟩

theorem Pair.unsigned {first second : Char} {octet : Nat} (pair : Pair first second octet) :
    first ≠ '+' ∧ second ≠ '+' := by
  obtain ⟨upper, lower⟩ := pair
  exact ⟨fun sign => Text.not_writesDigit_plus _ (sign ▸ upper),
    fun sign => Text.not_writesDigit_plus _ (sign ▸ lower)⟩

theorem Spells.unsigned (spells : Spells Pair groups octets) : '+' ∉ groups := by
  induction spells with
  | done => exact List.not_mem_nil
  | group read _ ih =>
    obtain ⟨first, second⟩ := read.unsigned
    simp [ih, first.symm, second.symm]

/-- A component that counts is in the percent form exactly when it has no plus sign. -/
theorem Writes.pair_iff (writes : Writes Octet component number) :
    Writes Pair component number ↔ '+' ∉ component.toList := by
  constructor
  · rintro ⟨groups, octets, rfl, -, spells, -⟩
    simpa using spells.unsigned
  · intro unsigned
    obtain ⟨groups, octets, rfl, few, spells, same⟩ := writes
    have unsigned : '+' ∉ groups := by simpa using unsigned
    refine ⟨groups, octets, rfl, few, spells.imp fun first second octet member read => ?_, same⟩
    cases read with
    | pair pair => exact pair
    | signed => exact absurd member unsigned

/-- The last `count` bytes of a number as groups, the most significant first. -/
def groupsOf : Nat → Nat → List Char
  | 0, _ => []
  | count + 1, value =>
      groupsOf count (value / 256) ++ '%' :: Text.hexDigits Text.upperHexDigit 2 (value % 256)

/-- The component of a number, in `count` bytes. -/
def encode (count : Nat) (number : UInt64) : String :=
  "%FD" ++ String.ofList (groupsOf count number.toNat)

theorem Spells.append {reading : Char → Char → Nat → Prop} {more : List Char} {others : List Nat}
    (first : Spells reading groups octets) (second : Spells reading more others) :
    Spells reading (groups ++ more) (octets ++ others) := by
  induction first with
  | done => exact second
  | group read _ ih => exact .group read ih

theorem writesDigit_upper {value : Nat} (small : value < 16) :
    WritesDigit (Text.upperHexDigit value) value := ⟨small, .inr rfl⟩

theorem pair_hexDigits {octet : Nat} (byte : octet < 256) :
    ∃ first second, Text.hexDigits Text.upperHexDigit 2 octet = [first, second] ∧ Pair first second octet := by
  have upper := writesDigit_upper (show octet / 16 % 16 < 16 from Nat.mod_lt _ (by decide))
  have lower := writesDigit_upper (show octet % 16 < 16 from Nat.mod_lt _ (by decide))
  have pair := Pair.digits upper lower
  rw [Nat.mod_eq_of_lt (show octet / 16 < 16 by omega), Nat.div_add_mod] at pair
  exact ⟨_, _, rfl, by rwa [Nat.mod_eq_of_lt (show octet / 16 < 16 by omega)]⟩

theorem spells_groupsOf (count value : Nat) : ∃ octets, octets.length = count ∧
    Spells Pair (groupsOf count value) octets ∧ bigEndian octets = value % 256 ^ count := by
  induction count generalizing value with
  | zero => exact ⟨[], rfl, .done, (Nat.mod_one value).symm⟩
  | succ count ih =>
    obtain ⟨octets, length, spells, same⟩ := ih (value / 256)
    obtain ⟨first, second, digits, pair⟩ := pair_hexDigits (Nat.mod_lt value (show 0 < 256 by decide))
    refine ⟨octets ++ [value % 256], by simp [length], ?_, ?_⟩
    · rw [groupsOf, digits]
      exact spells.append (.group pair .done)
    · rw [bigEndian, List.foldl_append]
      change 256 * bigEndian octets + value % 256 = _
      rw [same, Nat.pow_succ', Nat.mod_mul, Nat.add_comm]

theorem writes_encode {count : Nat} (few : count ≤ 8) (fits : number.toNat < 256 ^ count) :
    Writes Pair (encode count number) number := by
  obtain ⟨octets, length, spells, same⟩ := spells_groupsOf count number.toNat
  refine ⟨_, octets, rfl, length ▸ few, spells, ?_⟩
  rw [same, Nat.mod_eq_of_lt fits]

/-- A component decodes exactly when it is the marker with at most eight groups after it, each a percent sign
with two hexadecimal digits or with a plus sign and one, and then to the number that the groups form; no
byte of it is lost. The components in percent form all decode so, and those among the others that do are
the ones with a plus sign. A number that fits some bytes can be written with as many groups and read back. -/
theorem versions_decode_by_groups (component : String) (number : UInt64) :
    (decode component = some number ↔ Writes Octet component number) ∧
    (Writes Pair component number → decode component = some number) ∧
    (decode component = some number → (Writes Pair component number ↔ '+' ∉ component.toList)) ∧
    ∀ count ≤ 8, number.toNat < 256 ^ count → decode (encode count number) = some number := by
  have plain : ∀ component, Writes Pair component number → decode component = some number :=
    fun component writes => decode_eq_some_iff.mpr (writes.imp fun _ _ _ => .pair)
  exact ⟨decode_eq_some_iff, plain component, fun decoded => (decode_eq_some_iff.mp decoded).pair_iff,
    fun count few fits => plain _ (writes_encode few fits)⟩

/-- The largest number takes all eight groups, and digits may be in either case. -/
theorem versions_decode_by_groups_widest :
    decode (encode 8 0xFFFFFFFFFFFFFFFF) = some 0xFFFFFFFFFFFFFFFF ∧
      Writes Pair "%FD%00%fF" 255 ∧ decode "%FD%00%fF" = some 255 := by
  obtain ⟨-, plain, unsigned, -⟩ := versions_decode_by_groups "%FD%00%fF" 255
  obtain ⟨-, -, -, back⟩ := versions_decode_by_groups "%FD" 0xFFFFFFFFFFFFFFFF
  have writes := (unsigned (by decide)).mpr (by decide)
  exact ⟨back 8 (by decide) (by decide), writes, plain writes⟩

/-- A plus sign passes for a digit, so there are components that decode and are not in percent form. -/
theorem signed_digit_decodes :
    decode "%FD%+3" = some 3 ∧ (¬ ∃ number, Writes Pair "%FD%+3" number) ∧
      ¬ ∀ component number, decode component = some number ↔ Writes Pair component number := by
  have decoded : decode "%FD%+3" = some 3 := by decide
  have signed : ¬ ∃ number, Writes Pair "%FD%+3" number := by
    rintro ⟨number, writes⟩
    exact (writes.imp fun _ _ _ => .pair).pair_iff.mp writes (by decide)
  exact ⟨decoded, signed, fun law => signed ⟨3, (law _ _).mp decoded⟩⟩

end Version

end Overhear
