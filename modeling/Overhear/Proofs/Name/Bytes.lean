import Mathlib.Tactic.SplitIfs
import Overhear.Name

/-! The order of names is that of their bytes. A component is a text, and the encoding of texts puts a larger
code point after a smaller one already where their bytes first differ. -/
namespace Overhear

namespace Text

/-- The bytes that a text is kept as. -/
def bytes (text : String) : List UInt8 := text.toUTF8.data.toList

theorem bytes_eq_flatMap (text : String) : bytes text = text.toList.flatMap String.utf8EncodeChar := by
  rw [bytes, String.toUTF8_eq_toByteArray, ← String.utf8Encode_toList, List.utf8Encode,
    List.toList_data_toByteArray]

/-- The bytes of two characters differ before either of them ends, and there the smaller one is less. -/
theorem encode_lt {first second : Char} (less : first < second) (rest others : List UInt8) :
    String.utf8EncodeChar first ++ rest < String.utf8EncodeChar second ++ others := by
  have less : first.val.toNat < second.val.toNat := less
  have bound : second.val.toNat < 0x110000 := by
    rcases second.valid with low | high <;> omega
  unfold String.utf8EncodeChar
  dsimp only
  generalize first.val.toNat = code at less ⊢
  generalize second.val.toNat = larger at less bound ⊢
  -- One case for each pair of lengths; the first byte alone tells different lengths apart.
  split_ifs <;> simp only [List.cons_append, List.nil_append, List.cons_lt_cons_iff,
    UInt8.lt_iff_toNat_lt, ← UInt8.toNat_inj, UInt8.toNat_ofNat']
  all_goals simp (disch := omega) only [Nat.mod_eq_of_lt]
  all_goals omega

theorem flatMap_encode_lt {first second : List Char} (less : first < second) :
    first.flatMap String.utf8EncodeChar < second.flatMap String.utf8EncodeChar := by
  induction less with
  | @nil head tail =>
    obtain ⟨byte, rest, encoded⟩ := List.exists_cons_of_ne_nil (@String.utf8EncodeChar_ne_nil head)
    rw [List.flatMap_nil, List.flatMap_cons, encoded]
    exact List.nil_lt_cons _ _
  | rel smaller =>
    rw [List.flatMap_cons, List.flatMap_cons]
    exact encode_lt smaller _ _
  | cons _ ih =>
    rw [List.flatMap_cons, List.flatMap_cons]
    exact List.append_left_lt ih

theorem bytes_lt_bytes_iff {first second : String} : bytes first < bytes second ↔ first < second := by
  have increasing : ∀ {first second : String}, first < second → bytes first < bytes second := by
    intro first second less
    rw [bytes_eq_flatMap, bytes_eq_flatMap]
    exact flatMap_encode_lt less
  refine ⟨fun less => ?_, increasing⟩
  rcases Std.lt_trichotomy first second with before | same | after
  · exact before
  · exact absurd (same ▸ less) (List.lt_irrefl _)
  · exact absurd (increasing after) (List.lt_asymm less)

theorem bytes_injective {first second : String} (same : bytes first = bytes second) : first = second :=
  String.toByteArray_inj.mp (ByteArray.ext (Array.toList_inj.mp same))

end Text

namespace Name

/-- The bytes of each component. -/
def bytes (name : Name) : List (List UInt8) := name.components.map Text.bytes

private theorem compare_components (first second : List String) :
    compare first second = .lt ↔ first.map Text.bytes < second.map Text.bytes := by
  induction first generalizing second with
  | nil => cases second <;> simp
  | cons head tail ih =>
    cases second with
    | nil => simp
    | cons other others =>
      have heads : compare head other = .lt ↔ head < other := compareOfLessAndEq_eq_lt
      have same : compare head other = .eq ↔ Text.bytes head = Text.bytes other :=
        ⟨fun equal => congrArg _ (Std.LawfulEqOrd.eq_of_compare equal),
          fun equal => Text.bytes_injective equal ▸ Std.ReflOrd.compare_self⟩
      rw [List.compare_cons_cons, Ordering.then_eq_lt, List.map_cons, List.map_cons,
        List.cons_lt_cons_iff, Text.bytes_lt_bytes_iff, heads, same, ih]

/-- Names are ordered component by component, and components by their bytes. -/
theorem compare_eq_lt_iff {first second : Name} : compare first second = .lt ↔ first.bytes < second.bytes :=
  compare_components first.components second.components

end Name

end Overhear
