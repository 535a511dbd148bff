import Overhear.Text.Digits

/-! Version components of a strategy's instance name: a marker, then the bytes of the number in
percent form, most significant first. -/
namespace Overhear.Version

/-- The byte that two characters stand for: two hexadecimal digits, or a plus sign and one. -/
def octet? (first second : Char) : Option Nat := do
  let low ← Text.hexValue? second
  if first = '+' then return low
  let high ← Text.hexValue? first
  return 16 * high + low

def appendGroups (value : UInt64) : List Char → Option UInt64
  | [] => some value
  | '%' :: first :: second :: rest => do
      let octet ← octet? first second
      appendGroups ((value <<< 8) ||| UInt64.ofNat octet) rest
  | _ => none

/-- The number of a version component: at most eight groups after the marker. -/
def decode (component : String) : Option UInt64 :=
  match component.toList with
  | '%' :: 'F' :: 'D' :: groups => if groups.length ≤ 24 then appendGroups 0 groups else none
  | _ => none

def encodeByte (version : UInt8) : String := "%FD%" ++ Text.upperHex 2 version.toNat

end Overhear.Version
