/-! Numbers in hexadecimal text, with a least number of digits, and bytes read back from it. -/
namespace Overhear.Text

def hexValue? (c : Char) : Option Nat :=
  if '0' ≤ c ∧ c ≤ '9' then some (c.toNat - '0'.toNat)
  else if 'a' ≤ c ∧ c ≤ 'f' then some (c.toNat - 'a'.toNat + 10)
  else if 'A' ≤ c ∧ c ≤ 'F' then some (c.toNat - 'A'.toNat + 10)
  else none

def lowerHexDigit (value : Nat) : Char := Nat.digitChar value

def upperHexDigit (value : Nat) : Char := (Nat.digitChar value).toUpper

/-- The last `width` hexadecimal digits of a number, most significant first. -/
def hexDigits (digit : Nat → Char) : Nat → Nat → List Char
  | 0, _ => []
  | width + 1, value => hexDigits digit width (value / 16) ++ [digit (value % 16)]

def lowerHex (width value : Nat) : String := String.ofList (hexDigits lowerHexDigit width value)

def upperHex (width value : Nat) : String := String.ofList (hexDigits upperHexDigit width value)

def hexOfBytes (bytes : List UInt8) : String :=
  String.ofList (bytes.flatMap fun byte => hexDigits lowerHexDigit 2 byte.toNat)

def bytesOfHex? : List Char → Option (List UInt8)
  | [] => some []
  | high :: low :: rest => do
      let high ← hexValue? high
      let low ← hexValue? low
      let bytes ← bytesOfHex? rest
      return UInt8.ofNat (16 * high + low) :: bytes
  | [_] => none

end Overhear.Text
