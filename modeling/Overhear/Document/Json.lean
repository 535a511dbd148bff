import Overhear.Document.Codec
import Overhear.Text.Digits

/-! Documents as JSON text. A whole number that fits 64 bits is read exactly, every other number to
the nearest floating-point number, whose bits are what is written of it. -/
namespace Overhear.Json

abbrev Rest := List Char

def isBlank (c : Char) : Bool := c == ' ' || c == '\t' || c == '\n' || c == '\r'

def skipBlanks (text : Rest) : Rest := text.dropWhile isBlank

def escaped : Char → Char
  | 'n' => '\n'
  | 't' => '\t'
  | 'r' => '\r'
  | 'b' => '\x08'
  | 'f' => '\x0c'
  | c => c

def unit? (digits : List Char) : Option Nat :=
  digits.foldlM (fun value c => do return 16 * value + (← Text.hexValue? c)) 0

/-- The character of a unit, together with the high surrogate that came before it, if one did. -/
def joinUnits (high : Option Nat) (unit : Nat) : Char :=
  match high with
  | some high => Char.ofNat (0x10000 + (high - 0xD800) * 0x400 + (unit - 0xDC00))
  | none => Char.ofNat unit

/-- The text up to the closing quotation mark; `high` is a surrogate that awaits its second half. -/
def quotedRest (high : Option Nat) : Rest → Option (List Char × Rest)
  | '"' :: rest => some ([], rest)
  | '\\' :: 'u' :: a :: b :: c :: d :: rest => do
      let unit ← unit? [a, b, c, d]
      if 0xD800 ≤ unit ∧ unit < 0xDC00 then quotedRest (some unit) rest
      else
        let (chars, rest) ← quotedRest none rest
        return (joinUnits high unit :: chars, rest)
  | '\\' :: c :: rest => do
      let (chars, rest) ← quotedRest none rest
      return (escaped c :: chars, rest)
  | c :: rest => do
      let (chars, rest) ← quotedRest none rest
      return (c :: chars, rest)
  | [] => none

def quoted (text : Rest) : Option (String × Rest) :=
  (quotedRest none text).map fun (chars, rest) => (String.ofList chars, rest)

def digits (text : Rest) : List Char × Rest :=
  (text.takeWhile Char.isDigit, text.dropWhile Char.isDigit)

def natOfDigits (digits : List Char) : Nat :=
  digits.foldl (fun value c => 10 * value + (Text.hexValue? c).getD 0) 0

def fraction : Rest → Option (List Char) × Rest
  | '.' :: rest => let (digits, rest) := digits rest; (some digits, rest)
  | rest => (none, rest)

def exponentValue (rest : Rest) : Int × Rest :=
  match rest with
  | '-' :: rest => let (digits, rest) := digits rest; (-(natOfDigits digits : Int), rest)
  | '+' :: rest => let (digits, rest) := digits rest; (natOfDigits digits, rest)
  | rest => let (digits, rest) := digits rest; (natOfDigits digits, rest)

def exponent : Rest → Option Int × Rest
  | 'e' :: rest => let (value, rest) := exponentValue rest; (some value, rest)
  | 'E' :: rest => let (value, rest) := exponentValue rest; (some value, rest)
  | rest => (none, rest)

def decimal (negative : Bool) (mantissa : Nat) (power : Int) : Document :=
  let size := Float.ofScientific mantissa (power < 0) power.natAbs
  .float (if negative then -size else size).toBits

def unsigned (negative : Bool) (text : Rest) : Option (Document × Rest) :=
  let (whole, rest) := digits text
  let (places, rest) := fraction rest
  let (power, rest) := exponent rest
  if whole.isEmpty then none
  else
    let fits := if negative then natOfDigits whole ≤ Nat.pow 2 63 ∧ natOfDigits whole ≠ 0
      else natOfDigits whole < Nat.pow 2 64
    if places.isNone ∧ power.isNone ∧ fits then
      let size : Int := natOfDigits whole
      some (.int (if negative then -size else size), rest)
    else
      let places := places.getD []
      some (decimal negative (natOfDigits (whole ++ places)) (power.getD 0 - places.length), rest)

def number : Rest → Option (Document × Rest)
  | '-' :: rest => unsigned true rest
  | rest => unsigned false rest

mutual

/-- Read one value. Every second step of `fuel` takes a character off the text. -/
def value : Nat → Rest → Option (Document × Rest)
  | 0, _ => none
  | fuel + 1, text =>
      match skipBlanks text with
      | '\x7b' :: rest =>
          match skipBlanks rest with
          | '\x7d' :: rest => some (.record [], rest)
          | rest => (members fuel rest).map fun (fields, rest) => (.record fields, rest)
      | '[' :: rest =>
          match skipBlanks rest with
          | ']' :: rest => some (.list [], rest)
          | rest => (items fuel rest).map fun (items, rest) => (.list items, rest)
      | '"' :: rest => (quoted rest).map fun (text, rest) => (.text text, rest)
      | 't' :: 'r' :: 'u' :: 'e' :: rest => some (.bool true, rest)
      | 'f' :: 'a' :: 'l' :: 's' :: 'e' :: rest => some (.bool false, rest)
      | 'n' :: 'u' :: 'l' :: 'l' :: rest => some (.null, rest)
      | rest => number rest

def items : Nat → Rest → Option (List Document × Rest)
  | 0, _ => none
  | fuel + 1, text => do
      let (first, rest) ← value fuel text
      match skipBlanks rest with
      | ',' :: rest =>
          let (others, rest) ← items fuel rest
          return (first :: others, rest)
      | ']' :: rest => return ([first], rest)
      | _ => none

def members : Nat → Rest → Option (List (String × Document) × Rest)
  | 0, _ => none
  | fuel + 1, text =>
      match skipBlanks text with
      | '"' :: rest => do
          let (key, rest) ← quoted rest
          match skipBlanks rest with
          | ':' :: rest =>
              let (first, rest) ← value fuel rest
              match skipBlanks rest with
              | ',' :: rest =>
                  let (others, rest) ← members fuel rest
                  return ((key, first) :: others, rest)
              | '\x7d' :: rest => return ([(key, first)], rest)
              | _ => none
          | _ => none
      | _ => none

end

/-- Read a text that is one document with nothing but blanks around it. -/
def parse? (text : String) : Option Document := do
  let chars := text.toList
  let (document, rest) ← value (2 * chars.length + 2) chars
  if (skipBlanks rest).isEmpty then some document else none

def writeChar (c : Char) : List Char :=
  if c == '"' || c == '\\' then ['\\', c]
  else if c.toNat < 0x20 then '\\' :: 'u' :: Text.hexDigits Text.lowerHexDigit 4 c.toNat
  else [c]

def quote (text : String) : String :=
  "\"" ++ String.ofList (text.toList.flatMap writeChar) ++ "\""

/-- Floating-point numbers are told by their bits, so that none is lost in decimal digits. -/
def floatText (bits : UInt64) : String :=
  if (Float.ofBits bits).isNaN then "nan" else "0x" ++ Text.lowerHex 16 bits.toNat

mutual

def write : Document → String
  | .null => "null"
  | .bool true => "true"
  | .bool false => "false"
  | .int value => toString value
  | .float bits => quote (floatText bits)
  | .text value => quote value
  | .list items => "[" ++ ",".intercalate (writeItems items) ++ "]"
  | .record fields => "\x7b" ++ ",".intercalate (writeFields fields) ++ "\x7d"

def writeItems : List Document → List String
  | [] => []
  | item :: rest => write item :: writeItems rest

def writeFields : List (String × Document) → List String
  | [] => []
  | (key, item) :: rest => (quote key ++ ":" ++ write item) :: writeFields rest

end

end Overhear.Json
