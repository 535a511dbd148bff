import Overhear.Span

/-! Structured documents and how values are kept in them: fields by name or in order, choices by
name, and values that may be absent. -/
namespace Overhear

/-- A number with a fraction or an exponent is kept as the bit pattern of a floating-point number. -/
inductive Document where
  | null
  | bool (value : Bool)
  | int (value : Int)
  | float (bits : UInt64)
  | text (value : String)
  | list (items : List Document)
  | record (fields : List (String × Document))

namespace Document

/-- A field of a record; of several fields with one name the last counts. -/
def field? (key : String) : Document → Option Document
  | .record fields => (fields.filter (·.1 == key)).getLast?.map (·.2)
  | _ => none

/-- The fields of these names: from a record, which may have others and may lack some, or from a list
that has exactly as many items. -/
def fields (names : List String) : Document → Option (List (Option Document))
  | .list items => if items.length = names.length then some (items.map some) else none
  | .record fields => some (names.map fun name => (Document.record fields).field? name)
  | _ => none

end Document

structure Codec (α : Type) where
  read : Document → Option α
  write : α → Document

namespace Codec

variable {α β : Type}

def required (codec : Codec α) (field : Option Document) : Option α := field >>= codec.read

def via (codec : Codec α) (forth : α → β) (back : β → α) : Codec β where
  read document := (codec.read document).map forth
  write value := codec.write (back value)

def bool : Codec Bool where
  read
    | .bool value => some value
    | _ => none
  write := .bool

def text : Codec String where
  read
    | .text value => some value
    | _ => none
  write := .text

def natBelow (bound : Nat) : Codec Nat where
  read
    | .int (.ofNat value) => if value < bound then some value else none
    | _ => none
  write value := .int value

def word : Codec Nat := natBelow (Nat.pow 2 64)

def word64 : Codec UInt64 := word.via UInt64.ofNat UInt64.toNat

/-- The bit patterns of floating-point numbers; a whole number stands for the nearest one. -/
def floatBits : Codec UInt64 where
  read
    | .int value => some (Float.ofInt value).toBits
    | .float bits => some bits
    | _ => none
  write := .float

def float : Codec Float := floatBits.via Float.ofBits Float.toBits

def list (codec : Codec α) : Codec (List α) where
  read
    | .list items => items.mapM codec.read
    | _ => none
  write values := .list (values.map codec.write)

/-- A value that may be absent: null stands for none, and so does a field that is missing. -/
def option (codec : Codec α) : Codec (Option α) where
  read
    | .null => some none
    | document => (codec.read document).map some
  write
    | none => .null
    | some value => codec.write value

def optional (codec : Codec α) (field : Option Document) : Option (Option α) :=
  match field with
  | none => some none
  | some document => codec.option.read document

/-- One of several named values: its name, or a record of its name with nothing in it. -/
def choice [DecidableEq α] (table : List (String × α)) : Codec α where
  read
    | .text name => (table.find? (·.1 == name)).map (·.2)
    | .record [(name, .null)] => (table.find? (·.1 == name)).map (·.2)
    | _ => none
  write value :=
    match table.find? (·.2 == value) with
    | some entry => .text entry.1
    | none => .null

/-- Spans as whole seconds and nanoseconds, both of them and nothing else. -/
def span : Codec Nanos where
  read document := do
    match document with
    | .record fields => if fields.any (fun field => field.1 != "secs" && field.1 != "nanos") then none
    | _ => pure ()
    let [seconds, nanoseconds] ← document.fields ["secs", "nanos"] | none
    Nanos.ofParts? (← word.required seconds) (← (natBelow (Nat.pow 2 32)).required nanoseconds)
  write span := .record [("secs", .int span.seconds), ("nanos", .int span.subseconds)]

end Codec

end Overhear
