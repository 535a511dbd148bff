import Overhear.Text.Digits

/-! Which node the current work is done for. Several nodes may share a process, so entering a node's
identity sets it, and the guard that was handed out restores on leaving what was set before. Spans
carry the identity that is set when they are opened. -/
namespace Overhear.Logging

structure InstanceId where
  bytes : List UInt8
deriving DecidableEq, Repr

namespace InstanceId

def version (id : InstanceId) : Nat := (id.bytes.getD 6 0).toNat / 16

def isRandom (id : InstanceId) : Bool := id.version == 4

def groupSizes : List Nat := [4, 2, 2, 2, 6]

def pieces {α : Type} : List Nat → List α → List (List α)
  | [], _ => []
  | size :: sizes, items => items.take size :: pieces sizes (items.drop size)

/-- Five groups of hexadecimal digits with hyphens between them. -/
def text (id : InstanceId) : String :=
  "-".intercalate ((pieces groupSizes id.bytes).map Text.hexOfBytes)

def ofDigits? (digits : List Char) : Option InstanceId := do
  let bytes ← Text.bytesOfHex? digits
  if bytes.length = 16 then some ⟨bytes⟩ else none

def ofHyphenated? (chars : List Char) : Option InstanceId := do
  let id ← ofDigits? (chars.filter (· != '-'))
  if id.text.toList = chars.map Char.toLower then some id else none

/-- What is between a pair of braces, or after the name of the scheme in either case; else all of
the text. -/
def unwrap (chars : List Char) : List Char :=
  let scheme := "urn:uuid:".toList
  if chars.head? = some '\x7b' ∧ chars.getLast? = some '\x7d' then chars.tail.dropLast
  else if scheme.isPrefixOf (chars.map Char.toLower) then chars.drop scheme.length
  else chars

/-- Read an identifier: its digits alone, or as `text` writes it, which may be wrapped. -/
def parse? (source : String) : Option InstanceId :=
  let chars := source.toList
  if chars.length = 32 then ofDigits? chars else ofHyphenated? (unwrap chars)

end InstanceId

structure Identity where
  node : String
  strategy : Option String
  instanceId : InstanceId
deriving DecidableEq, Repr

structure Guard where
  previous : Option Identity
deriving DecidableEq, Repr

structure Span where
  name : String
  identity : Option Identity
deriving DecidableEq, Repr

/-- The identity that is set, and the guards handed out so far, with those gone that left. -/
structure Scope where
  current : Option Identity := none
  guards : List (Option Guard) := []
deriving DecidableEq, Repr

namespace Scope

def enter (scope : Scope) (node : String) (instanceId : InstanceId) : Scope where
  current := some ⟨node, none, instanceId⟩
  guards := scope.guards ++ [some ⟨scope.current⟩]

def nameStrategy (scope : Scope) (strategy : String) : Scope :=
  { scope with current := scope.current.map ({ · with strategy := some strategy }) }

def guard? (scope : Scope) (number : Nat) : Option Guard := (scope.guards[number]?).join

/-- Name the strategy through a guard: this is for the identity that is set, which need not be the
one that the guard set. A guard that left does nothing. -/
def nameStrategyBy (scope : Scope) (number : Nat) (strategy : String) : Scope :=
  if (scope.guard? number).isSome then scope.nameStrategy strategy else scope

/-- A guard leaves and restores what was set before it, whatever is set now. -/
def leave (scope : Scope) (number : Nat) : Scope :=
  match scope.guard? number with
  | none => scope
  | some guard => { current := guard.previous, guards := scope.guards.set number none }

def openSpan (scope : Scope) (name : String) : Span := ⟨name, scope.current⟩

/-- Work within the identity of a node, and leave it again. Gives the identity within. -/
def within (scope : Scope) (node : String) (instanceId : InstanceId) : Option Identity × Scope :=
  let inside := scope.enter node instanceId
  (inside.current, { inside.leave scope.guards.length with guards := scope.guards })

end Scope

end Overhear.Logging
