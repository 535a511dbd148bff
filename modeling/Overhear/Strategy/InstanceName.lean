import Overhear.Error
import Overhear.Strategy.Version

/-! Instance names, under which a host registers a strategy: the strategy's name, then a version
component, then parameters. -/
namespace Overhear

structure InstanceName where
  strategy : Name
  version : Option UInt64
  parameters : List String
deriving DecidableEq, Repr

namespace InstanceName

def strategyName : Name := ⟨["localhost", "nfd", "strategy", "clf"]⟩

def supportedVersion : UInt8 := 3

/-- The name with the supported version, the form in which the strategy knows itself. -/
def canonical : Name := ⟨strategyName.components ++ [Version.encodeByte supportedVersion]⟩

def isVersion (component : String) : Bool := (Version.decode component).isSome

/-- Split a name at its last version component; without one it is all strategy name. -/
def ofName (name : Name) : InstanceName :=
  let backward := name.components.reverse
  match backward.dropWhile (!isVersion ·) with
  | [] => ⟨name, none, []⟩
  | version :: before =>
      ⟨⟨before.reverse⟩, Version.decode version, (backward.takeWhile (!isVersion ·)).reverse⟩

/-- Check the text of an instance name; an accepted one stands for the canonical name. -/
def validate (text : String) : Except ForwardingError Name := do
  let name ← (Name.parse text).mapError ForwardingError.name
  let parts := ofName name
  if parts.strategy != strategyName then throw (.configuration (.notThisStrategy text))
  if !parts.parameters.isEmpty then throw (.configuration .parameters)
  match parts.version with
  | none => return canonical
  | some version =>
      if version != supportedVersion.toUInt64 then
        throw (.configuration (.unsupportedVersion version))
      return canonical

end InstanceName

end Overhear
