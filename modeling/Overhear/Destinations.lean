import Overhear.Location.Coordinate
import Overhear.Name
import Std.Data.ExtTreeSet

/-! Where announced names were last known to be. Each announced name has an entry, found by its
name or by its number, and the entries form a forest in which a new entry goes under the longest
announced name above it and takes over the entries that belong under itself. -/
namespace Overhear

structure DestinationEntry where
  name : Name
  coordinate : Coordinate
  parent : Option Nat
  children : Std.ExtTreeSet Nat

inductive ForestError where
  | unknownEntry (id : Nat)
  | alreadyAttached (child : Name)
  | wouldCycle (parent child : Name)
  | notParent (parent child : Name)
deriving DecidableEq, Repr

def ForestError.message : ForestError → String
  | .unknownEntry id => "Unknown location entry LocationEntryId(" ++ toString id ++ ")"
  | .alreadyAttached child => "Entry " ++ child.text ++ " already has a parent"
  | .wouldCycle parent child =>
      "Attaching " ++ child.text ++ " under " ++ parent.text ++ " would create a cycle"
  | .notParent parent child => parent.text ++ " is not the parent of " ++ child.text

/-- The entries are numbered in the order they were first inserted. -/
structure Destinations where
  entries : Array DestinationEntry := #[]
  byName : Std.ExtTreeMap Name Nat := ∅

namespace Destinations

def size (index : Destinations) : Nat := index.entries.size

def entry? (index : Destinations) (id : Nat) : Option DestinationEntry := index.entries[id]?

def parent? (index : Destinations) (id : Nat) : Option Nat := index.entry? id >>= (·.parent)

def roots (index : Destinations) : List Nat :=
  (List.range index.size).filter fun id => (index.parent? id).isNone

def idOf? (index : Destinations) (name : Name) : Option Nat := index.byName[name]?

def find? (index : Destinations) (name : Name) : Option DestinationEntry :=
  index.idOf? name >>= index.entry?

/-- The entry of the longest announced name that is `name` or lies above it. -/
def findLongest? (index : Destinations) (name : Name) : Option DestinationEntry :=
  name.ancestors.findSome? index.idOf? >>= index.entry?

/-- The numbers of the entries strictly under `name`, in name order. -/
def descendantIds (index : Destinations) (name : Name) : List Nat :=
  (Name.descendantsIn index.byName.keys name).filterMap index.idOf?

def findDescendants (index : Destinations) (name : Name) : List DestinationEntry :=
  (index.descendantIds name).filterMap index.entry?

/-- Whether a walk of up to `steps` entries toward the root, starting at `cursor`, meets `id`. -/
def walkMeets (index : Destinations) (id : Nat) : Nat → Option Nat → Bool
  | 0, _ => false
  | _, none => false
  | steps + 1, some cursor => cursor == id || index.walkMeets id steps (index.parent? cursor)

/-- Whether `id` is `start` or above it; a walk toward the root meets each entry at most once. -/
def isAtOrAbove (index : Destinations) (id start : Nat) : Bool :=
  index.walkMeets id index.size (some start)

def update (index : Destinations) (id : Nat) (change : DestinationEntry → DestinationEntry) :
    Destinations :=
  { index with entries := index.entries.modify id change }

/-- Attach a detached entry under another one that is neither itself nor below it. -/
def addChild (index : Destinations) (parent child : Nat) : Except ForestError Destinations := do
  let some childEntry := index.entry? child | throw (.unknownEntry child)
  let some parentEntry := index.entry? parent | throw (.unknownEntry parent)
  if childEntry.parent.isSome then throw (.alreadyAttached childEntry.name)
  if index.isAtOrAbove child parent then throw (.wouldCycle parentEntry.name childEntry.name)
  return (index.update child ({ · with parent := some parent })).update parent
    fun entry => { entry with children := entry.children.insert child }

def removeChild (index : Destinations) (parent child : Nat) : Except ForestError Destinations := do
  let some childEntry := index.entry? child | throw (.unknownEntry child)
  let some parentEntry := index.entry? parent | throw (.unknownEntry parent)
  if childEntry.parent != some parent then throw (.notParent parentEntry.name childEntry.name)
  return (index.update child ({ · with parent := none })).update parent
    fun entry => { entry with children := entry.children.erase child }

/-- Move an entry from under `parent`, if it has one, to under `id`. -/
def adopt (parent : Option Nat) (id : Nat) (index : Destinations) (child : Nat) :
    Except ForestError Destinations := do
  let detached ← match parent with
    | some parent => index.removeChild parent child
    | none => pure index
  detached.addChild id child

/-- Record where `name` is. A known name only changes its coordinate. The entry of a new one takes
over the entries under it that hung where it goes, and is attached there last. -/
def insert (index : Destinations) (name : Name) (coordinate : Coordinate) :
    Except ForestError (Nat × Destinations) :=
  match index.idOf? name with
  | some id => .ok (id, index.update id ({ · with coordinate }))
  | none => do
      let parent := name.properAncestors.findSome? index.idOf?
      let id := index.size
      let grown : Destinations :=
        { entries := index.entries.push ⟨name, coordinate, none, ∅⟩
          byName := index.byName.insert name id }
      let adopted := (grown.descendantIds name).filter fun child =>
        child != id && grown.parent? child == parent
      let gathered ← adopted.foldlM (adopt parent id) grown
      let attached ← match parent with
        | some parent => gathered.addChild parent id
        | none => pure gathered
      return (id, attached)

end Destinations

end Overhear
