import Overhear.Name
import Overhear.Span

/-! Named records that live until a deadline. Touching a record puts its deadline off, and a sweep
takes out the records whose deadline has passed, except those with a live record below them. The clock
of the host is taken to reach every deadline: a sum past the last instant that it can represent ends the
host's process, and no state after that is described here. -/
namespace Overhear

/-- A new record lives for `firstLifetime` if it is not touched. -/
structure Records where
  firstLifetime : Nanos := Nanos.ofSeconds 4
  deadlines : Std.ExtTreeMap Name Nanos := ∅

namespace Records

def size (records : Records) : Nat := records.deadlines.size

def contains (records : Records) (name : Name) : Bool := records.deadlines.contains name

def deadline? (records : Records) (name : Name) : Option Nanos := records.deadlines[name]?

def names (records : Records) : List Name := records.deadlines.keys

def create (records : Records) (now : Nanos) (name : Name) : Records :=
  if records.contains name then records
  else { records with deadlines := records.deadlines.insert name (now + records.firstLifetime) }

/-- Keep a record alive for at least `lifetime` from now; a name without a record stays without. -/
def extend (records : Records) (now : Nanos) (name : Name) (lifetime : Nanos) : Records :=
  { records with deadlines := records.deadlines.modify name (max · (now + lifetime)) }

/-- The longest record name that is `name` or lies above it. -/
def nearestAncestor? (records : Records) (name : Name) : Option Name :=
  name.ancestors.find? records.contains

def parentOf? (records : Records) (name : Name) : Option Name :=
  name.parent? >>= records.nearestAncestor?

def above (records : Records) (name : Name) : List Name :=
  name.properAncestors.filter records.contains

/-- The records whose deadline has passed, deepest first and in name order at each depth. -/
def expired (records : Records) (now : Nanos) : List Name :=
  (records.deadlines.toList.filterMap fun (name, deadline) =>
    if deadline ≤ now then some name else none).mergeSort fun a b => b.length ≤ a.length

/-- Take out a record unless another lies below it. -/
def removeLeaf (state : List Name × Records) (name : Name) : List Name × Records :=
  let (removed, records) := state
  if Name.hasDescendantIn records.names name then (removed, records)
  else (removed ++ [name], { records with deadlines := records.deadlines.erase name })

/-- Take out the expired records, deepest first, so that a record is judged after those below it. -/
def takeExpired (records : Records) (now : Nanos) : List Name × Records :=
  (records.expired now).foldl removeLeaf ([], records)

end Records

end Overhear
