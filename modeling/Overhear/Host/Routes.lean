import Overhear.Face
import Overhear.Name

/-! A host's forwarding table: candidate faces by name, of which the longest match counts. -/
namespace Overhear

structure Routes where
  entries : List (Name × List Hop)

namespace Routes

def otherwise (routes : Routes) (hops : List Hop) : Routes :=
  ⟨routes.entries ++ [(Name.root, hops)]⟩

/-- The later of two entries unless the earlier has a longer name. -/
def longer (best : Option (Name × List Hop)) (entry : Name × List Hop) :
    Option (Name × List Hop) :=
  match best with
  | some found => if entry.1.length < found.1.length then some found else some entry
  | none => some entry

/-- The candidates of the longest entry at or above a name; none when there is no such entry. -/
def hopsFor (routes : Routes) (name : Name) : List Hop :=
  match (routes.entries.filter (·.1.covers name)).foldl longer none with
  | some entry => entry.2
  | none => []

end Routes

end Overhear
