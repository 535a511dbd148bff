import Overhear.Text.Blank
import Overhear.Text.Segments
import Std.Data.ExtTreeMap

/-! Hierarchical content names. A name is a list of components; its text writes a slash before each
of them, and the root is a single slash. Names are ordered component by component, so everything
below a name follows it directly in any sorted collection. -/
namespace Overhear

structure Name where
  components : List String
deriving DecidableEq, Repr

inductive NameError where
  | missingLeadingSlash (text : String)
  | emptyComponent (text : String)
  | slashInComponent (component : String)
deriving DecidableEq, Repr

def NameError.message : NameError → String
  | .missingLeadingSlash text => "Name must start with '/': " ++ text
  | .emptyComponent text => "Name contains an empty component: " ++ text
  | .slashInComponent component => "Name component contains '/': " ++ component

namespace Name

def root : Name := ⟨[]⟩

instance : Inhabited Name := ⟨root⟩

instance : Ord Name := ⟨compareOn Name.components⟩

instance : Std.TransOrd Name := inferInstanceAs (Std.TransCmp (compareOn Name.components))

instance : Std.LawfulEqOrd Name where
  eq_of_compare {a b} same := by
    have : a.components = b.components :=
      Std.LawfulEqOrd.eq_of_compare (α := List String) same
    cases a; cases b; simp_all

def toChars (name : Name) : List Char :=
  match name.components with
  | [] => ['/']
  | components => components.flatMap fun component => '/' :: component.toList

def text (name : Name) : String := String.ofList name.toChars

instance : ToString Name := ⟨text⟩

/-- Read a name from its text. Blanks around the text are dropped; errors carry what is left. -/
def parse (text : String) : Except NameError Name :=
  let trimmed := Text.trim text.toList
  match trimmed with
  | ['/'] => .ok root
  | '/' :: path =>
      let parts := Text.segments path
      if parts.any List.isEmpty then .error (.emptyComponent (String.ofList trimmed))
      else .ok ⟨parts.map String.ofList⟩
  | _ => .error (.missingLeadingSlash (String.ofList trimmed))

def length (name : Name) : Nat := name.components.length

def isRoot (name : Name) : Bool := name.components.isEmpty

def last? (name : Name) : Option String := name.components.getLast?

def take (name : Name) (count : Nat) : Name := ⟨name.components.take count⟩

def parent? (name : Name) : Option Name :=
  if name.isRoot then none else some (name.take (name.length - 1))

/-- The name that statistics for a request are kept under: the request's parent, since its last
component is a version or a segment number. The root stands for itself. -/
def statistics (name : Name) : Name := name.parent?.getD root

/-- The name with one more component; an empty component is reported with the text it would give. -/
def child (name : Name) (component : String) : Except NameError Name :=
  if component.isEmpty then .error (.emptyComponent (name.text ++ "/"))
  else if component.toList.contains '/' then .error (.slashInComponent component)
  else .ok ⟨name.components ++ [component]⟩

/-- Build a name from components. The first bad one is reported: an empty component with the name
read so far, one with a slash by itself. -/
def ofComponents (components : List String) : Except NameError Name :=
  components.foldlM (fun name component =>
    if component.isEmpty then .error (.emptyComponent name.text) else name.child component) root

/-- `above.covers below` when `below` is `above` or lies under it. -/
def covers (above below : Name) : Bool := above.components.isPrefixOf below.components

def strictlyCovers (above below : Name) : Bool :=
  above.length < below.length && above.covers below

/-- The name and all names above it, longest first, ending at the root. -/
def ancestors (name : Name) : List Name :=
  (List.range (name.length + 1)).reverse.map name.take

def properAncestors (name : Name) : List Name := name.ancestors.tail

/-- In a list sorted by name, the first name after `name`. -/
def next? (sorted : List Name) (name : Name) : Option Name :=
  sorted.find? fun other => compare name other == .lt

/-- In a list sorted by name, whether some name lies strictly under `name`. Names under `name`
come directly after it, so only its successor is looked at. -/
def hasDescendantIn (sorted : List Name) (name : Name) : Bool :=
  (next? sorted name).any name.strictlyCovers

/-- In a list sorted by name, the names strictly under `name`: the run after `name` that ends at
the first name not under it. -/
def descendantsIn (sorted : List Name) (name : Name) : List Name :=
  (sorted.dropWhile fun other => compare name other != .lt).takeWhile name.strictlyCovers

end Name

end Overhear
