import Overhear.Text.Segments

/-! Paths of files from a log's directory on: the directories that a path goes through, the name that
it ends in, and what keeps its file from being opened. The log's directory holds no directories before
one is created, but what is above it is there. -/
namespace Overhear.Logging

inductive FileFault where
  | occupied
  | noSuchDirectory
  | nameTooLong
  | nulInName
deriving DecidableEq, Repr

def FileFault.message : FileFault → String
  | .occupied => "File exists (os error 17)"
  | .noSuchDirectory => "No such file or directory (os error 2)"
  | .nameTooLong => "File name too long (os error 36)"
  | .nulInName => "file name contained an unexpected NUL byte"

/-- The stretches between slashes, as they stand. -/
structure Path where
  segments : List (List Char)
deriving DecidableEq, Repr

namespace Path

def ofText (text : String) : Path := ⟨Text.segments text.toList⟩

/-- A stretch that leads nowhere: it is empty or a single dot. -/
def isIdle (segment : List Char) : Bool := segment.isEmpty || segment == ['.']

def upward : List Char := ['.', '.']

/-- The path begins with a slash, so it starts at the root of all directories. -/
def fromRoot (path : Path) : Bool := 1 < path.segments.length && path.segments.head? == some []

def steps (path : Path) : List (List Char) := path.segments.filter (!isIdle ·)

def through (path : Path) : List (List Char) := path.steps.dropLast

def name (path : Path) : List Char := path.steps.getLast?.getD []

def fileName (path : Path) : String := String.ofList path.name

def parent (path : Path) : Path := ⟨(path.segments.dropLast.reverse.dropWhile isIdle).reverse⟩

def byteSize (segment : List Char) : Nat := (String.ofList segment).utf8ByteSize

/-- The bytes that a path takes below a directory whose own path takes `lead` bytes. -/
def size (lead : Nat) (path : Path) : Nat :=
  let own := path.segments.foldl (fun bytes segment => bytes + byteSize segment) 0 +
    (path.segments.length - 1)
  if path.fromRoot then own else lead + 1 + own

/-- A name takes at most 255 bytes. -/
def isTooLong (name : List Char) : Bool := 255 < byteSize name

/-- What is wrong with the path before a step is made: it takes at most 4095 bytes. -/
def textFault? (lead : Nat) (path : Path) : Option FileFault :=
  if path.segments.any (·.contains '\x00') then some .nulInName
  else if 4095 < path.size lead then some .nameTooLong
  else none

def nameFault? (name : List Char) : Option FileFault :=
  if isTooLong name then some .nameTooLong else none

def stepFault? (path : Path) (step : List Char) : Option FileFault :=
  nameFault? step <|>
    if path.fromRoot || step == upward then none else some .noSuchDirectory

def openFault? (lead : Nat) (path : Path) : Option FileFault :=
  path.textFault? lead <|> path.through.findSome? path.stepFault? <|> nameFault? path.name

def createFault? (lead : Nat) (path : Path) : Option FileFault :=
  path.textFault? lead <|> path.steps.findSome? nameFault?

/-- How far below the log's directory a step leads from a depth; above it no depth is known. -/
def descend (depth : Option Nat) (step : List Char) : Option Nat :=
  match depth with
  | none => none
  | some depth =>
      if step ≠ upward then some (depth + 1)
      else match depth with
        | 0 => none
        | above + 1 => some above

def start (path : Path) : Option Nat := if path.fromRoot then none else some 0

def isInside (path : Path) : Bool := path.through.foldl descend path.start == some 0

/-- The directories that steps enter directly from the log's directory. -/
def entered : Option Nat → List (List Char) → List (List Char)
  | _, [] => []
  | depth, step :: rest =>
      let below := descend depth step
      if depth == some 0 && below == some 1 then step :: entered below rest else entered below rest

/-- The directories in the log's directory that are on the way to the file. -/
def branches (path : Path) : List String :=
  (entered path.start path.through).eraseDups.map String.ofList

end Path

end Overhear.Logging
