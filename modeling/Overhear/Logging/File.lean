import Overhear.Logging.Path
import Overhear.Logging.Settings

/-! Log files: what opening a log does to the files of its directory. A rotated log writes to a file
named for the time, and removes the oldest files when there would be too many; a log that never
rotates empties its one file. -/
namespace Overhear.Logging

/-- What a directory holds: a file with its text, or a directory, which has none. -/
structure Entry where
  name : String
  content : Option String
deriving DecidableEq, Repr

/-- What is found where a log's directory should be. The entries of a directory stand the oldest first. -/
inductive Place where
  | missing
  | directory (entries : List Entry)
  | occupied
deriving DecidableEq, Repr

inductive LogError where
  | file (fault : FileFault)
  | rotatedDirectory (fault : FileFault)
  | rotatedFile (fault : FileFault)
deriving DecidableEq, Repr

def LogError.message : LogError → String
  | .file fault => "Failed to open log file: " ++ fault.message
  | .rotatedDirectory fault =>
      "Failed to set up rolling log file: failed to create log directory: " ++ fault.message
  | .rotatedFile fault =>
      "Failed to set up rolling log file: failed to create initial log file: " ++ fault.message

structure Stamp where
  date : String
  hour : String
deriving DecidableEq, Repr

/-- The path, from its directory on, of the file that a log writes to. -/
def FileSettings.path (settings : FileSettings) (stamp : Stamp) : Path :=
  let lead := if settings.stem.isEmpty then "" else settings.stem ++ "."
  Path.ofText <| match settings.rotation with
    | .never => settings.stem ++ ".log"
    | .daily => lead ++ stamp.date ++ ".log"
    | .hourly => lead ++ stamp.date ++ "-" ++ stamp.hour ++ ".log"

def Place.holding (path content : String) : Place :=
  let path := Path.ofText path
  .directory (if path.isInside then [⟨path.fileName, some content⟩] else [])

/-- What keeps a log's file from being opened. A rotated log creates the directories on the way. -/
def FileSettings.openError? (settings : FileSettings) (path : Path) : Option LogError :=
  let lead := settings.directory.utf8ByteSize
  match settings.rotation with
  | .never => (path.openFault? lead).map .file
  | _ =>
      (path.parent.createFault? lead).map .rotatedDirectory <|>
        (path.createFault? lead).map .rotatedFile

def FileSettings.owns (settings : FileSettings) (entry : Entry) : Bool :=
  entry.content.isSome && settings.stem.toList.isPrefixOf entry.name.toList &&
    "log".toList.isSuffixOf entry.name.toList

/-- Remove the oldest files of a log, so that with one more there are no more than are kept. A log
that keeps none at all is not limited. -/
def FileSettings.prune (settings : FileSettings) (entries : List Entry) : List Entry :=
  let owned := entries.filter settings.owns
  match settings.keep with
  | none | some 0 => entries
  | some (keep + 1) =>
      let oldest := owned.take (owned.length - keep)
      entries.filter fun entry => !oldest.contains entry

/-- Add to a file, which is created if it is missing. -/
def append (name text : String) (entries : List Entry) : List Entry :=
  if entries.any (·.name == name) then
    entries.map fun entry =>
      if entry.name == name then { entry with content := entry.content.map (· ++ text) } else entry
  else entries ++ [⟨name, some text⟩]

/-- What is in a log's directory when its file is about to be opened: a rotated log makes room and
creates the directories on the way, another one empties its file. -/
def FileSettings.prepare (settings : FileSettings) (path : Path) (entries : List Entry) :
    List Entry :=
  match settings.rotation with
  | .never => if path.isInside then entries.filter (·.name != path.fileName) else entries
  | _ => settings.prune entries ++ path.branches.map (⟨·, none⟩)

/-- Open a log and write lines to it as they are. Its directory is created if it is missing. -/
def FileSettings.writeLog (settings : FileSettings) (stamp : Stamp) (place : Place)
    (lines : List String) : Except LogError (List Entry) := do
  let entries ← match place with
    | .missing => pure []
    | .directory entries => pure entries
    | .occupied => throw (.file .occupied)
  let path := settings.path stamp
  if let some error := settings.openError? path then throw error
  let entries := settings.prepare path entries
  return if path.isInside then append path.fileName (String.join lines) entries else entries

end Overhear.Logging
