import Std.Data.ExtTreeMap

/-! Settings of a log: the least level shown, where lines go, and levels for single targets. -/
namespace Overhear.Logging

structure ConsoleSettings where
  enabled : Bool := true
  pretty : Bool := false
  ansi : Bool := false
deriving DecidableEq, Repr

/-- When a log goes on in a new file; one that never does empties its file at the start. -/
inductive Rotation where
  | daily
  | hourly
  | never
deriving DecidableEq, Repr

structure FileSettings where
  directory : String := "./logs"
  stem : String := "clf"
  rotation : Rotation := .daily
  keep : Option Nat := some 7
deriving DecidableEq, Repr

structure RecordSettings where
  flattenEvents : Bool := true
  spans : Bool := true
  currentSpan : Bool := true
  threadInfo : Bool := false
  location : Bool := true
deriving DecidableEq, Repr

structure LogSettings where
  level : String := "info"
  console : ConsoleSettings := {}
  file : Option FileSettings := none
  records : RecordSettings := {}
  targets : Std.ExtTreeMap String String := ∅

namespace LogSettings

def development : LogSettings :=
  { level := "debug", console := { enabled := true, pretty := true, ansi := true } }

/-- Daily files in a directory, and nothing on the console. -/
def production (directory : String) : LogSettings :=
  { console := { enabled := false }
    file := some { directory, keep := some 30 } }

def testing : LogSettings := { level := "warn" }

def withTarget (settings : LogSettings) (target level : String) : LogSettings :=
  { settings with targets := settings.targets.insert target level }

/-- The filter that the settings ask for: the level, then a directive for each target in order. -/
def directives (settings : LogSettings) : String :=
  ",".intercalate (settings.level ::
    settings.targets.toList.map fun (target, level) => target ++ "=" ++ level)

end LogSettings

end Overhear.Logging
