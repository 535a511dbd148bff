import Overhear.Document.Codec
import Overhear.Error
import Overhear.Logging.File

/-! Reports of errors: a short name for the cause, and its wording. -/
namespace Overhear.Report

def error (cause message : String) : List (String × Document) :=
  [("error", .text cause), ("message", .text message)]

def nameError (cause : NameError) : List (String × Document) :=
  error
    (match cause with
      | .missingLeadingSlash _ => "MissingLeadingSlash"
      | .emptyComponent _ => "EmptyComponent"
      | .slashInComponent _ => "InvalidComponent")
    cause.message

def forestError (cause : ForestError) : List (String × Document) :=
  error
    (match cause with
      | .unknownEntry _ => "UnknownEntry"
      | .alreadyAttached _ => "AlreadyAttached"
      | .wouldCycle .. => "WouldCycle"
      | .notParent .. => "NotParent")
    cause.message

def tagError (cause : TagError) : List (String × Document) := error "Decode" cause.message

def timerError (cause : TimerError) : List (String × Document) := error "NoRuntime" cause.message

def logError (cause : Logging.LogError) : List (String × Document) := error "Io" cause.message

def forwardingError (cause : ForwardingError) : List (String × Document) :=
  error
    (match cause with
      | .missingAnnouncement _ => "PreconditionViolation"
      | .configuration _ => "InvalidConfiguration"
      | .forest _ => "LocationTree"
      | .tag _ => "Tag"
      | .name _ => "Name"
      | .timer _ => "Timer"
      | .closed => "DriverClosed")
    cause.message

end Overhear.Report
