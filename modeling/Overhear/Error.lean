import Overhear.Config
import Overhear.Destinations
import Overhear.Location.Tag

/-! The causes for which forwarding refuses something, and their wording. -/
namespace Overhear

inductive ConfigurationFault where
  | setting (problem : ConfigProblem)
  | notThisStrategy (instanceName : String)
  | parameters
  | unsupportedVersion (version : UInt64)
deriving DecidableEq, Repr

def ConfigurationFault.message : ConfigurationFault → String
  | .setting problem => problem.message
  | .notThisStrategy instanceName => instanceName ++ " is not a CLF strategy name"
  | .parameters => "CLF strategy does not accept parameters"
  | .unsupportedVersion version =>
      "CLF strategy does not support version " ++ toString version.toNat

inductive TimerError where
  | noRuntime
deriving DecidableEq, Repr

def TimerError.message : TimerError → String
  | .noRuntime => "No async runtime available to drive timers"

inductive ForwardingError where
  | missingAnnouncement (response : Name)
  | configuration (fault : ConfigurationFault)
  | forest (cause : ForestError)
  | tag (cause : TagError)
  | name (cause : NameError)
  | timer (cause : TimerError)
  | closed
deriving DecidableEq, Repr

def ForwardingError.message : ForwardingError → String
  | .missingAnnouncement response =>
      "Precondition violated: response " ++ response.text ++ " carries no announced prefix"
  | .configuration fault => "Invalid configuration: " ++ fault.message
  | .forest cause => "Location tree error: " ++ cause.message
  | .tag cause => "Tag error: " ++ cause.message
  | .name cause => "Name error: " ++ cause.message
  | .timer cause => "Timer error: " ++ cause.message
  | .closed => "Engine driver closed"

/-- Fail with the first problem of the settings, if there is one. -/
def Config.check {α : Type} [Scalar α] (config : Config α) : Except ForwardingError Unit :=
  match config.problems with
  | [] => .ok ()
  | problem :: _ => .error (.configuration (.setting problem))

end Overhear
