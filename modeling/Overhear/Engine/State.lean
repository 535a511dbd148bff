import Overhear.Delay
import Overhear.Destinations
import Overhear.Engine.Decision
import Overhear.Error
import Overhear.Score.Book
import Overhear.Strategy.InstanceName

/-! The state of a forwarding engine: its scores, the destinations it learned, and the requests it
holds back, at most one for each name. -/
namespace Overhear

/-- A request held back until its timer fires. -/
structure Deferral where
  handle : Handle
  face : FaceId
  request : Request
deriving DecidableEq, Repr

structure Engine where
  config : Config Float
  instanceName : Name
  book : ScoreBook Float
  destinations : Destinations := {}
  deferred : Std.ExtTreeMap Name Deferral := ∅
  generator : Random.Generator

namespace Engine

def start (config : Config Float) (instanceName : Name) (seed : UInt64) : Engine where
  config := config
  instanceName := instanceName
  book := { config := config.scores }
  generator := .ofSeed seed

/-- Build an engine. The settings are checked first, then the instance name. Without a seed in the
settings the random delays follow `entropy`. -/
def create (config : Config Float) (entropy : UInt64) : Except ForwardingError Engine := do
  config.check
  let instanceName ← match config.strategy.instanceName with
    | some text => InstanceName.validate text
    | none => pure InstanceName.canonical
  return start config instanceName (config.delays.seed.getD entropy)

def variant (engine : Engine) : Variant := engine.config.strategy.variant

def timers (engine : Engine) : Timers Event := engine.book.timers

def withTimers (engine : Engine) (timers : Timers Event) : Engine :=
  { engine with book := { engine.book with timers } }

def isDeferred (engine : Engine) (name : Name) : Bool := engine.deferred.contains name

def deferral? (engine : Engine) (name : Name) : Option Deferral := engine.deferred[name]?

def cancelDeferred (engine : Engine) (name : Name) : Bool × Engine :=
  match engine.deferral? name with
  | none => (false, engine)
  | some deferral =>
      (true, { engine.withTimers (engine.timers.cancel deferral.handle) with
        deferred := engine.deferred.erase name })

/-- Hold a request back for `delay`, to be sent on `face`. It takes the place of one held back for
the same name. -/
def defer (engine : Engine) (request : Request) (face : FaceId) (delay : Nanos) :
    Decision × Engine :=
  let engine := (engine.cancelDeferred request.name).2
  let (handle, timers) := engine.timers.arm delay (.forward request.name)
  (.deferred face delay handle, { engine.withTimers timers with
    deferred := engine.deferred.insert request.name ⟨handle, face, request⟩ })

/-- Credit a request sent through a face, under the name that its statistics are kept under. -/
def creditRequest (engine : Engine) (name : Name) (face : FaceId) : Engine :=
  { engine with book := engine.book.creditRequest name.statistics face }

end Engine

end Overhear
