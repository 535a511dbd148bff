import Overhear.Host.Clock
import Overhear.Host.Routes

/-! A node: an engine with its forwarding table on a clock that runs by itself and shows whole
milliseconds. Events that the host submits are processed at once, timers fire as soon as the clock
shows their deadlines, expired records are swept at regular times from the start on, and what the
host has to do is put into an outbox in order. -/
namespace Overhear

inductive Action where
  | sendRequest (faces : List FaceId) (request : Request)
  | sendResponse (faces : List FaceId) (response : Response)
  | rejectPending (name : Name)
deriving DecidableEq, Repr

inductive NodeEvent where
  | request (inFace : Face) (request : Request) (pending : Pending)
  | response (inFace : Face) (response : Response) (pending : Pending)
  | loopDetected (inFace : Face) (request : Request) (pending : Pending)
  | expired (pending : Pending)
  | refused (inFace : Face) (nack : Nack) (pending : Pending)
deriving DecidableEq, Repr

/-- A node is stopped by its host, and it failed when it could not go on by itself. -/
inductive NodeStatus where
  | running
  | stopped
  | failed
deriving DecidableEq, Repr

structure Node where
  engine : Engine
  routes : Routes
  sweepPeriod : Nanos
  nextSweep : Nanos := 0
  status : NodeStatus := .running
  outbox : List Action := []

namespace Node

/-- Start a node. It needs a runtime that fires its timers; that is found out before the settings
are looked at. A node cannot run with a sweep period of zero. -/
def spawn (hasRuntime : Bool) (config : Config Float) (entropy : UInt64) (routes : Routes)
    (sweepPeriod : Nanos) : Except ForwardingError Node := do
  if !hasRuntime then throw (.timer .noRuntime)
  let engine ← Engine.create config entropy
  return { engine, routes, sweepPeriod, status := if sweepPeriod = 0 then .failed else .running }

def emit (node : Node) (action : Action) : Node := { node with outbox := node.outbox ++ [action] }

def apply (node : Node) (name : Name) : Decision → Node
  | .send faces request => node.emit (.sendRequest faces request)
  | .suppress _ true => node.emit (.rejectPending name)
  | _ => node

def handle (node : Node) : NodeEvent → Node
  | .request inFace request pending =>
      let (decision, engine) :=
        node.engine.receive inFace request (node.routes.hopsFor pending.name)
      match decision with
      | .ok decision => { node with engine }.apply request.name decision
      | .error _ => { node with engine, status := .failed }
  | .response inFace response pending =>
      let (decision, engine) := node.engine.respond pending inFace response
      match decision with
      | .ok decision => { node with engine }.emit (.sendResponse decision.faces decision.response)
      | .error _ => { node with engine }
  | .loopDetected _ request _ =>
      let (decision, engine) := node.engine.loopDetected request
      { node with engine }.apply request.name decision
  | .expired pending => { node with engine := node.engine.expired pending }
  | .refused inFace nack pending => { node with engine := node.engine.refused inFace nack pending }

def report (node : Node) (delivery : Delivery TimerOutcome) : Node :=
  match delivery.outcome with
  | .sendRequest face request => node.emit (.sendRequest [face] request)
  | _ => node

/-- What the clock shows when the next sweep happens. -/
def sweepTime (node : Node) : Nanos := Nanos.upToMillis node.nextSweep

def timerTime? (node : Node) : Option Nanos :=
  node.engine.timers.nextDeadline?.map Nanos.upToMillis

/-- Whether the next thing to happen is a sweep: at one time it comes before the timers. -/
def sweepIsNext (node : Node) : Bool := node.timerTime?.all (node.sweepTime ≤ ·)

def nextTime (node : Node) : Nanos := node.timerTime?.elim node.sweepTime (min · node.sweepTime)

def now (node : Node) : Nanos := node.engine.timers.elapsed

/-- Sweep expired records, and plan the next sweep for the first regular time after now. Sweeping
twice at one time takes out nothing more, so the times that are over need no sweep of their own. -/
def sweep (node : Node) : Node :=
  let missed := (node.now - node.nextSweep) / node.sweepPeriod
  { node with
    engine := node.engine.sweep.2
    nextSweep := node.nextSweep + node.sweepPeriod * (missed + 1) }

def advanceTo (limit : Nanos) (node : Node) : Node :=
  { node with engine := TimerDriven.advanceTo limit node.engine }

/-- Let the next thing happen if the clock shows its time by `limit`: a sweep, or the timers whose
deadlines it shows together. -/
def tick (limit : Nanos) (node : Node) : Option Node :=
  if node.status ≠ .running ∨ limit < node.nextTime then none
  else
    let node := node.advanceTo node.nextTime
    if node.sweepIsNext then some node.sweep
    else
      let (deliveries, engine) := TimerDriven.fireTogether node.now node.engine
      some (deliveries.foldl report { node with engine })

def runUntil (limit : Nanos) : Nat → Node → Node
  | 0, node => node.advanceTo limit
  | most + 1, node =>
      match node.tick limit with
      | none => node.advanceTo limit
      | some node => runUntil limit most node

/-- Let everything happen that is due by now: each armed timer at most once, and a sweep. -/
def settle (node : Node) : Node := runUntil node.now (node.engine.timers.pendingCount + 1) node

/-- Submit an event. A node that was shut down takes no notice, one that failed refuses it. -/
def submit (node : Node) (event : NodeEvent) : Except ForwardingError Node :=
  match node.status with
  | .running => .ok (node.handle event).settle
  | .stopped => .ok node
  | .failed => .error .closed

def takeActions (node : Node) : List Action × Node := (node.outbox, { node with outbox := [] })

inductive NextAction where
  | action (action : Action)
  | timeout
  | closed
deriving DecidableEq, Repr

/-- Wait until `limit` for an action, while at most `most` things happen. What comes at `limit` itself
is too late, and stays in the outbox. -/
def awaitAction (limit : Nanos) : Nat → Node → NextAction × Node
  | most, node =>
      match node.outbox with
      | action :: rest => (.action action, { node with outbox := rest })
      | [] =>
          if node.status ≠ .running then (.closed, node)
          else match most with
            | 0 => (.timeout, node.advanceTo limit)
            | most + 1 =>
                match node.tick (limit - 1) with
                | none => (.timeout, node.runUntil limit most)
                | some node => awaitAction limit most node

def shutdown (node : Node) : Node :=
  { node with engine := node.engine.shutdown, status := .stopped, outbox := [] }

end Node

end Overhear
