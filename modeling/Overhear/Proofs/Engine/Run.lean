import Overhear.Engine.Events
import Overhear.Proofs.Timers.Moves

/-! Runs of an engine: the acts of its host in any order, and what the host is told. The host alone moves
time and delivers firings; a history keeps each act with its answer, the latest first. -/
namespace Overhear

/-- One thing that a host does with an engine or with the timers of it. Whether a firing that it delivers
was one is not checked here. -/
inductive Act where
  | receive (inFace : Face) (request : Request) (hops : List Hop)
  | respond (pending : Pending) (inFace : Face) (response : Response)
  | detectLoop (request : Request)
  | expire (pending : Pending)
  | refuse (inFace : Face) (nack : Nack) (pending : Pending)
  | cancel (name : Name)
  | sweep
  | shutdown
  | popDue (limit : Nanos)
  | fireNext
  | advance (step : Nanos)
  | advanceTo (target : Nanos)
  | deliver (firing : Firing Event)

/-- What an act gives back. -/
inductive Answer where
  | decided (decision : Except Random.SpanError Decision)
  | responded (decision : Except ForwardingError ResponseDecision)
  | cancelled (was : Bool)
  | swept (names : List Name)
  | popped (firings : List (Firing Event))
  | fired (outcome : TimerOutcome)
  | nothing

/-- An act of the host with its answer. -/
structure Step where
  act : Act
  answer : Answer

/-- What happened so far, the latest step first. -/
abbrev History := List Step

def Answer.firings : Answer → List (Firing Event)
  | .popped firings => firings
  | _ => []

def Act.deliveries : Act → List (Firing Event)
  | .deliver firing => [firing]
  | _ => []

namespace History

/-- The firings that the host took out of the timer service. -/
def popped (history : History) : List (Firing Event) := history.flatMap (·.answer.firings)

/-- The firings that the host told the engine of. -/
def delivered (history : History) : List (Firing Event) := history.flatMap (·.act.deliveries)

/-- Every delivered firing was popped before; it may be delivered late and more than once. -/
def Honest : History → Prop
  | [] => True
  | step :: earlier => (∀ firing ∈ step.act.deliveries, firing ∈ popped earlier) ∧ Honest earlier

instance decidableHonest : (history : History) → Decidable history.Honest
  | [] => .isTrue trivial
  | step :: earlier =>
      have := decidableHonest earlier
      inferInstanceAs (Decidable ((∀ firing ∈ step.act.deliveries, firing ∈ popped earlier) ∧ _))

end History

namespace Engine

/-- Have the host do one thing. -/
def perform (engine : Engine) : Act → Answer × Engine
  | .receive inFace request hops => (engine.receive inFace request hops).map .decided id
  | .respond pending inFace response => (engine.respond pending inFace response).map .responded id
  | .detectLoop request => (engine.loopDetected request).map (fun decision => .decided (.ok decision)) id
  | .expire pending => (.nothing, engine.expired pending)
  | .refuse inFace nack pending => (.nothing, engine.refused inFace nack pending)
  | .cancel name => (engine.cancelDeferred name).map .cancelled id
  | .sweep => engine.sweep.map .swept id
  | .shutdown => (.nothing, engine.shutdown)
  | .popDue limit => (engine.timers.popped (engine.timers.popDue limit)).map .popped engine.withTimers
  | .fireNext => (engine.timers.popped engine.timers.fireNext).map .popped engine.withTimers
  | .advance step => (engine.timers.advance step).map .popped engine.withTimers
  | .advanceTo target => (.nothing, engine.withTimers (engine.timers.advanceTo target))
  | .deliver firing => (engine.fire firing.handle firing.event).map .fired id

theorem perform_deliver (engine : Engine) (firing : Firing Event) :
    engine.perform (.deliver firing) = (engine.fire firing.handle firing.event).map .fired id := rfl

/-- An engine reached from another by some history. -/
inductive Run (start : Engine) : History → Engine → Prop where
  | start : Run start [] start
  | act {history : History} {engine : Engine} (before : Run start history engine) (act : Act) :
      Run start (⟨act, (engine.perform act).1⟩ :: history) (engine.perform act).2

/-- Have the host do several things, given as in a history with the latest first. -/
def performAll (engine : Engine) : List Act → History × Engine
  | [] => ([], engine)
  | act :: earlier =>
      let (history, before) := engine.performAll earlier
      let (answer, after) := before.perform act
      (⟨act, answer⟩ :: history, after)

/-- The engine with another record table. -/
def withRecords (engine : Engine) (records : Records) : Engine :=
  { engine with book := { engine.book with records } }

theorem run_performAll (engine : Engine) (acts : List Act) :
    Run engine (engine.performAll acts).1 (engine.performAll acts).2 := by
  induction acts with
  | nil => exact .start
  | cons act earlier ih => exact .act ih act

/-- The engine in the middle of a history. -/
theorem Run.split {start engine : Engine} {between before : History}
    (run : Run start (between ++ before) engine) :
    ∃ middle, Run start before middle ∧ Run middle between engine := by
  induction between generalizing engine with
  | nil => exact ⟨engine, run, .start⟩
  | cons step earlier ih =>
    cases run with
    | act run act =>
      obtain ⟨middle, first, second⟩ := ih run
      exact ⟨middle, first, .act second act⟩

/-- A new engine is the starting state of its settings. -/
theorem eq_start_of_create {config : Config Float} {entropy : UInt64} {built : Engine}
    (created : Engine.create config entropy = .ok built) :
    ∃ instanceName seed, built = Engine.start config instanceName seed := by
  simp only [Engine.create, bind, Except.bind, pure, Except.pure] at created
  split at created
  · cases created
  · split at created
    · split at created
      · cases created
      · rename_i instanceName _
        exact ⟨instanceName, _, (Except.ok.inj created).symm⟩
    · exact ⟨_, _, (Except.ok.inj created).symm⟩

end Engine

namespace Sample

/-- A relay to try runs on. -/
def relay (variant : Variant) : Engine :=
  .start ((Config.standard.withVariant variant).withSeed 7) InstanceName.canonical 7

theorem create_relay (variant : Variant) :
    Engine.create (relay variant).config 0 = .ok (relay variant) := by
  have valid : (relay variant).config.problems = [] := by
    cases variant <;> decide +kernel
  have checked : (relay variant).config.check = .ok () := by
    simp only [Config.check, valid]
  simp only [Engine.create, checked]
  rfl

def medium : Face := ⟨⟨257⟩, .broadcast⟩

/-- A place on the equator, its longitude given as a bit pattern. -/
def place (longitude : UInt64) : Coordinate := ⟨.zero, ⟨longitude⟩⟩

/-- A request on its way from 2 degrees east to 10, which the relay hears at 5. -/
def request (component : String) : Request :=
  ⟨⟨[component]⟩, 1, some 1, some ⟨place 0x4014000000000000, place 0x4000000000000000,
    place 0x4024000000000000⟩⟩

def hears (component : String) : Act := .receive medium (request component) [⟨medium, 0⟩]

/-- The relay when it has heard one request. -/
def holding (variant : Variant) : Engine := ((relay variant).perform (hears "a")).2

theorem run_holding (variant : Variant) :
    Engine.Run (relay variant) [⟨hears "a", ((relay variant).perform (hears "a")).1⟩]
      (holding variant) :=
  .act .start _

end Sample

end Overhear
