import Overhear.Engine.Events

/-! How a host moves virtual time for something that arms timers: it pops timers that came due and
delivers each of them, and what is delivered may arm timers anew. -/
namespace Overhear

/-- A state that owns timers and is told when they fire. -/
class TimerDriven (σ : Type) (ρ : outParam Type) where
  timers : σ → Timers Event
  setTimers : σ → Timers Event → σ
  fire : σ → Handle → Event → ρ × σ

structure Delivery (ρ : Type) where
  handle : Handle
  time : Nanos
  event : Event
  outcome : ρ

namespace TimerDriven

variable {σ ρ : Type} [TimerDriven σ ρ]

def deliver (state : σ) (firing : Firing Event) : Delivery ρ × σ :=
  let (outcome, after) := fire state firing.handle firing.event
  (⟨firing.handle, (timers state).elapsed, firing.event, outcome⟩, after)

def fireDue (limit : Nanos) (state : σ) : Option (Delivery ρ × σ) := do
  let (firing, rest) ← (timers state).popDue limit
  return deliver (setTimers state rest) firing

def fireNext (state : σ) : Option (Delivery ρ × σ) := do
  let (firing, rest) ← (timers state).fireNext
  return deliver (setTimers state rest) firing

/-- Deliver one timer after another while they are due by `limit`, at most `most` of them. -/
def drain (limit : Nanos) : Nat → σ → List (Delivery ρ) × σ
  | 0, state => ([], state)
  | most + 1, state =>
      match fireDue limit state with
      | none => ([], state)
      | some (delivery, after) =>
          let (deliveries, final) := drain limit most after
          (delivery :: deliveries, final)

def advanceTo (target : Nanos) (state : σ) : σ :=
  setTimers state ((timers state).advanceTo target)

/-- Let `step` pass, delivering each timer at its deadline, at most `most` of them. -/
def run (most : Nat) (step : Nanos) (state : σ) : List (Delivery ρ) × σ :=
  let limit := (timers state).elapsed + step
  let (deliveries, after) := drain limit most state
  (deliveries, advanceTo limit after)

def deliverAll : List (Firing Event) → σ → List (Delivery ρ) × σ
  | [], state => ([], state)
  | firing :: rest, state =>
      let (delivery, after) := deliver state firing
      let (deliveries, final) := deliverAll rest after
      (delivery :: deliveries, final)

/-- Fire every timer that is due by `limit` together, and deliver them in the order of arming. -/
def fireTogether (limit : Nanos) (state : σ) : List (Delivery ρ) × σ :=
  let (firings, rest) := (timers state).popAllDue limit
  deliverAll (firings.mergeSort fun a b => a.handle.number ≤ b.handle.number)
    (setTimers state rest)

/-- Let `step` pass at once, then deliver every timer that came due meanwhile. -/
def advance (step : Nanos) (state : σ) : List (Delivery ρ) × σ :=
  let (firings, rest) := (timers state).advance step
  deliverAll firings (setTimers state rest)

end TimerDriven

/-- A score book by itself tells of decay and refresh timers whether they counted. -/
instance {α : Type} [Scalar α] : TimerDriven (ScoreBook α) (Option Bool) where
  timers := ScoreBook.timers
  setTimers book timers := { book with timers }
  fire book handle
    | .forward _ => (none, book)
    | .decay name face => (book.fireDecay handle ⟨name, face⟩).map some id
    | .refresh => (book.fireRefresh handle).map some id

instance : TimerDriven Engine TimerOutcome where
  timers := Engine.timers
  setTimers := Engine.withTimers
  fire := Engine.fire

end Overhear
