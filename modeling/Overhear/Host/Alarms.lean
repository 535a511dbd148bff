import Overhear.Timers

/-! Timers on a clock that runs by itself. What fires is put into an inbox at once, and stays there
until the host takes it out. -/
namespace Overhear

structure Alarms (ε : Type) where
  timers : Timers ε := {}
  inbox : List (Firing ε) := []

namespace Alarms

variable {ε : Type}

def pendingCount (alarms : Alarms ε) : Nat := alarms.timers.pendingCount

def pass (alarms : Alarms ε) (step : Nanos) : Alarms ε :=
  let (fired, timers) := alarms.timers.advance step
  ⟨timers, alarms.inbox ++ fired⟩

/-- Arm a timer. One that is due at once fires at once. -/
def arm (alarms : Alarms ε) (delay : Nanos) (event : ε) : Handle × Alarms ε :=
  let (handle, timers) := alarms.timers.arm delay event
  (handle, { alarms with timers }.pass 0)

/-- Disarm a timer. What is in the inbox stays there. -/
def cancel (alarms : Alarms ε) (handle : Handle) : Alarms ε :=
  { alarms with timers := alarms.timers.cancel handle }

def advance (alarms : Alarms ε) (step : Nanos) : List (Firing ε) × Alarms ε :=
  let alarms := alarms.pass step
  (alarms.inbox, { alarms with inbox := [] })

end Alarms

end Overhear
