import Overhear.Span
import Std.Data.ExtTreeMap

/-! One-shot timers on a virtual clock. Time moves only when the host says so, and a timer that
came due is handed to the host in order of its deadline, timers with the same deadline in the order
they were armed. The queue finds the next timer to fire, the deadlines find a timer by handle. -/
namespace Overhear

/-- The number that a timer is known by. No two timers of a service share one. -/
structure Handle where
  number : Nat
deriving DecidableEq, Repr

namespace Handle

instance : Ord Handle := ⟨compareOn Handle.number⟩

instance : Std.TransOrd Handle := inferInstanceAs (Std.TransCmp (compareOn Handle.number))

instance : Std.LawfulEqOrd Handle where
  eq_of_compare {a b} same := by
    have : a.number = b.number := Std.LawfulEqOrd.eq_of_compare (α := Nat) same
    cases a; cases b; simp_all

def text (handle : Handle) : String := "timer#" ++ toString handle.number

end Handle

/-- A timer's place in the firing order. -/
structure Slot where
  deadline : Nanos
  handle : Handle
deriving DecidableEq, Repr

namespace Slot

instance : Ord Slot := ⟨compareLex (compareOn Slot.deadline) (compareOn Slot.handle)⟩

instance : Std.TransOrd Slot :=
  inferInstanceAs (Std.TransCmp (compareLex (compareOn Slot.deadline) (compareOn Slot.handle)))

theorem compare_eq (a b : Slot) :
    compare a b = (compare a.deadline b.deadline).then (compare a.handle b.handle) := rfl

instance : Std.LawfulEqOrd Slot where
  eq_of_compare {a b} same := by
    rw [compare_eq, Ordering.then_eq_eq] at same
    have sameDeadline : a.deadline = b.deadline := Std.LawfulEqOrd.eq_of_compare same.1
    have sameHandle : a.handle = b.handle := Std.LawfulEqOrd.eq_of_compare same.2
    cases a; cases b; simp_all

end Slot

structure Firing (ε : Type) where
  handle : Handle
  event : ε
deriving DecidableEq, Repr

structure Timers (ε : Type) where
  elapsed : Nanos := 0
  next : Handle := ⟨1⟩
  queue : Std.ExtTreeMap Slot ε := ∅
  deadlines : Std.ExtTreeMap Handle Nanos := ∅

namespace Timers

variable {ε : Type}

def pendingCount (timers : Timers ε) : Nat := timers.deadlines.size

def isPending (timers : Timers ε) (handle : Handle) : Bool := timers.deadlines.contains handle

/-- How long until an armed timer is due; nothing is left of one that is overdue. -/
def remaining? (timers : Timers ε) (handle : Handle) : Option Nanos :=
  timers.deadlines[handle]?.map (· - timers.elapsed)

def firstSlot? (timers : Timers ε) : Option Slot := timers.queue.keys.head?

def nextDeadline? (timers : Timers ε) : Option Nanos := timers.firstSlot?.map Slot.deadline

/-- No deadline is later after the start of the clock than the longest span: the latest one is not. -/
def inRange (timers : Timers ε) : Bool :=
  timers.queue.maxKey?.all fun slot => slot.deadline ≤ Nanos.longest

def arm (timers : Timers ε) (delay : Nanos) (event : ε) : Handle × Timers ε :=
  let handle := timers.next
  let deadline := timers.elapsed + delay
  (handle, { timers with
    next := ⟨handle.number + 1⟩
    queue := timers.queue.insert ⟨deadline, handle⟩ event
    deadlines := timers.deadlines.insert handle deadline })

def cancel (timers : Timers ε) (handle : Handle) : Timers ε :=
  match timers.deadlines[handle]? with
  | none => timers
  | some deadline => { timers with
      queue := timers.queue.erase ⟨deadline, handle⟩
      deadlines := timers.deadlines.erase handle }

def cancelAll (timers : Timers ε) (handles : List Handle) : Timers ε :=
  handles.foldl cancel timers

/-- Fire the first timer in the queue if it is due by `limit`. The clock moves to its deadline,
unless it is past that already. -/
def popDue (timers : Timers ε) (limit : Nanos) : Option (Firing ε × Timers ε) := do
  let slot ← timers.firstSlot?
  let event ← timers.queue[slot]?
  if slot.deadline ≤ limit then
    some (⟨slot.handle, event⟩, { timers with
      elapsed := max timers.elapsed slot.deadline
      queue := timers.queue.erase slot
      deadlines := timers.deadlines.erase slot.handle })
  else none

def fireNext (timers : Timers ε) : Option (Firing ε × Timers ε) := do
  timers.popDue (← timers.nextDeadline?)

/-- Move the clock to a point in time without firing anything; it never goes back. -/
def advanceTo (timers : Timers ε) (target : Nanos) : Timers ε :=
  { timers with elapsed := max timers.elapsed target }

def popUpTo (limit : Nanos) : Nat → Timers ε → List (Firing ε) × Timers ε
  | 0, timers => ([], timers)
  | count + 1, timers =>
      match timers.popDue limit with
      | none => ([], timers)
      | some (firing, rest) =>
          let (firings, final) := popUpTo limit count rest
          (firing :: firings, final)

/-- Fire every timer that is due by `limit`; none is armed meanwhile, so the queue is bound enough. -/
def popAllDue (timers : Timers ε) (limit : Nanos) : List (Firing ε) × Timers ε :=
  popUpTo limit timers.queue.size timers

def advance (timers : Timers ε) (step : Nanos) : List (Firing ε) × Timers ε :=
  let limit := timers.elapsed + step
  let (firings, rest) := timers.popAllDue limit
  (firings, rest.advanceTo limit)

end Timers

end Overhear
