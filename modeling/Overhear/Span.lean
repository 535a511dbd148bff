/-! Lengths of time and points in time, both in whole nanoseconds. A point in time is the length of
time since the clock started. -/
namespace Overhear

abbrev Nanos := Nat

namespace Nanos

def ofMicros (count : Nat) : Nanos := 1000 * count

def ofMillis (count : Nat) : Nanos := 1000000 * count

def ofSeconds (count : Nat) : Nanos := 1000000000 * count

def seconds (span : Nanos) : Nat := span / 1000000000

def subseconds (span : Nanos) : Nat := span % 1000000000

/-- The first whole millisecond that is not before a point in time. -/
def upToMillis (point : Nanos) : Nanos := ofMillis ((point + 999999) / 1000000)

/-- The longest span that 64 bits of seconds and a count of nanoseconds can hold. -/
def longest : Nanos := ofSeconds (Nat.pow 2 64 - 1) + 999999999

/-- A span from a count of seconds and one of nanoseconds that may exceed a second; nothing when the
carried seconds no longer fit 64 bits. -/
def ofParts? (wholeSeconds nanoseconds : Nat) : Option Nanos :=
  let span := ofSeconds wholeSeconds + nanoseconds
  if span ≤ longest then some span else none

/-- A point in time given relative to the start of the clock; points before the start count as it. -/
def sinceStart (offset : Int) : Nanos := offset.toNat

end Nanos

end Overhear
