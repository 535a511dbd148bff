import Overhear.Scalar

/-! What one face has delivered under one name: two counters, their ratio at the last update, and a
score that smooths the ratios. -/
namespace Overhear

/-- Requests sent and responses received since the last update, the delivery ratio at that update, and the
smoothed ratio. -/
structure Stats (α : Type) where
  requests : UInt64
  responses : UInt64
  ratio : α
  score : α
deriving Repr

namespace Stats

open Scalar

variable {α : Type} [Scalar α]

def fresh : Stats α := ⟨0, 0, zero, zero⟩

/-- The ratio of responses to requests. More responses than requests count as perfect delivery, since
the record was then opened by a response; no traffic at all counts as none delivered. -/
def pendingRatio (stats : Stats α) : α :=
  if stats.responses ≤ stats.requests then
    if 0 < stats.requests then ofNat stats.responses.toNat / ofNat stats.requests.toNat else zero
  else one

/-- Fold the counters into the score with the given share of the newest ratio, and reset them. -/
def update (smoothing : α) (stats : Stats α) : Stats α where
  requests := 0
  responses := 0
  ratio := stats.pendingRatio
  score := smoothing * stats.pendingRatio + (one - smoothing) * stats.score

def decay (factor : α) (stats : Stats α) : Stats α :=
  { stats with score := stats.score * factor }

def countRequest (stats : Stats α) : Stats α := { stats with requests := stats.requests + 1 }

def countResponse (stats : Stats α) : Stats α := { stats with responses := stats.responses + 1 }

end Stats

end Overhear
