import Overhear.Config
import Overhear.Random.Draw

/-! Weights and suppression delays. A relay weighs how far it brings a request toward its
destination and how well a face has delivered; it then waits for a random time around one delay
unit divided by that weight. -/
namespace Overhear

open Scalar

section

variable {α : Type} [Scalar α]

/-- How much nearer than the hop before a relay is: one less the ratio of its own distance to the
larger of the two distances. Nothing when that is zero or not finite. -/
def progress (own previous : α) : α :=
  let larger := max own previous
  if le larger zero || !isFinite larger then zero else one - own / larger

def combinedWeight (locationShare : α) (progress : Option α) (score : α) : α :=
  match progress with
  | some progress => locationShare * (one - progress) + (one - locationShare) * score
  | none => (one - locationShare) * score

/-- A span in seconds: the whole seconds and the fraction are converted separately. -/
def secondsOf (span : Nanos) : α :=
  ofNat span.seconds + ofNat span.subseconds / ofNat 1000000000

namespace DelayConfig

variable (config : DelayConfig α)

/-- Ends of the random delay for a weight, in delay units; none when no delay is called for. -/
def jitterBounds (weight : α) : Option (α × α) :=
  if !isFinite weight || le weight zero then none
  else
    let base := one / weight
    some (base * config.jitterLow, base * config.jitterHigh)

/-- A span that a count of microseconds rounds to, at most the cap. -/
def microsToDelay (micros : α) : Nanos :=
  if isNaN micros || le micros zero then 0
  else
    let delay := Nanos.ofMicros (roundWord micros)
    match config.cap with
    | some cap => min delay cap
    | none => delay

def unitsToDelay (units : α) : Nanos :=
  config.microsToDelay (units * secondsOf config.unit * ofNat 1000000)

def isRandom (weight : α) : Bool :=
  match config.jitterBounds weight with
  | some (low, high) => lt low high
  | none => false

/-- The delay for a weight when the random draw falls on `share` of the way between its ends. -/
def delayAt (weight share : α) : Except Random.SpanError Nanos :=
  match config.jitterBounds weight with
  | none => .ok 0
  | some (low, high) =>
      if lt low high then
        if isFinite (high - low) then .ok (config.unitsToDelay (Random.pointAt share low high))
        else .error .unbounded
      else .ok (config.unitsToDelay low)

end DelayConfig

end

/-- Draw the delay for a weight. A word is taken from the source only for a random delay. -/
def DelayConfig.draw {σ : Type} (config : DelayConfig Float) (next : σ → UInt64 × σ)
    (weight : Float) (source : σ) : Except Random.SpanError Nanos × σ :=
  if config.isRandom weight then
    let (word, source) := next source
    (config.delayAt weight (Random.unitOfWord word), source)
  else (config.delayAt weight zero, source)

def DistanceModel.progress (model : DistanceModel) (own previous destination : Coordinate) : Float :=
  Overhear.progress (model.distance own destination) (model.distance previous destination)

end Overhear
