import Overhear.Location.Coordinate
import Overhear.Name
import Overhear.Span

/-! The settings of a forwarding engine, the ready-made sets of them, and what can be wrong. -/
namespace Overhear

/-- How a relay decides when to repeat a request: after a delay that falls with a weight of delivery score
and position, at once, after a delay that falls with the distance from the hop before, or after one that
grows with the distance left. -/
inductive Variant where
  | weighted
  | broadcast
  | vndn
  | navigo
deriving DecidableEq, Repr

namespace Variant

def text : Variant → String
  | .weighted => "clf"
  | .broadcast => "broadcast"
  | .vndn => "vndn"
  | .navigo => "navigo"

/-- Whether responses of this variant announce a name and its destination. -/
def tracksAnnouncements (variant : Variant) : Bool := variant == .weighted

end Variant

/-- A score takes in the newest delivery ratio with the share `smoothing`. The bootstrap record is credited
when no record fits a request. -/
structure ScoreConfig (α : Type) where
  smoothing : α
  decayFactor : α
  decayPeriod : Nanos
  recordLifetime : Nanos
  refreshPeriod : Nanos
  bootstrap : Name

/-- The delay is drawn between `jitterLow` and `jitterHigh` times `unit` over the weight, in which the
location has the share `locationShare`. Without a seed the delays differ from run to run. -/
structure DelayConfig (α : Type) where
  locationShare : α
  jitterLow : α
  jitterHigh : α
  unit : Nanos
  cap : Option Nanos
  distances : DistanceModel
  seed : Option UInt64

structure StrategyConfig where
  variant : Variant
  hopLimit : Nat
  instanceName : Option String

structure Config (α : Type) where
  scores : ScoreConfig α
  delays : DelayConfig α
  strategy : StrategyConfig

def ScoreConfig.standard : ScoreConfig Float where
  smoothing := 0.125
  decayFactor := 0.9
  decayPeriod := Nanos.ofSeconds 10
  recordLifetime := Nanos.ofSeconds 3000
  refreshPeriod := Nanos.ofSeconds 6
  bootstrap := Name.root

def DelayConfig.standard : DelayConfig Float where
  locationShare := 0.5
  jitterLow := 0.5
  jitterHigh := 1.5
  unit := Nanos.ofMillis 1
  cap := none
  distances := .planar
  seed := none

def StrategyConfig.standard : StrategyConfig where
  variant := .weighted
  hopLimit := 5
  instanceName := none

namespace Config

def standard : Config Float := ⟨.standard, .standard, .standard⟩

def withVariant {α : Type} (config : Config α) (variant : Variant) : Config α :=
  { config with strategy := { config.strategy with variant } }

def withSeed {α : Type} (config : Config α) (seed : UInt64) : Config α :=
  { config with delays := { config.delays with seed := some seed } }

/-- For dense neighbourhoods that change fast: scores react sooner and age sooner. -/
def denseUrban : Config Float :=
  { standard with
    scores :=
      { ScoreConfig.standard with
        smoothing := 0.25
        decayPeriod := Nanos.ofSeconds 5
        refreshPeriod := Nanos.ofSeconds 3 } }

/-- For sparse networks with lasting contacts: scores are smoothed longer and decay slowly. -/
def sparseNetwork : Config Float :=
  { standard with
    scores :=
      { ScoreConfig.standard with
        smoothing := 0.0625
        decayFactor := 0.95
        decayPeriod := Nanos.ofSeconds 30
        refreshPeriod := Nanos.ofSeconds 12 } }

end Config

inductive ConfigProblem where
  | smoothingOutOfRange
  | decayFactorOutOfRange
  | zeroDecayPeriod
  | zeroRefreshPeriod
  | zeroRecordLifetime
  | locationShareOutOfRange
  | nonPositiveJitter
  | jitterInverted
  | zeroUnit
  | capBelowUnit
deriving DecidableEq, Repr

def ConfigProblem.message : ConfigProblem → String
  | .smoothingOutOfRange => "ema_alpha must be in (0, 1]"
  | .decayFactorOutOfRange => "decay_factor must be in [0, 1]"
  | .zeroDecayPeriod => "decay_period must be non-zero"
  | .zeroRefreshPeriod => "score_refresh_period must be non-zero"
  | .zeroRecordLifetime => "record_lifetime must be non-zero"
  | .locationShareOutOfRange => "weight_alpha must be in [0, 1]"
  | .nonPositiveJitter => "jitter bounds must be positive"
  | .jitterInverted => "jitter_low exceeds jitter_high"
  | .zeroUnit => "delay_unit must be non-zero"
  | .capBelowUnit => "max_delay is shorter than delay_unit"

section Problems

variable {α : Type} [Scalar α]

open Scalar

/-- Each problem of the score settings with whether it is there, in the order they are reported. -/
def ScoreConfig.checks (config : ScoreConfig α) : List (ConfigProblem × Bool) :=
  [(.smoothingOutOfRange, !(lt zero config.smoothing && le config.smoothing one)),
    (.decayFactorOutOfRange, !within zero one config.decayFactor),
    (.zeroDecayPeriod, config.decayPeriod == 0),
    (.zeroRefreshPeriod, config.refreshPeriod == 0),
    (.zeroRecordLifetime, config.recordLifetime == 0)]

def DelayConfig.checks (config : DelayConfig α) : List (ConfigProblem × Bool) :=
  [(.locationShareOutOfRange, !within zero one config.locationShare),
    (.nonPositiveJitter, !(lt zero config.jitterLow && lt zero config.jitterHigh)),
    (.jitterInverted, lt config.jitterHigh config.jitterLow),
    (.zeroUnit, config.unit == 0),
    (.capBelowUnit, config.cap.any (· < config.unit))]

/-- Everything that is wrong, in a fixed order. -/
def Config.problems (config : Config α) : List ConfigProblem :=
  (config.scores.checks ++ config.delays.checks).filterMap fun check =>
    if check.2 then some check.1 else none

def Config.isValid (config : Config α) : Bool := config.problems.isEmpty

end Problems

end Overhear
