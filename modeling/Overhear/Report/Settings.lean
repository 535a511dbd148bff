import Overhear.Config
import Overhear.Document.Packets
import Overhear.Report.Packets
import Overhear.Strategy.InstanceName

/-! Reports of the settings of an engine and of what is wrong with them. -/
namespace Overhear.Report

def config (config : Config Float) : Document :=
  let { scores, delays, strategy } := config
  .record
    [("ema_alpha", float scores.smoothing), ("decay_factor", float scores.decayFactor),
      ("decay_period_ns", nanos scores.decayPeriod),
      ("record_lifetime_ns", nanos scores.recordLifetime),
      ("score_refresh_period_ns", nanos scores.refreshPeriod),
      ("bootstrap_name", name scores.bootstrap), ("weight_alpha", float delays.locationShare),
      ("jitter_low", float delays.jitterLow), ("jitter_high", float delays.jitterHigh),
      ("delay_unit_ns", nanos delays.unit), ("max_delay_ns", option nanos delays.cap),
      ("distance_model", Codec.distanceModel.write delays.distances),
      ("max_hop_count", nat strategy.hopLimit),
      ("instance_name", option .text strategy.instanceName),
      ("variant", .text strategy.variant.text), ("seed", option word delays.seed)]

def problemName : ConfigProblem → String
  | .smoothingOutOfRange => "EmaAlphaOutOfRange"
  | .decayFactorOutOfRange => "DecayFactorOutOfRange"
  | .zeroDecayPeriod => "ZeroDecayPeriod"
  | .zeroRefreshPeriod => "ZeroRefreshPeriod"
  | .zeroRecordLifetime => "ZeroRecordLifetime"
  | .locationShareOutOfRange => "WeightAlphaOutOfRange"
  | .nonPositiveJitter => "NonPositiveJitter"
  | .jitterInverted => "JitterBoundsInverted"
  | .zeroUnit => "ZeroDelayUnit"
  | .capBelowUnit => "MaxDelayBelowUnit"

def problem (problem : ConfigProblem) : Document :=
  .list [.text (problemName problem), .text problem.message]

def instanceName (parts : InstanceName) : Document :=
  .record
    [("strategy_name", name parts.strategy), ("version", option word parts.version),
      ("parameters", list .text parts.parameters)]

end Overhear.Report
