import Overhear.Config
import Overhear.Document.Packets
import Overhear.Logging.Settings

/-! How the settings of an engine and of its log are kept in documents. -/
namespace Overhear.Codec

def scoreConfig : Codec (ScoreConfig Float) where
  read document := do
    let [smoothing, factor, decay, lifetime, refresh, bootstrap] ← document.fields
      ["ema_alpha", "decay_factor", "decay_period", "record_lifetime", "score_refresh_period",
        "bootstrap_name"] | none
    return ⟨← float.required smoothing, ← float.required factor, ← span.required decay,
      ← span.required lifetime, ← span.required refresh, ← name.required bootstrap⟩
  write config := .record
    [("ema_alpha", float.write config.smoothing), ("decay_factor", float.write config.decayFactor),
      ("decay_period", span.write config.decayPeriod),
      ("record_lifetime", span.write config.recordLifetime),
      ("score_refresh_period", span.write config.refreshPeriod),
      ("bootstrap_name", name.write config.bootstrap)]

def delayConfig : Codec (DelayConfig Float) where
  read document := do
    let [share, low, high, unit, cap, distances, seed] ← document.fields
      ["weight_alpha", "jitter_low", "jitter_high", "delay_unit", "max_delay", "distance_model",
        "rng_seed"] | none
    return ⟨← float.required share, ← float.required low, ← float.required high,
      ← span.required unit, ← span.optional cap, ← distanceModel.required distances,
      ← word64.optional seed⟩
  write config := .record
    [("weight_alpha", float.write config.locationShare), ("jitter_low", float.write config.jitterLow),
      ("jitter_high", float.write config.jitterHigh), ("delay_unit", span.write config.unit),
      ("max_delay", span.option.write config.cap),
      ("distance_model", distanceModel.write config.distances),
      ("rng_seed", word64.option.write config.seed)]

def variant : Codec Variant :=
  choice [("Clf", .weighted), ("Broadcast", .broadcast), ("Vndn", .vndn), ("Navigo", .navigo)]

def strategyConfig : Codec StrategyConfig where
  read document := do
    let [kind, limit, instanceName] ←
      document.fields ["variant", "max_hop_count", "instance_name"] | none
    return ⟨← variant.required kind, ← (natBelow (Nat.pow 2 8)).required limit,
      ← text.optional instanceName⟩
  write config := .record
    [("variant", variant.write config.variant), ("max_hop_count", word.write config.hopLimit),
      ("instance_name", text.option.write config.instanceName)]

def config : Codec (Config Float) where
  read document := do
    let [scores, delays, strategy] ← document.fields ["measurement", "weight", "strategy"] | none
    return ⟨← scoreConfig.required scores, ← delayConfig.required delays,
      ← strategyConfig.required strategy⟩
  write config := .record
    [("measurement", scoreConfig.write config.scores), ("weight", delayConfig.write config.delays),
      ("strategy", strategyConfig.write config.strategy)]

open Logging

def consoleSettings : Codec ConsoleSettings where
  read document := do
    let [enabled, pretty, ansi] ← document.fields ["enabled", "pretty", "ansi"] | none
    return ⟨← bool.required enabled, ← bool.required pretty, ← bool.required ansi⟩
  write settings := .record
    [("enabled", .bool settings.enabled), ("pretty", .bool settings.pretty),
      ("ansi", .bool settings.ansi)]

def rotation : Codec Rotation :=
  choice [("Daily", .daily), ("Hourly", .hourly), ("Never", .never)]

def fileSettings : Codec FileSettings where
  read document := do
    let [directory, stem, kind, keep] ←
      document.fields ["directory", "prefix", "rotation", "max_files"] | none
    return ⟨← text.required directory, ← text.required stem, ← rotation.required kind,
      ← word.optional keep⟩
  write settings := .record
    [("directory", .text settings.directory), ("prefix", .text settings.stem),
      ("rotation", rotation.write settings.rotation), ("max_files", word.option.write settings.keep)]

def recordSettings : Codec RecordSettings where
  read document := do
    let [flatten, spans, current, thread, location] ← document.fields
      ["flatten_events", "include_spans", "include_current_span", "include_thread_info",
        "include_location"] | none
    return ⟨← bool.required flatten, ← bool.required spans, ← bool.required current,
      ← bool.required thread, ← bool.required location⟩
  write settings := .record
    [("flatten_events", .bool settings.flattenEvents), ("include_spans", .bool settings.spans),
      ("include_current_span", .bool settings.currentSpan),
      ("include_thread_info", .bool settings.threadInfo),
      ("include_location", .bool settings.location)]

/-- Levels by target: a record with any names, of which a later one replaces an equal earlier one. -/
def levels : Codec (Std.ExtTreeMap String String) where
  read
    | .record fields =>
        fields.foldlM (fun levels field => do
          return levels.insert field.1 (← text.read field.2)) ∅
    | _ => none
  write levels := .record (levels.toList.map fun (target, level) => (target, .text level))

def filters : Codec (Std.ExtTreeMap String String) where
  read document := do
    let [targets] ← document.fields ["targets"] | none
    levels.required targets
  write targets := .record [("targets", levels.write targets)]

def logSettings : Codec LogSettings where
  read document := do
    let [level, console, file, records, targets] ←
      document.fields ["default_level", "console", "file", "jsonl", "filters"] | none
    return ⟨← text.required level, ← consoleSettings.required console, ← fileSettings.optional file,
      ← recordSettings.required records, ← filters.required targets⟩
  write settings := .record
    [("default_level", .text settings.level), ("console", consoleSettings.write settings.console),
      ("file", fileSettings.option.write settings.file),
      ("jsonl", recordSettings.write settings.records), ("filters", filters.write settings.targets)]

end Overhear.Codec
