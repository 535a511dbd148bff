import Overhear.Proofs.Engine.Draining
import Overhear.Proofs.Engine.Rivals

/-! Whether the deadlines of an engine are spans in range. A drawn delay is limited by the count of microseconds
that it is rounded to, far below the longest span. The periods of the scores are taken as they are set, and the
check of the settings lets any through that is not zero. -/
namespace Overhear

open Floating

namespace DelayConfig

variable {σ : Type} {delays : DelayConfig Float} {weight share : Float} {delay : Nanos}

theorem microsToDelay_le_longestWait (delays : DelayConfig Float) (micros : Float) :
    delays.microsToDelay micros ≤ Exact.longestWait := by
  unfold microsToDelay
  split
  · exact Nat.zero_le _
  · have counted : Scalar.roundWord micros ≤ Nat.pow 2 64 - 1 := (nearestWord_le micros).trans (min_le_right _ _)
    have limited : Nanos.ofMicros (Scalar.roundWord micros) ≤ Exact.longestWait :=
      Nat.mul_le_mul_left 1000 counted
    dsimp only
    split
    · exact (min_le_left _ _).trans limited
    · exact limited

theorem delayAt_le_longestWait (given : delays.delayAt weight share = .ok delay) :
    delay ≤ Exact.longestWait := by
  unfold delayAt at given
  split at given
  · cases given
    exact Nat.zero_le _
  · split at given
    · split at given
      · cases given
        exact microsToDelay_le_longestWait delays _
      · cases given
    · cases given
      exact microsToDelay_le_longestWait delays _

theorem draw_le_longestWait {next : σ → UInt64 × σ} {source : σ}
    (drawn : (delays.draw next weight source).1 = .ok delay) : delay ≤ Exact.longestWait := by
  obtain ⟨share, same⟩ := exists_share_draw delays next weight source
  exact delayAt_le_longestWait (same.symm.trans drawn)

end DelayConfig

namespace Engine

variable {engine after : Engine} {request : Request} {face out : FaceId} {others : List FaceId} {delay : Nanos}
  {handle : Handle}

theorem wait_of_relayByWeight {tag : LocationTag}
    (answered : (engine.relayByWeight request tag face others).1 = .ok (.deferred out delay handle)) :
    delay ≤ Exact.longestWait := by
  unfold relayByWeight at answered
  dsimp only at answered
  split at answered
  · cases answered
  · split at answered
    · cases answered
    · rename_i drawn
      cases answered
      exact DelayConfig.draw_le_longestWait drawn

theorem wait_of_relay
    (answered : (engine.relay request face others).1 = .ok (.deferred out delay handle)) :
    delay ≤ Exact.longestWait := by
  unfold relay at answered
  split at answered
  · unfold relayWeighted at answered
    split at answered
    · exact wait_of_relayByWeight answered
    · dsimp only at answered
      split at answered
      · cases answered
      · exact wait_of_relayByWeight answered
  · cases answered
  · unfold relayByHop at answered
    split at answered
    · cases answered
    · dsimp only at answered
      split at answered
      · cases answered
        exact DelayConfig.microsToDelay_le_longestWait _ _
      · cases answered
  · unfold relayByDistance at answered
    dsimp only at answered
    split at answered
    · cases answered
    · split at answered
      · cases answered
      · split at answered
        · cases answered
        · cases answered
          exact DelayConfig.microsToDelay_le_longestWait _ _

/-- Giving up a request only disarms its timer. -/
theorem arms_of_cancelDeferred {waits : Event → Nanos → Prop} (name : Name) {timers : Timers Event}
    (arms : (engine.cancelDeferred name).2.timers.Arms waits timers) : engine.timers.Arms waits timers :=
  arms.of_start (next_cancelDeferred engine name) (elapsed_cancelDeferred engine name)

theorem arms_cancelDeferred (waits : Event → Nanos → Prop) (engine : Engine) (name : Name) :
    engine.timers.Arms waits (engine.cancelDeferred name).2.timers :=
  arms_of_cancelDeferred name (.of_next rfl)

theorem arms_defer {waits : Event → Nanos → Prop} (engine : Engine) (request : Request) (face : FaceId)
    (waited : waits (.forward request.name) delay) :
    engine.timers.Arms waits (engine.defer request face delay).2.timers :=
  arms_of_cancelDeferred request.name (Timers.arms_arm _ waited)

theorem schedules_sendNow (engine : Engine) (request : Request) (faces : List FaceId) :
    engine.book.Schedules (engine.sendNow request faces).2.book := by
  rw [book_sendNow]
  refine List.foldlRecOn _ _ (ScoreBook.Schedules.refl _) fun book before key _ => ?_
  exact ScoreBook.Schedules.trans before (ScoreBook.schedules_creditRequest book key.name key.face)

theorem arms_receive (engine : Engine) (inFace : Face) (request : Request) (hops : List Hop) :
    engine.timers.Arms engine.book.config.Waits (engine.receive inFace request hops).2.timers := by
  have received := receive_received engine inFace request hops
  generalize answered : engine.receive inFace request hops = result at received ⊢
  cases received with
  | tooFar exceeds => exact .of_next rfl
  | overheard within held => exact arms_cancelDeferred _ engine request.name
  | produced within idle face => exact (ScoreBook.schedules_creditRequest engine.book _ _).arms
  | stranded within idle => exact .of_next rfl
  | relayed within idle relayed =>
    cases relayed with
    | sent tagged => exact (schedules_sendNow engine _ _).arms
    | @held sent tagged generator delay =>
      refine arms_defer { engine with generator } sent _ ?_
      -- How long the request waits is told by the answer.
      have deferred := congrArg Prod.fst answered
      rw [defer_fst] at deferred
      obtain ⟨first, rest, same⟩ := receive_of_deferred deferred
      rw [same] at deferred
      exact wait_of_relay deferred
    | dropped | unbounded => exact .of_next rfl

theorem arms_respond (engine : Engine) (pending : Pending) (inFace : Face) (response : Response) :
    engine.timers.Arms engine.book.config.Waits (engine.respond pending inFace response).2.timers := by
  have responded := respond_responded engine pending inFace response
  have same : (engine.cancelDeferred response.name).2.book.config = engine.book.config := by
    rw [book_cancelDeferred]
    rfl
  apply arms_of_cancelDeferred response.name
  rw [← same]
  generalize (engine.cancelDeferred response.name).2 = cancelled at responded ⊢
  generalize engine.respond pending inFace response = result at responded ⊢
  cases responded with
  | refused | passed => exact .of_next rfl
  | credited => exact (ScoreBook.schedules_creditUpward _ cancelled.book _ _).arms
  | @placed _ announced tag _ _ _ _ _ _ =>
    have learned := (ScoreBook.grows_setDestination cancelled.book announced tag.destination).schedules rfl
    exact (learned.trans (ScoreBook.schedules_creditUpward _ _ _ _)).arms

theorem arms_fire (engine : Engine) (handle : Handle) (event : Event) :
    engine.timers.Arms engine.book.config.Waits (engine.fire handle event).2.timers := by
  cases event with
  | forward name =>
    by_cases counts : engine.live (.forward name) = some handle
    · obtain ⟨deferral, held, rfl⟩ := live_forward_eq_some.mp counts
      rw [fire_forward held]
      exact (ScoreBook.schedules_creditRequest engine.book _ _).arms
    · rw [fire_of_stale counts]
      exact .of_next rfl
  | decay name face => exact engine.book.arms_fire ⟨handle, .decay name face⟩
  | refresh => exact engine.book.arms_fire ⟨handle, .refresh⟩

theorem arms_perform (sound : engine.timers.Sound) (act : Act) :
    engine.timers.Arms engine.book.config.Waits (engine.perform act).2.timers := by
  cases act with
  | receive inFace request hops => exact arms_receive engine inFace request hops
  | respond pending inFace response => exact arms_respond engine pending inFace response
  | detectLoop request => exact arms_cancelDeferred _ engine request.name
  | expire pending => exact arms_cancelDeferred _ engine pending.name
  | cancel name => exact arms_cancelDeferred _ engine name
  | refuse | advanceTo => exact .of_next rfl
  | sweep => exact .of_next (ScoreBook.next_sweep engine.book)
  | shutdown =>
    refine .of_next ?_
    exact (Timers.next_cancelAll _ _).trans (Timers.next_cancelAll _ _)
  | popDue limit => exact .of_next (sound.move (.popDue limit)).next
  | fireNext => exact .of_next (sound.move .fireNext).next
  | advance step => exact .of_next (sound.move (.advance step)).next
  | deliver firing => exact arms_fire engine firing.handle firing.event

/-- One thing is done with an engine, or with its scores alone. -/
inductive Proceeds (engine : Engine) : Engine → Prop where
  | act (act : Act) : Proceeds engine (engine.perform act).2
  | scores (act : ScoreBook.Act) : Proceeds engine { engine with book := (engine.book.perform act).2 }

/-- Some host has brought a new engine to this state. The timer service and the records that it gave the engine
may have been used before. -/
def Reachable (built engine : Engine) : Prop :=
  ∃ (calls : List (Timers.Call Event)) (records : Records),
    Reached ((built.withTimers (Timers.Run.after calls).timers).withRecords records) engine

theorem Proceeds.arms (proceeds : engine.Proceeds after) (sound : engine.timers.Sound) :
    engine.timers.Arms engine.book.config.Waits after.timers := by
  cases proceeds with
  | act act => exact arms_perform sound act
  | scores act => exact ScoreBook.arms_perform sound act

theorem Proceeds.sound (proceeds : engine.Proceeds after) (sound : engine.timers.Sound) : after.timers.Sound := by
  cases proceeds with
  | act act => exact (effect_perform act sound).sound_timers sound
  | scores act => exact (ScoreBook.effect_perform act sound).sound_timers sound

theorem Proceeds.armed_cases (proceeds : engine.Proceeds after) (sound : engine.timers.Sound) (handle : Handle)
    (entry : Nanos × Event) (armed : after.timers.armed? handle = some entry) :
    engine.timers.armed? handle = some entry ∨ engine.timers.next.number ≤ handle.number := by
  cases proceeds with
  | act act => exact (effect_perform act sound).armed_cases armed
  | scores act => exact (ScoreBook.effect_perform act sound).armed_cases armed

theorem config_of_reached {start : Engine} (reached : Reached start engine) :
    engine.book.config = start.book.config := by
  induction reached with
  | start => rfl
  | arm _ _ _ ih | disarm _ _ ih => exact ih
  | @act engine _ act ih => exact (config_book_perform engine act).trans ih
  | @scores engine _ act ih => exact (ScoreBook.config_perform engine.book act).trans ih

section

variable {config : Config Float} {entropy : UInt64} {built : Engine}

theorem Reachable.sound (created : Engine.create config entropy = .ok built) (reachable : Reachable built engine) :
    engine.timers.Sound := by
  obtain ⟨calls, records, reached⟩ := reachable
  exact ((paced_of_create created calls records).reached reached).sound

theorem Reachable.arms (created : Engine.create config entropy = .ok built) (reachable : Reachable built engine)
    (proceeds : engine.Proceeds after) : engine.timers.Arms config.scores.Waits after.timers := by
  have arms := proceeds.arms (reachable.sound created)
  obtain ⟨instanceName, seed, rfl⟩ := eq_start_of_create created
  obtain ⟨calls, records, reached⟩ := reachable
  rw [config_of_reached reached] at arms
  exact arms

/-- The first request that a new engine sends on a line arms a decay and the refresh, whenever that is. -/
theorem timers_first_request {hop : Hop} {hops : List Hop} (config : Config Float) (instanceName : Name)
    (seed : UInt64) (time : Nanos) (inFace : Face) (uncounted : request.hops = none)
    (lined : line? hops = some hop) :
    let engine := ((start config instanceName seed).perform (.advanceTo time)).2
    (engine.perform (.receive inFace request hops)).2.timers =
      ((engine.timers.arm config.scores.decayPeriod (.decay config.scores.bootstrap inFace.id)).2.arm
        config.scores.refreshPeriod .refresh).2 := by
  intro engine
  have within : ¬ engine.TooFar request := fun ⟨_, count, counted, _⟩ => by
    rw [uncounted] at counted
    cases counted
  have idle : engine.deferral? request.name = none := by
    simp [engine, perform, withTimers, start, deferral?]
  have unscored : ∀ name, engine.book.standing? name = none := by
    simp [engine, perform, withTimers, start, ScoreBook.standing?]
  have nearest : engine.book.nearestScored? request.name.statistics = none := by
    simp [engine, perform, withTimers, start, ScoreBook.nearestScored?]
  have sent := receive_of_within inFace hops within idle
  rw [lined] at sent
  simp only [perform, sent]
  refine ScoreBook.timers_creditRequest_of_unscored nearest ?_ rfl
  rw [ScoreBook.faceScore?, unscored]
  rfl

/-- Only short periods fit at the end of the first half, where the first request is sent on a line. -/
theorem short_of_fits (created : Engine.create config entropy = .ok built)
    (fits : ∀ engine after, Reachable built engine → engine.Proceeds after →
      engine.timers.elapsed < Nanos.ofSeconds (2 ^ 63) → engine.timers.Arms engine.timers.Fits after.timers) :
    config.scores.Short := by
  obtain ⟨instanceName, seed, rfl⟩ := eq_start_of_create created
  obtain ⟨time, half⟩ : ∃ time, time + 1 = Nanos.ofSeconds (2 ^ 63) := ⟨_, Nat.sub_add_cancel (by decide)⟩
  let late := ((start config instanceName seed).perform (.advanceTo time)).2
  have now : late.timers.elapsed = time := Nat.zero_max time
  rw [← now] at half
  let line : Face := ⟨⟨0⟩, .pointToPoint⟩
  let request : Request := ⟨Name.root, 0, none, none⟩
  have arms := fits late _ ⟨[], {}, .act .start _⟩ (.act (.receive line request [⟨line, 0⟩]))
    (half ▸ Nat.lt_succ_self _)
  rw [timers_first_request config instanceName seed time line rfl rfl] at arms
  obtain ⟨decay, refresh⟩ := Timers.fits_of_arms_both arms
  exact ⟨Timers.le_of_fits half decay, Timers.le_of_fits half refresh⟩

/-- Every timer that an engine arms is for a wait of its settings, in whatever state a host has brought it to.
While the clock is in the first half of the range, 2^63 seconds, that of a request always fits in. Those of the
scores do so in every run exactly when neither period is longer than the other half, and then no act takes the
service out of range. The check of the settings does not ask for that. The range is that of spans, up to the
longest; the clock is not limited to instants, of which a host may represent fewer. -/
theorem deadlines_fit_iff_short_periods (created : Engine.create config entropy = .ok built) :
    (∀ engine after, Reachable built engine → engine.Proceeds after →
      engine.timers.Arms config.scores.Waits after.timers ∧
      (engine.timers.elapsed < Nanos.ofSeconds (2 ^ 63) →
        engine.timers.Arms (fun event wait => event.isUpkeep = false → engine.timers.Fits event wait)
          after.timers)) ∧
    ((∀ engine after, Reachable built engine → engine.Proceeds after →
      engine.timers.elapsed < Nanos.ofSeconds (2 ^ 63) → engine.timers.Arms engine.timers.Fits after.timers) ↔
      config.scores.Short) ∧
    (config.scores.Short → ∀ engine after, Reachable built engine → engine.Proceeds after →
      engine.timers.elapsed < Nanos.ofSeconds (2 ^ 63) →
      engine.timers.inRange = true → after.timers.inRange = true) := by
  have fit : config.scores.Short → ∀ engine after, Reachable built engine → engine.Proceeds after →
      engine.timers.elapsed < Nanos.ofSeconds (2 ^ 63) →
      engine.timers.Arms engine.timers.Fits after.timers :=
    fun short engine after reachable proceeds early => (reachable.arms created proceeds).mono
      fun event wait waits => waits.fits early fun _ => short
  refine ⟨fun engine after reachable proceeds => ?_, ⟨short_of_fits created, fit⟩,
    fun short engine after reachable proceeds early inRange => ?_⟩
  · have arms := reachable.arms created proceeds
    refine ⟨arms, fun early => arms.mono fun event wait waits request => ?_⟩
    exact waits.fits early fun upkeep => absurd (request.symm.trans upkeep) Bool.false_ne_true
  · have sound := reachable.sound created
    exact (fit short engine after reachable proceeds early).inRange sound (proceeds.sound sound) inRange
      (proceeds.armed_cases sound)

end

end Engine

namespace Sample

/-- The standard settings with other periods of the scores. -/
def periods (decay refresh : Nanos) : Config Float :=
  { Config.standard with
    scores := { ScoreConfig.standard with decayPeriod := decay, refreshPeriod := refresh } }

/-- A relay with these periods when the clock reads a certain time. -/
def waiting (decay refresh time : Nanos) : Engine :=
  ((Engine.start (periods decay refresh) InstanceName.canonical 7).perform (.advanceTo time)).2

theorem create_periods {decay refresh : Nanos} (accepted : (periods decay refresh).check = .ok ()) :
    Engine.create (periods decay refresh) 7 =
      .ok (Engine.start (periods decay refresh) InstanceName.canonical 7) := by
  simp only [Engine.create, accepted]
  rfl

def line : Face := ⟨⟨257⟩, .pointToPoint⟩

/-- The relay hears a request on the medium and sends it on a line. -/
def sendsOn : Act := .receive ⟨⟨256⟩, .broadcast⟩ ⟨⟨["a"]⟩, 1, none, none⟩ [⟨line, 0⟩]

end Sample

namespace Engine

/-- With periods of half the range the last deadline of all is reached, and none is exceeded. -/
theorem deadlines_fit_iff_short_periods_halves :
    let half := Nanos.ofSeconds (2 ^ 63)
    let built := start (Sample.periods half half) InstanceName.canonical 7
    let last := ((Sample.waiting half half (half - 1)).perform Sample.sendsOn).2
    create (Sample.periods half half) 7 = .ok built ∧
      last.timers.armed? ⟨1⟩ = some (Nanos.longest, .decay Name.root ⟨256⟩) ∧
      ∀ engine after, Reachable built engine → engine.Proceeds after →
        engine.timers.elapsed < Nanos.ofSeconds (2 ^ 63) → engine.timers.Arms engine.timers.Fits after.timers := by
  intro half built last
  have created : create (Sample.periods half half) 7 = .ok built := Sample.create_periods (by decide +kernel)
  refine ⟨created, by decide +kernel, ?_⟩
  exact (deadlines_fit_iff_short_periods created).2.1.mpr ⟨le_rfl, le_rfl⟩

/-- The longest period there is passes the check. One nanosecond after its start a relay with this period cannot
arm a decay any more. -/
theorem longest_period_never_fits :
    let config := Sample.periods Nanos.longest (Nanos.ofSeconds 6)
    let built := start config InstanceName.canonical 7
    let engine := Sample.waiting Nanos.longest (Nanos.ofSeconds 6) 1
    let after := (engine.perform Sample.sendsOn).2
    create config 7 = .ok built ∧ Reachable built engine ∧ engine.Proceeds after ∧ engine.timers.elapsed = 1 ∧
      after.timers.armed? ⟨1⟩ = some (Nanos.longest + 1, .decay Name.root ⟨256⟩) ∧
      ¬ engine.timers.Arms engine.timers.Fits after.timers ∧
      engine.timers.inRange = true ∧ after.timers.inRange = false := by
  intro config built engine after
  have created : create config 7 = .ok built := Sample.create_periods (by decide +kernel)
  have reachable : Reachable built engine := ⟨[], {}, .act .start (.advanceTo 1)⟩
  have proceeds : engine.Proceeds after := .act Sample.sendsOn
  have armed : after.timers.armed? ⟨1⟩ = some (Nanos.longest + 1, .decay Name.root ⟨256⟩) := by decide +kernel
  have late : ¬ Nanos.longest + 1 ≤ Nanos.longest := Nat.not_succ_le_self _
  refine ⟨created, reachable, proceeds, rfl, armed, fun arms => ?_, ?_, Bool.eq_false_iff.mpr fun inRange => ?_⟩
  · have new : engine.timers.next.number ≤ 1 ∧ 1 < after.timers.next.number := by decide +kernel
    obtain ⟨wait, event, fits, same⟩ := arms ⟨1⟩ new.1 new.2
    obtain ⟨equal, -⟩ := Prod.mk.inj (Option.some.inj (armed.symm.trans same))
    exact late (equal.trans_le fits)
  · exact Timers.inRange_iff.mpr fun slot member => absurd member Std.ExtTreeMap.not_mem_empty
  · have sound := proceeds.sound (reachable.sound created)
    exact late (sound.inRange_iff.mp inRange ⟨1⟩ _ _ armed)

end Engine

end Overhear
