import Overhear.Proofs.Engine.Draining
import Overhear.Proofs.Engine.Fate
import Overhear.Proofs.Score.Hosting

/-! A host with an engine. Between two firing loops packets come in, and the host may use the scores directly;
none of that moves the decay of a score that stays. -/
namespace Overhear

/-- No time passes, no timer is delivered, and the engine goes on. -/
def Act.IsStill : Act → Prop
  | .shutdown | .popDue _ | .fireNext | .advance _ | .advanceTo _ | .deliver _ => False
  | _ => True

/-- Only the timers changed, and none that a score waits for. -/
structure ScoreBook.Retimed {α : Type} (book after : ScoreBook α) : Prop where
  scores : after = book.withTimers after.timers
  now : after.now = book.now
  kept : ∀ key time, book.DecaysAt key time → after.DecaysAt key time

/-- A book may add scores once its timers have changed. -/
theorem ScoreBook.Retimed.steady {α : Type} {book middle after : ScoreBook α}
    (retimed : book.Retimed middle) (grows : middle.Grows after) (sound : middle.timers.Sound) :
    book.Steady after where
  config := by
    rw [grows.config, retimed.scores]
    rfl
  now := grows.now.trans retimed.now
  kept key time decays _ := grows.decaysAt sound (retimed.kept key time decays)
  opened key absent := grows.decaysNext (by rw [retimed.scores]; exact absent)

namespace Engine

variable {engine after : Engine}

/-- What a host does with an engine while the clock stands still. It may use the scores directly, and others
may use the timer service. -/
inductive Between (engine : Engine) : Engine → Prop where
  | act (act : Act) (still : act.IsStill) : Between engine (engine.perform act).2
  | scores {book : ScoreBook Float} (between : engine.book.Between book) :
      Between engine { engine with book }

def host : Host Engine TimerOutcome Float where
  book := Engine.book
  counted outcome := outcome = .upkeep
  acts := Between

theorem live_of_book {event : Event} {handle : Handle} (counts : engine.book.live event = some handle) :
    engine.live event = some handle := by
  cases event with
  | forward name => cases counts
  | decay name face => exact counts
  | refresh => exact counts

/-- The timers of the scores are sound by themselves. -/
theorem sound_book (sound : engine.roster.Sound) : engine.book.roster.Sound where
  timers := sound.timers
  handedOut event handle counts := sound.handedOut event handle (live_of_book counts)
  exclusive first second handle counts same :=
    sound.exclusive first second handle (live_of_book counts) (live_of_book same)
  matching event handle deadline other counts := sound.matching event handle deadline other (live_of_book counts)

/-- What happens to the timer of a request leaves those of the scores alone. -/
theorem retimed_of_changes (sound : engine.roster.Sound) {name : Name}
    (changes : Roster.Changes (· = .forward name) engine.roster after.roster)
    (scores : after.book = engine.book.withTimers after.timers)
    (now : after.timers.elapsed = engine.timers.elapsed) : engine.book.Retimed after.book where
  scores := scores
  now := now
  kept key time decays := by
    obtain ⟨timer, counts, armed⟩ := decays
    have apart : ¬ Event.decay key.name key.face = .forward name := nofun
    refine ⟨timer, ?_, (changes.armed_outside sound apart timer time).mpr armed⟩
    rw [scores]
    exact counts

theorem retimed_cancelDeferred (sound : engine.roster.Sound) (name : Name) :
    engine.book.Retimed (engine.cancelDeferred name).2.book :=
  retimed_of_changes sound (cancelDeferred_changes engine name) (book_cancelDeferred engine name)
    (elapsed_cancelDeferred engine name)

theorem retimed_defer (sound : engine.roster.Sound) (request : Request) (face : FaceId) (delay : Nanos) :
    engine.book.Retimed (engine.defer request face delay).2.book :=
  retimed_of_changes sound (defer_changes engine request face delay) (book_defer engine request face delay)
    (elapsed_cancelDeferred engine request.name)

theorem steady_cancelDeferred (sound : engine.roster.Sound) (name : Name) :
    engine.book.Steady (engine.cancelDeferred name).2.book :=
  (retimed_cancelDeferred sound name).steady (.refl _)
    (sound.changes (cancelDeferred_changes engine name)).timers

theorem grows_sendNow (engine : Engine) (request : Request) (faces : List FaceId) :
    engine.book.Grows (engine.sendNow request faces).2.book := by
  rw [book_sendNow]
  refine List.foldlRecOn _ _ (ScoreBook.Grows.refl _) fun book grows key _ => ?_
  exact ScoreBook.Grows.trans grows (ScoreBook.grows_creditRequest book key.name key.face)

theorem Relayed.steady {request : Request} {face : FaceId} {others : List FaceId}
    {result : Except Random.SpanError Decision × Engine}
    (relayed : Relayed engine request face others result) (sound : engine.roster.Sound) :
    engine.book.Steady result.2.book := by
  cases relayed with
  | sent tagged => exact (grows_sendNow engine _ _).steady sound.timers
  | @held sent tagged generator delay =>
    have changes := defer_changes { engine with generator } sent face delay
    have held : ({ engine with generator } : Engine).roster.Sound := sound
    exact (retimed_defer held sent face delay).steady (.refl _) (held.changes changes).timers
  | dropped | unbounded => exact (ScoreBook.Grows.refl _).steady sound.timers

theorem steady_receive (sound : engine.roster.Sound) (inFace : Face) (request : Request)
    (hops : List Hop) : engine.book.Steady (engine.receive inFace request hops).2.book := by
  have received := receive_received engine inFace request hops
  generalize engine.receive inFace request hops = result at received
  cases received with
  | tooFar exceeds => exact (ScoreBook.Grows.refl _).steady sound.timers
  | overheard within held => exact steady_cancelDeferred sound request.name
  | produced within idle out => exact (ScoreBook.grows_creditRequest _ _ _).steady sound.timers
  | stranded within idle => exact (ScoreBook.Grows.refl _).steady sound.timers
  | relayed within idle relayed => exact relayed.steady sound

theorem steady_respond (sound : engine.roster.Sound) (pending : Pending) (inFace : Face)
    (response : Response) : engine.book.Steady (engine.respond pending inFace response).2.book := by
  have retimed := retimed_cancelDeferred sound response.name
  have timers := (sound.changes (cancelDeferred_changes engine response.name)).timers
  have responded := respond_responded engine pending inFace response
  generalize (engine.cancelDeferred response.name).2 = cancelled at retimed timers responded
  generalize engine.respond pending inFace response = result at responded
  cases responded with
  | refused cause => exact retimed.steady (.refl _) timers
  | passed untracked decision => exact retimed.steady (.refl _) timers
  | credited tracked announces unplaced decision =>
    exact retimed.steady (ScoreBook.grows_creditUpward _ _ _ _) timers
  | placed tracked announces located inserted decision =>
    have placed := ScoreBook.grows_setDestination cancelled.book
    exact retimed.steady ((placed _ _).trans (ScoreBook.grows_creditUpward _ _ _ _)) timers

/-- No act of a host that lets the clock stand still moves the decay of a score. -/
theorem steady_perform (sound : engine.roster.Sound) {act : Act} (still : act.IsStill) :
    engine.book.Steady (engine.perform act).2.book := by
  cases act with
  | receive inFace request hops => exact steady_receive sound inFace request hops
  | respond pending inFace response => exact steady_respond sound pending inFace response
  | detectLoop request => exact steady_cancelDeferred sound request.name
  | expire pending => exact steady_cancelDeferred sound pending.name
  | refuse => exact (ScoreBook.Grows.refl _).steady sound.timers
  | cancel name => exact steady_cancelDeferred sound name
  | sweep => exact ScoreBook.steady_sweep (sound_book sound)
  | shutdown | popDue | fireNext | advance | advanceTo | deliver => exact still.elim

theorem Between.steady (between : engine.Between after) (sound : engine.roster.Sound) :
    engine.book.Steady after.book := by
  cases between with
  | act act still => exact steady_perform sound still
  | scores between => exact between.steady (sound_book sound)

theorem Between.sound (between : engine.Between after) (sound : engine.roster.Sound) :
    after.roster.Sound := by
  cases between with
  | act act still => exact (follows_perform act sound).sound
  | scores between =>
    cases between with
    | act act still => exact sound.changes (book_changes engine (ScoreBook.upkeep_perform _ still))
    | arm delay event => exact sound.armed rfl fun other => by cases other <;> rfl

/-- Delivering a firing to the engine. -/
theorem delivered_fire (sound : engine.timers.Sound) (firing : Firing Event) :
    engine.book.Delivered firing ((engine.fire firing.handle firing.event).1 = .upkeep)
      (engine.fire firing.handle firing.event).2.book := by
  obtain ⟨handle, event⟩ := firing
  cases event with
  | forward name =>
    by_cases counts : engine.live (.forward name) = some handle
    · obtain ⟨deferral, held, rfl⟩ := live_forward_eq_some.mp counts
      rw [fire_forward held]
      exact (ScoreBook.grows_creditRequest engine.book _ _).delivered sound (fun _ => by simp) _
    · rw [fire_of_stale counts]
      exact (ScoreBook.Grows.refl engine.book).delivered sound (fun _ => by simp) _
  | decay name face =>
    refine (ScoreBook.delivered_fireDecay sound handle ⟨name, face⟩).congr ?_
    cases counted : (engine.book.fireDecay handle ⟨name, face⟩).1 <;> simp [fire, counted]
  | refresh =>
    exact (ScoreBook.grows_fireRefresh engine.book handle).delivered sound (fun _ => by simp) _

theorem sound_withTimers (sound : engine.roster.Sound) {firings : List (Firing Event)}
    {rest : Timers Event} (fired : engine.timers.Fired firings rest) :
    (engine.withTimers rest).roster.Sound :=
  ((effect_withTimers fired).follows sound).sound

theorem host_keeps : host.Keeps fun engine => engine.roster.Sound where
  timers sound := sound.timers
  act sound between := ⟨Between.sound between sound, Between.steady between sound⟩
  turn {limit engine after delivery} sound due := by
    obtain ⟨firing, rest, popped, result⟩ := TimerDriven.fireDue_eq_some.mp due
    have paused := sound_withTimers sound (sound.timers.popDue popped)
    have delivered := delivered_fire paused.timers firing
    obtain ⟨rfl, rfl⟩ := Prod.mk.inj result
    exact ⟨(follows_perform (.deliver firing) paused).sound, delivered.now.symm,
      delivered.turns sound.timers popped⟩
  pass {limit engine} sound rests :=
    ⟨sound_withTimers sound (sound.timers.advanceTo limit),
      Timers.popDue_eq_none_iff.mp (TimerDriven.fireDue_eq_none_iff.mp rests), rfl⟩

/-- A new engine is sound, whatever its timer service was used for before. -/
theorem sound_of_create {config : Config Float} {entropy : UInt64} {built : Engine}
    (created : Engine.create config entropy = .ok built) (calls : List (Timers.Call Event))
    (records : Records) :
    ((built.withTimers (Timers.Run.after calls).timers).withRecords records).roster.Sound := by
  obtain ⟨instanceName, seed, rfl⟩ := eq_start_of_create created
  have service := (Timers.Run.kept_after calls).logged.account.sound
  exact (Roster.Balance.start service (live_start config instanceName seed _ records)).sound

end Engine

/-- A host that lets time pass only in firing loops, each followed by a jump to its limit, makes every score
of an engine or of a book alone decay on time: once for each whole period since the score was opened, and each
time just when the period ends. -/
theorem scores_decay_on_time {α : Type} [Scalar α] :
    (∀ {config : Config Float} {entropy : UInt64} {built : Engine},
      Engine.create config entropy = .ok built →
        ∀ (calls : List (Timers.Call Event)) (records : Records) (key : ScoreKey)
          {stage : Host.Stage} {engine : Engine} {born : Nanos} {times : List Nanos},
          Engine.host.Lives ((built.withTimers (Timers.Run.after calls).timers).withRecords records)
              key stage engine born times →
            Engine.host.Punctual config.scores key stage engine born times) ∧
      ∀ {config : Config α}, config.check = .ok () →
        ∀ (calls : List (Timers.Call Event)) (records : Records) (key : ScoreKey)
          {stage : Host.Stage} {book : ScoreBook α} {born : Nanos} {times : List Nanos},
          ScoreBook.host.Lives
              { config := config.scores, timers := (Timers.Run.after calls).timers, records }
              key stage book born times →
            ScoreBook.host.Punctual config.scores key stage book born times := by
  constructor
  · intro config entropy built created calls records key stage engine born times lives
    have sound := Engine.sound_of_create created calls records
    have positive := Config.decayPeriod_pos (Engine.check_of_create created)
    obtain ⟨instanceName, seed, rfl⟩ := Engine.eq_start_of_create created
    exact lives.punctual Engine.host_keeps sound positive
  · intro config accepted calls records key stage book born times lives
    have sound := ScoreBook.sound_of_empty config.scores calls records
    exact lives.punctual ScoreBook.host_keeps sound (Config.decayPeriod_pos accepted)

namespace Sample

/-- A score that is neither that of a request nor of a record above one. -/
def watched : ScoreKey := ⟨⟨["x"]⟩, ⟨300⟩⟩

/-- A relay that has opened a score. -/
def watching : Engine :=
  { relay .navigo with book := ((relay .navigo).book.perform (.openScore watched)).2 }

/-- The relay has heard a request since. -/
def busy : Engine := (watching.perform (hears "a")).2

/-- The firing loop up to a limit, and the jump to it. -/
def passTo {σ ρ : Type} [TimerDriven σ ρ] (seconds : Nat) (state : σ) : σ :=
  TimerDriven.advanceTo (Nanos.ofSeconds seconds)
    (TimerDriven.drain (Nanos.ofSeconds seconds) 12 state).2

instance (key : ScoreKey) : DecidablePred (Engine.host.Ticks key) :=
  fun delivery => inferInstanceAs (Decidable (_ ∧ delivery.outcome = .upkeep))

theorem lives_busy :
    Engine.host.Lives (relay .navigo) watched .resting busy 0 [] := by
  have acts : Engine.host.acts (relay .navigo) watching :=
    .scores (.act (.openScore watched) trivial)
  have opened : Engine.host.Lives (relay .navigo) watched .resting watching watching.book.now [] :=
    .opened .start (.act acts) (by decide +kernel) (by decide +kernel)
  have hears : Engine.host.acts watching busy := .act (hears "a") trivial
  exact opened.stayed (.act hears) nofun (by decide +kernel)

theorem lives_busy_passed : Engine.host.Lives (relay .navigo) watched .resting
    (passTo 25 (passTo 10 busy)) 0 ([10, 20].map Nanos.ofSeconds) := by
  have first : Engine.host.Lives (relay .navigo) watched .resting (passTo 10 busy) 0
      ([10].map Nanos.ofSeconds) :=
    lives_busy.loop _ 12 (by decide +kernel) (by decide +kernel) (by decide +kernel)
      (by decide +kernel)
  exact first.loop _ 12 (by decide +kernel) (by decide +kernel) (by decide +kernel) (by decide +kernel)

/-- A book by itself that has opened the score. -/
def watchingBook : ScoreBook Float :=
  (({ config := .standard } : ScoreBook Float).perform (.openScore watched)).2

instance (key : ScoreKey) :
    DecidablePred ((ScoreBook.host : Host (ScoreBook Float) (Option Bool) Float).Ticks key) :=
  fun delivery => inferInstanceAs (Decidable (_ ∧ delivery.outcome = some true))

theorem lives_watchingBook : ScoreBook.host.Lives ({ config := .standard } : ScoreBook Float) watched
    .resting (passTo 30 watchingBook) 0 ([10, 20, 30].map Nanos.ofSeconds) := by
  have acts : ScoreBook.host.acts ({ config := .standard } : ScoreBook Float) watchingBook :=
    .act (.openScore watched) trivial
  have opened : ScoreBook.host.Lives ({ config := .standard } : ScoreBook Float) watched .resting
      watchingBook watchingBook.now [] :=
    .opened .start (.act acts) (by decide +kernel) (by decide +kernel)
  exact opened.loop _ 12 (by decide +kernel) (by decide +kernel) (by decide +kernel) (by decide +kernel)

end Sample

theorem scores_decay_on_time_watched :
    Engine.host.Punctual .standard Sample.watched .resting
        (Sample.passTo 25 (Sample.passTo 10 Sample.busy)) 0 ([10, 20].map Nanos.ofSeconds) ∧
      ScoreBook.host.Punctual .standard Sample.watched .resting
        (Sample.passTo 30 Sample.watchingBook) 0 ([10, 20, 30].map Nanos.ofSeconds) := by
  obtain ⟨engines, books⟩ := @scores_decay_on_time Float _
  constructor
  · exact engines (Sample.create_relay .navigo) [] {} Sample.watched Sample.lives_busy_passed
  · have accepted := Engine.check_of_create (Sample.create_relay .weighted)
    exact books accepted [] {} Sample.watched Sample.lives_watchingBook

end Overhear
