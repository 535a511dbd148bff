import Overhear.Proofs.Host.Loop
import Overhear.Proofs.Score.Ticking

/-! Hosts that let time pass only in firing loops. A score that such a host keeps decays at whole multiples of
the decay period since it was opened, and at no other time, however the loops are cut. -/
namespace Overhear

/-- How a host drives something with scores in it: which outcomes are of firings that were not ignored, and
what it may do while the clock stands still. -/
structure Host (σ ρ α : Type) where
  book : σ → ScoreBook α
  counted : ρ → Prop
  acts : σ → σ → Prop

namespace Host

/-- A host is between two loops, or in one that goes up to a limit. -/
inductive Stage where
  | resting
  | looping (limit : Nanos)

/-- A deadline is ahead of the clock. In a loop that reaches it, the clock may have come up to it. -/
def Stage.Ahead (now due : Nanos) : Stage → Prop
  | .resting => now < due
  | .looping limit => now ≤ due ∧ (limit < due → now < due)

variable {σ ρ α : Type} (host : Host σ ρ α)

/-- What holds of a score in the middle of its life. -/
structure OnTime (period : Nanos) (key : ScoreKey) (stage : Stage) (state : σ) (born : Nanos)
    (times : List Nanos) : Prop where
  due : (host.book state).DecaysAt key (born + (times.length + 1) * period)
  past : born + times.length * period ≤ (host.book state).now
  ahead : stage.Ahead (host.book state).now (born + (times.length + 1) * period)
  times : times = (List.range times.length).map fun k => born + (k + 1) * period

theorem onTime_of_decaysNext {host : Host σ ρ α} {state : σ} {stage : Stage} {key : ScoreKey}
    (next : (host.book state).DecaysNext key)
    (positive : 0 < (host.book state).config.decayPeriod) :
    host.OnTime (host.book state).config.decayPeriod key stage state (host.book state).now [] := by
  have later : (host.book state).now <
      (host.book state).now + (([] : List Nanos).length + 1) * (host.book state).config.decayPeriod := by
    simpa using positive
  refine ⟨?_, ?_, ?_, rfl⟩
  · simpa [ScoreBook.DecaysNext] using next
  · simp
  · cases stage with
    | resting => exact later
    | looping limit => exact ⟨Nat.le_of_lt later, fun _ => later⟩

variable [TimerDriven σ ρ]

/-- The steps of a host, with the timer that it delivers in a turn of a loop. -/
inductive Beat : Stage → σ → Option (Delivery ρ) → Stage → σ → Prop where
  | act {state after : σ} (acts : host.acts state after) : Beat .resting state none .resting after
  | enter (limit : Nanos) (state : σ) : Beat .resting state none (.looping limit) state
  | turn {limit : Nanos} {state after : σ} {delivery : Delivery ρ}
      (due : TimerDriven.fireDue limit state = some (delivery, after)) :
      Beat (.looping limit) state (some delivery) (.looping limit) after
  | leave {limit : Nanos} {state : σ}
      (rests : TimerDriven.fireDue limit state = (none : Option (Delivery ρ × σ))) :
      Beat (.looping limit) state none .resting (TimerDriven.advanceTo limit state)

/-- The states that a host comes to. -/
inductive Course (start : σ) : Stage → σ → Prop where
  | start : Course start .resting start
  | beat {stage next : Stage} {state after : σ} {delivery : Option (Delivery ρ)}
      (course : Course start stage state) (beat : host.Beat stage state delivery next after) :
      Course start next after

/-- The delivery is a decay tick of a score. -/
def Ticks (key : ScoreKey) (delivery : Delivery ρ) : Prop :=
  delivery.event = .decay key.name key.face ∧ host.counted delivery.outcome

/-- The life of a score until it is dropped: when it was opened, and what the clock read at its ticks. -/
inductive Lives (start : σ) (key : ScoreKey) : Stage → σ → Nanos → List Nanos → Prop where
  | opened {stage next : Stage} {state after : σ} {delivery : Option (Delivery ρ)}
      (course : host.Course start stage state) (beat : host.Beat stage state delivery next after)
      (absent : (host.book state).faceScore? key = none)
      (present : ((host.book after).faceScore? key).isSome) :
      Lives start key next after (host.book after).now []
  | ticked {stage next : Stage} {state after : σ} {delivery : Delivery ρ} {born : Nanos}
      {times : List Nanos} (lives : Lives start key stage state born times)
      (beat : host.Beat stage state (some delivery) next after) (ticks : host.Ticks key delivery)
      (present : ((host.book after).faceScore? key).isSome) :
      Lives start key next after born (times ++ [delivery.time])
  | stayed {stage next : Stage} {state after : σ} {delivery : Option (Delivery ρ)} {born : Nanos}
      {times : List Nanos} (lives : Lives start key stage state born times)
      (beat : host.Beat stage state delivery next after)
      (unticked : ∀ delivered ∈ delivery, ¬ host.Ticks key delivered)
      (present : ((host.book after).faceScore? key).isSome) :
      Lives start key next after born times

/-- The ticks of a score come one period after another since it was opened, as many as have passed. -/
structure Punctual [Scalar α] (config : ScoreConfig α) (key : ScoreKey) (stage : Stage) (state : σ)
    (born : Nanos) (times : List Nanos) : Prop where
  begun : born ≤ (host.book state).now
  count : stage = .resting →
    times.length = ((host.book state).now - born) / config.decayPeriod
  times : times = (List.range times.length).map fun k => born + (k + 1) * config.decayPeriod
  decays : ∀ limit delivery after, stage = .looping limit →
    TimerDriven.fireDue limit state = some (delivery, after) → host.Ticks key delivery → ∃ timer,
      (host.book after).faceScore? key = ((host.book state).faceScore? key).map fun score =>
        ⟨{ score.stats with score := score.stats.score * config.decayFactor }, timer⟩

/-- What the steps of a host do to the scores, in states with sound timers. -/
structure Keeps [Scalar α] (sound : σ → Prop) : Prop where
  timers : ∀ {state : σ}, sound state → (host.book state).timers.Sound
  act : ∀ {state after : σ}, sound state → host.acts state after →
    sound after ∧ (host.book state).Steady (host.book after)
  turn : ∀ {limit : Nanos} {state after : σ} {delivery : Delivery ρ}, sound state →
    TimerDriven.fireDue limit state = some (delivery, after) →
      sound after ∧ delivery.time = (host.book after).now ∧
        (host.book state).Turns limit delivery.event (host.counted delivery.outcome) (host.book after)
  pass : ∀ {limit : Nanos} {state : σ}, sound state →
    TimerDriven.fireDue limit state = (none : Option (Delivery ρ × σ)) →
      sound (TimerDriven.advanceTo limit state) ∧
        (∀ slot ∈ (host.book state).timers.queue, limit < slot.deadline) ∧
        host.book (TimerDriven.advanceTo limit state) =
          (host.book state).withTimers ((host.book state).timers.advanceTo limit)

variable {host} {start state after : σ} {stage next : Stage} {key : ScoreKey} {born period : Nanos}
  {times : List Nanos}

theorem Lives.course (lives : host.Lives start key stage state born times) :
    host.Course start stage state := by
  induction lives with
  | opened course beat => exact course.beat beat
  | ticked _ beat _ _ ih => exact ih.beat beat
  | stayed _ beat _ _ ih => exact ih.beat beat

/-- The turns of a drain are steps of the host. -/
theorem Lives.drain [DecidablePred (host.Ticks key)] {limit : Nanos}
    (lives : host.Lives start key (.looping limit) state born times) (most : Nat)
    (present : ∀ count ≤ most,
      ((host.book (TimerDriven.drain limit count state).2).faceScore? key).isSome) :
    host.Lives start key (.looping limit) (TimerDriven.drain limit most state).2 born
      (times ++ ((TimerDriven.drain limit most state).1.filter (host.Ticks key ·)).map (·.time)) := by
  induction most generalizing state times with
  | zero => simpa [TimerDriven.drain] using lives
  | succ most ih =>
    cases due : TimerDriven.fireDue limit state with
    | none => simpa [TimerDriven.drain, due] using lives
    | some result =>
      obtain ⟨delivery, middle⟩ := result
      have there := present 1 (Nat.le_add_left 1 most)
      simp only [TimerDriven.drain, due] at there
      have later : ∀ count ≤ most,
          ((host.book (TimerDriven.drain limit count middle).2).faceScore? key).isSome := by
        intro count within
        have after := present (count + 1) (Nat.succ_le_succ within)
        simpa only [TimerDriven.drain, due] using after
      simp only [TimerDriven.drain, due]
      by_cases ticks : host.Ticks key delivery
      · have following := ih (lives.ticked (.turn due) ticks there) later
        simpa [ticks] using following
      · have same : ∀ delivered ∈ some delivery, ¬ host.Ticks key delivered := by
          rintro _ ⟨⟩
          exact ticks
        simpa [ticks] using ih (lives.stayed (.turn due) same there) later

/-- A score lives on through a whole loop and the jump to its limit. -/
theorem Lives.loop [DecidablePred (host.Ticks key)] {later : List Nanos}
    (lives : host.Lives start key .resting state born times) (limit : Nanos) (most : Nat)
    (present : ∀ count ≤ most,
      ((host.book (TimerDriven.drain limit count state).2).faceScore? key).isSome)
    (rests : (TimerDriven.fireDue limit (TimerDriven.drain limit most state).2).isNone)
    (still : ((host.book (TimerDriven.advanceTo limit
      (TimerDriven.drain limit most state).2)).faceScore? key).isSome)
    (ticks : times ++ ((TimerDriven.drain limit most state).1.filter (host.Ticks key ·)).map (·.time) =
      later) :
    host.Lives start key .resting
      (TimerDriven.advanceTo limit (TimerDriven.drain limit most state).2) born later := by
  subst ticks
  have entered : host.Lives start key (.looping limit) state born times :=
    lives.stayed (.enter limit state) nofun (present 0 (Nat.zero_le most))
  exact (entered.drain most present).stayed (.leave (Option.isNone_iff_eq_none.mp rests)) nofun still

variable [Scalar α] {sound : σ → Prop}

theorem Keeps.beat (keeps : host.Keeps sound) (held : sound state) {delivery : Option (Delivery ρ)}
    (beat : host.Beat stage state delivery next after) :
    sound after ∧ (host.book after).config = (host.book state).config := by
  cases beat with
  | act acts =>
    obtain ⟨later, steady⟩ := keeps.act held acts
    exact ⟨later, steady.config⟩
  | enter limit => exact ⟨held, rfl⟩
  | turn due =>
    obtain ⟨later, -, turns⟩ := keeps.turn held due
    exact ⟨later, turns.config⟩
  | leave rests =>
    obtain ⟨later, -, same⟩ := keeps.pass held rests
    rw [same]
    exact ⟨later, rfl⟩

theorem Keeps.course (keeps : host.Keeps sound) (held : sound start)
    (course : host.Course start stage state) :
    sound state ∧ (host.book state).config = (host.book start).config := by
  induction course with
  | start => exact ⟨held, rfl⟩
  | beat _ beat ih =>
    obtain ⟨later, same⟩ := keeps.beat ih.1 beat
    exact ⟨later, same.trans ih.2⟩

/-- A score that was opened has its first decay one period ahead. -/
theorem OnTime.opened (keeps : host.Keeps sound) (held : sound state)
    {delivery : Option (Delivery ρ)} (beat : host.Beat stage state delivery next after)
    (positive : 0 < (host.book after).config.decayPeriod)
    (absent : (host.book state).faceScore? key = none)
    (present : ((host.book after).faceScore? key).isSome) :
    host.OnTime (host.book after).config.decayPeriod key next after (host.book after).now [] := by
  apply onTime_of_decaysNext _ positive
  cases beat with
  | act acts => exact (keeps.act held acts).2.opened key absent present
  | enter limit => simp [absent] at present
  | turn due => exact (keeps.turn held due).2.2.opened key absent present
  | leave rests =>
    rw [(keeps.pass held rests).2.2] at present
    change ((host.book state).faceScore? key).isSome at present
    simp [absent] at present

/-- A tick comes just when it is due, and puts the next one a period off. -/
theorem OnTime.ticked (onTime : host.OnTime period key stage state born times)
    (keeps : host.Keeps sound) (held : sound state) {delivery : Delivery ρ}
    (beat : host.Beat stage state (some delivery) next after) (ticks : host.Ticks key delivery)
    (same : (host.book after).config.decayPeriod = period) (positive : 0 < period) :
    host.OnTime period key next after born (times ++ [delivery.time]) := by
  cases beat with
  | @turn limit _ _ _ due =>
    obtain ⟨-, reading, turns⟩ := keeps.turn held due
    obtain ⟨deadline, -, clock, decays⟩ := turns.clock
    rcases decays key _ onTime.due with ⟨level, -, -, following⟩ | ⟨-, unticked, -⟩
    · have now : (host.book after).now = born + (times.length + 1) * period := by
        rw [clock, ← level]
        exact Nat.max_eq_right onTime.ahead.1
      have later : (host.book after).now + period =
          born + ((times ++ [delivery.time]).length + 1) * period := by
        rw [now, List.length_append, List.length_singleton, Nat.succ_mul (times.length + 1),
          Nat.add_assoc]
      have behind : (host.book after).now < born + ((times ++ [delivery.time]).length + 1) * period :=
        later ▸ Nat.lt_add_of_pos_right positive
      refine ⟨?_, ?_, ⟨Nat.le_of_lt behind, fun _ => behind⟩, ?_⟩
      · rw [← later, ← same]
        exact following
      · rw [List.length_append, List.length_singleton]
        exact Nat.le_of_eq now.symm
      · rw [List.length_append, List.length_singleton, List.range_succ, List.map_append, ← onTime.times,
          reading, now]
        rfl
    · exact absurd ticks unticked

/-- Without a tick the score waits for the same decay. -/
theorem OnTime.stayed (onTime : host.OnTime period key stage state born times)
    (keeps : host.Keeps sound) (held : sound state) {delivery : Option (Delivery ρ)}
    (beat : host.Beat stage state delivery next after)
    (unticked : ∀ delivered ∈ delivery, ¬ host.Ticks key delivered)
    (present : ((host.book after).faceScore? key).isSome) :
    host.OnTime period key next after born times := by
  obtain ⟨due, past, ahead, sequence⟩ := onTime
  cases beat with
  | act acts =>
    obtain ⟨-, steady⟩ := keeps.act held acts
    rw [← steady.now] at past ahead
    exact ⟨steady.kept key _ due present, past, ahead, sequence⟩
  | enter limit => exact ⟨due, past, ⟨Nat.le_of_lt ahead, fun _ => ahead⟩, sequence⟩
  | @turn limit _ _ delivery fired =>
    obtain ⟨-, -, turns⟩ := keeps.turn held fired
    obtain ⟨deadline, within, clock, decays⟩ := turns.clock
    rcases decays key _ due with ⟨-, event, counted, -⟩ | ⟨below, -, still⟩
    · exact absurd ⟨event, counted⟩ (unticked delivery rfl)
    · refine ⟨still, ?_, ⟨?_, fun beyond => ?_⟩, sequence⟩
      · rw [clock]
        exact Nat.le_trans past (Nat.le_max_left _ _)
      · rw [clock]
        exact Nat.max_le.mpr ⟨ahead.1, below⟩
      · rw [clock]
        exact Nat.max_lt.mpr ⟨ahead.2 beyond, Nat.lt_of_le_of_lt within beyond⟩
  | @leave limit _ rests =>
    obtain ⟨-, drained, same⟩ := keeps.pass held rests
    obtain ⟨timer, counts, armed⟩ := due
    have queued := (keeps.timers held).queued_iff.mpr
      (show (host.book state).timers.armed? (Slot.mk _ timer).handle = _ from armed)
    have beyond := drained _ (Std.ExtTreeMap.mem_iff_isSome_getElem?.mpr (Option.isSome_of_eq_some queued))
    have now : (host.book (TimerDriven.advanceTo limit state)).now = max (host.book state).now limit := by
      rw [same]
      rfl
    refine ⟨⟨timer, ?_, ?_⟩, ?_, ?_, sequence⟩
    · rw [same]
      exact counts
    · rw [same]
      exact armed
    · rw [now]
      exact Nat.le_trans past (Nat.le_max_left _ _)
    · rw [now]
      exact Nat.max_lt.mpr ⟨ahead.2 beyond, beyond⟩

/-- The invariant holds all through the life of a score. -/
theorem Lives.onTime (lives : host.Lives start key stage state born times) (keeps : host.Keeps sound)
    (held : sound start) (positive : 0 < (host.book start).config.decayPeriod) :
    host.OnTime (host.book start).config.decayPeriod key stage state born times := by
  have configured : ∀ {stage : Stage} {state : σ}, host.Course start stage state →
      (host.book state).config = (host.book start).config := fun course => (keeps.course held course).2
  induction lives with
  | opened course beat absent present =>
    have same := configured (course.beat beat)
    rw [← same] at positive ⊢
    exact .opened keeps (keeps.course held course).1 beat positive absent present
  | ticked lives beat ticks present ih =>
    have same := configured (lives.course.beat beat)
    exact ih.ticked keeps (keeps.course held lives.course).1 beat ticks
      (congrArg ScoreConfig.decayPeriod same) positive
  | stayed lives beat unticked present ih =>
    exact ih.stayed keeps (keeps.course held lives.course).1 beat unticked present

/-- A score is punctual all through its life. -/
theorem Lives.punctual (lives : host.Lives start key stage state born times) (keeps : host.Keeps sound)
    (held : sound start) (positive : 0 < (host.book start).config.decayPeriod) :
    host.Punctual (host.book start).config key stage state born times := by
  have onTime := lives.onTime keeps held positive
  obtain ⟨heldNow, same⟩ := keeps.course held lives.course
  have begun : born ≤ (host.book state).now := Nat.le_trans (Nat.le_add_right _ _) onTime.past
  refine ⟨begun, ?_, onTime.times, ?_⟩
  · rintro rfl
    have lower := Nat.le_sub_of_add_le' onTime.past
    have upper := Nat.sub_lt_left_of_lt_add begun onTime.ahead
    exact (Nat.div_eq_of_lt_le lower upper).symm
  · rintro limit delivery after - due ⟨event, counted⟩
    obtain ⟨-, -, turns⟩ := keeps.turn heldNow due
    rw [← same]
    exact turns.decayed key event counted

end Host

end Overhear
