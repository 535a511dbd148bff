import Overhear.Proofs.Engine.Fate

/-! A copy of a request that is held back: it takes the place of the request, unless the hop limit of the
variant turns the copy away first. -/
namespace Overhear.Engine

variable {engine : Engine} {request : Request} {deferral : Deferral}

theorem exceedsHopLimit_iff (engine : Engine) (request : Request) :
    engine.exceedsHopLimit request = true ↔
      engine.variant = .vndn ∧ ∃ count, request.hops = some count ∧
        engine.config.strategy.hopLimit < count := by
  cases counted : request.hops <;> simp [exceedsHopLimit, counted]

/-- Given up in favour of a copy: no timer, no entry, and nothing else changed. -/
def givenUp (engine : Engine) (name : Name) (deferral : Deferral) : Engine :=
  { engine with
    book := { engine.book with timers := engine.timers.cancel deferral.handle }
    deferred := engine.deferred.erase name }

theorem cancelDeferred_snd_of_held {name : Name} (held : engine.deferral? name = some deferral) :
    (engine.cancelDeferred name).2 = engine.givenUp name deferral := by
  rw [cancelDeferred_of_held held]
  rfl

/-- The timer of a request that was given up is disarmed, and its firing counts for nothing. -/
theorem givenUp_spent (sound : engine.roster.Sound) {name : Name}
    (held : engine.deferral? name = some deferral) :
    (engine.givenUp name deferral).timers.isPending deferral.handle = false ∧
      ∀ between later, Run (engine.givenUp name deferral) between later →
        ∀ event, later.fire deferral.handle event = (.stale, later) := by
  have cancelled := cancelDeferred_snd_of_held held
  have follows := (cancelDeferred_changes engine name).follows sound
  have gone := deferral?_cancelDeferred engine name
  rw [cancelled] at follows gone
  have counts : engine.roster.live (.forward name) = some deferral.handle :=
    live_forward_eq_some.mpr ⟨deferral, held, rfl⟩
  have below := sound.handedOut _ _ counts
  refine ⟨?_, fun between later run event => ?_⟩
  · apply Bool.eq_false_iff.mpr
    intro pending
    have armed := (follows.sound.timers.isPending_iff deferral.handle).mp pending
    simp [givenUp, roster, timers, Timers.armed?_cancel] at armed
  · refine fire_of_spent run follows.sound (Nat.lt_of_lt_of_le below follows.next_le) ?_ event
    intro other after
    rcases follows.live_cases other _ after with before | new
    · obtain rfl := sound.exclusive _ _ _ before counts
      simp [live, gone] at after
    · exact Nat.not_lt_of_le new below

/-- Within the hop limit a copy suppresses what is held back under its name, for good. Beyond it the copy
is turned away and the request still goes out. -/
theorem overheard_copy_suppresses {config : Config Float} {entropy : UInt64} {built : Engine}
    (created : Engine.create config entropy = .ok built) (records : Records) {history : History}
    (run : Run (built.withRecords records) history engine)
    (held : engine.deferral? request.name = some deferral) (inFace : Face) (hops : List Hop) :
    let tooFar := engine.variant = .vndn ∧ ∃ count, request.hops = some count ∧
      engine.config.strategy.hopLimit < count
    (¬ tooFar → engine.receive inFace request hops =
        (.ok (.suppress .duplicate (engine.variant == .weighted)),
          engine.givenUp request.name deferral) ∧
      (engine.givenUp request.name deferral).timers.isPending deferral.handle = false ∧
      ∀ between later, Run (engine.givenUp request.name deferral) between later →
        ∀ event, later.fire deferral.handle event = (.stale, later)) ∧
    (tooFar → engine.receive inFace request hops = (.ok (.suppress .hopLimit false), engine) ∧
      (engine.fire deferral.handle (.forward request.name)).1 =
        .sendRequest deferral.face deferral.request) := by
  intro tooFar
  have answer := receive_of_held inFace hops held
  rw [cancelDeferred_of_held held] at answer
  constructor
  · intro within
    rw [if_neg (mt (exceedsHopLimit_iff engine request).mp within)] at answer
    exact ⟨answer, givenUp_spent (sound_of_run created records run) held⟩
  · intro exceeds
    rw [if_pos ((exceedsHopLimit_iff engine request).mpr exceeds)] at answer
    exact ⟨answer, congrArg Prod.fst (fire_forward held)⟩

/-- A relay that counts hops hears a copy of the request it holds back. The copy has made one hop. -/
theorem overheard_copy_suppresses_within_limit :
    (Sample.holding .vndn).deferral? ⟨["a"]⟩ = some ⟨⟨1⟩, ⟨257⟩, Sample.request "a"⟩ ∧
      (Sample.holding .vndn).receive Sample.medium (Sample.request "a") [⟨Sample.medium, 0⟩] =
        (.ok (.suppress .duplicate false),
          (Sample.holding .vndn).givenUp ⟨["a"]⟩ ⟨⟨1⟩, ⟨257⟩, Sample.request "a"⟩) := by
  obtain ⟨held, counts, limit⟩ :
      (Sample.holding .vndn).deferral? (Sample.request "a").name =
          some ⟨⟨1⟩, ⟨257⟩, Sample.request "a"⟩ ∧
        (Sample.holding .vndn).variant = .vndn ∧
        (Sample.holding .vndn).config.strategy.hopLimit = 5 := by decide +kernel
  have limits := overheard_copy_suppresses (Sample.create_relay .vndn) {} (Sample.run_holding .vndn)
    held Sample.medium [⟨Sample.medium, 0⟩]
  have within : ¬ ((Sample.holding .vndn).variant = .vndn ∧ ∃ count,
      (Sample.request "a").hops = some count ∧
        (Sample.holding .vndn).config.strategy.hopLimit < count) := by
    rintro ⟨-, count, counted, beyond⟩
    obtain rfl := Option.some.inj counted
    simp [limit] at beyond
  have answer := (limits.1 within).1
  rw [counts] at answer
  exact ⟨held, answer⟩

/-- The copy has made six hops, one more than the limit: it does not suppress, and the request that is
held back goes out. -/
theorem copy_beyond_limit_not_suppressing :
    let copy : Request := { Sample.request "a" with hops := some 6 }
    let result := (Sample.holding .vndn).receive Sample.medium copy [⟨Sample.medium, 0⟩]
    (Sample.holding .vndn).isDeferred copy.name = true ∧
      result.1 = .ok (.suppress .hopLimit false) ∧
      result.2.isDeferred copy.name = true ∧ result.2.timers.isPending ⟨1⟩ = true ∧
      (result.2.fire ⟨1⟩ (.forward copy.name)).1 = .sendRequest ⟨257⟩ (Sample.request "a") := by
  decide +kernel

end Overhear.Engine
