import Overhear.Proofs.Engine.Journal
import Overhear.Proofs.Score.Crediting

/-! Credits for requests follow what is sent. A request sent at once is credited at once, one that is held
back only when its timer sends it, and one that was given up never. -/
namespace Overhear.Engine

variable {engine held later : Engine} {history between : History} {name : Name} {handle : Handle}
  {deferral : Deferral}

/-- What every call does to the scores, as far as credits for requests are concerned. What is relayed counts
once for each face that it goes out on, what is sent toward the producer once for the face that it came in
on. Holding a request back or dropping it only uses the timer service. -/
structure CreditsWhatItSends (engine : Engine) : Prop where
  relayed : ∀ inFace request hops faces sent after,
    hops.any (·.face.isPointToPoint) = false →
    engine.receive inFace request hops = (.ok (.send faces sent), after) →
    after.book = faces.foldl (fun book face => book.creditRequest request.name.statistics face)
      engine.book ∧
    ScoreBook.CreditsRequests request.name.statistics faces engine.book after.book
  produced : ∀ inFace request hops faces sent after,
    hops.any (·.face.isPointToPoint) = true →
    engine.receive inFace request hops = (.ok (.send faces sent), after) →
    after.book = engine.book.creditRequest request.name.statistics inFace.id ∧
    ScoreBook.CreditsRequest request.name.statistics inFace.id engine.book after.book
  withheld : ∀ inFace request hops answer after,
    engine.receive inFace request hops = (answer, after) →
    (∀ faces sent, answer ≠ .ok (.send faces sent)) → after.book = engine.book.withTimers after.timers
  fired : ∀ handle event face sent after,
    engine.fire handle event = (.sendRequest face sent, after) →
    after.book = engine.book.creditRequest sent.name.statistics face ∧
    ScoreBook.CreditsRequest sent.name.statistics face engine.book after.book
  stale : ∀ handle event after, engine.fire handle event = (.stale, after) → after = engine
  looped : ∀ request, (engine.loopDetected request).2.book =
    engine.book.withTimers (engine.loopDetected request).2.timers
  expired : ∀ pending, (engine.expired pending).book =
    engine.book.withTimers (engine.expired pending).timers
  refused : ∀ inFace nack pending, engine.refused inFace nack pending = engine

theorem eq_of_stale {event : Event} {after : Engine}
    (stale : engine.fire handle event = (.stale, after)) : after = engine := by
  by_cases counts : engine.live event = some handle
  · cases event with
    | forward name =>
      obtain ⟨deferral, held, rfl⟩ := live_forward_eq_some.mp counts
      rw [fire_forward held] at stale
      cases stale
    | decay name face =>
      have live := (ScoreBook.fireDecay_of_live ⟨name, face⟩ counts).1
      simp [fire, live] at stale
    | refresh =>
      have live := (ScoreBook.fireRefresh_of_live counts).1
      simp [fire, live] at stale
  · rw [fire_of_stale counts] at stale
    exact (congrArg Prod.snd stale).symm

theorem creditsWhatItSends (named : engine.Named) : engine.CreditsWhatItSends where
  relayed inFace request hops faces sent after shared answered := by
    have credits := receive_credits engine inFace request hops
    rw [answered] at credits
    have book := credits.sent faces sent rfl
    simp only [creditsFor, shared, Bool.false_eq_true, if_false, List.foldl_map] at book
    exact ⟨book, book ▸ ScoreBook.creditsRequests_foldl _ faces engine.book⟩
  produced inFace request hops faces sent after direct answered := by
    have credits := receive_credits engine inFace request hops
    rw [answered] at credits
    have book := credits.sent faces sent rfl
    simp only [creditsFor, direct, if_true] at book
    exact ⟨book, book ▸ engine.book.creditsRequest_creditRequest _ inFace.id⟩
  withheld inFace request hops answer after answered unsent := by
    have credits := receive_credits engine inFace request hops
    rw [answered] at credits
    exact credits.kept unsent
  fired handle event face sent after sends := by
    obtain ⟨name, rfl, held⟩ := held_of_sends (congrArg Prod.fst sends)
    obtain ⟨-, rfl⟩ := Prod.mk.inj ((fire_forward held).symm.trans sends)
    have same : sent.name = name := named name _ held
    rw [same]
    exact ⟨rfl, engine.book.creditsRequest_creditRequest name.statistics face⟩
  stale handle event after := eq_of_stale
  looped request := book_cancelDeferred engine request.name
  expired pending := book_cancelDeferred engine pending.name
  refused _ _ _ := rfl

/-- Until the timer of a deferral is delivered for its name, its handle counts for nothing else. -/
theorem stale_of_undelivered (run : Run held between later) (sound : held.roster.Sound)
    (waiting : held.deferral? name = some deferral)
    (undelivered : (⟨deferral.handle, .forward name⟩ : Firing Event) ∉ between.delivered) :
    ∀ step ∈ between, ∀ event, step.act = .deliver ⟨deferral.handle, event⟩ →
      step.answer = .fired .stale := by
  induction run with
  | start => simp
  | @act history engine before act ih =>
    have split := not_or.mp (mt List.mem_append.mpr undelivered)
    refine List.forall_mem_cons.mpr ⟨fun event delivers => ?_, ih split.2⟩
    have stale : engine.live event ≠ some deferral.handle := by
      intro counts
      by_cases undecided : history.Undecided deferral.handle name
      · have waited := held_of_undecided before waiting undecided
        obtain rfl := (follows_run before sound).sound.exclusive event (.forward name) _ counts
          (live_forward_eq_some.mpr ⟨_, waited, rfl⟩)
        simp only at delivers
        rw [delivers] at split
        exact split.1 (List.mem_singleton_self _)
      · exact spent_of_decided before sound waiting undecided event counts
    simp only at delivers ⊢
    rw [delivers, perform_deliver, fire_of_stale stale]
    rfl

/-- A handle that was handed out and counts for nothing is answered so from then on. -/
theorem stale_of_spent (run : Run engine history later) (sound : engine.roster.Sound)
    (below : handle.number < engine.timers.next.number)
    (spent : ∀ event, engine.live event ≠ some handle) :
    ∀ step ∈ history, ∀ event, step.act = .deliver ⟨handle, event⟩ → step.answer = .fired .stale := by
  induction run with
  | start => simp
  | @act history middle before act ih =>
    refine List.forall_mem_cons.mpr ⟨fun event delivers => ?_, ih⟩
    have stale := fire_of_spent before sound below spent event
    simp only at delivers ⊢
    rw [delivers, perform_deliver, stale]
    rfl

theorem deliveries_of_settles {step : Step} (settles : step.Settles name) : step.act.deliveries = [] := by
  obtain ⟨act, answer⟩ := step
  cases act with
  | deliver => cases settles
  | _ => rfl

/-- A deferral that is settled before its timer is delivered is credited by no delivery. -/
theorem unsent_of_settled {since before : History} {settling : Step}
    (run : Run held (since ++ settling :: before) later) (sound : held.roster.Sound)
    (waiting : held.deferral? name = some deferral) (settles : settling.Settles name)
    (undelivered : (⟨deferral.handle, .forward name⟩ : Firing Event) ∉ before.delivered) :
    ∀ step ∈ since ++ settling :: before, ∀ event,
      step.act = .deliver ⟨deferral.handle, event⟩ →
        step.answer = .fired .stale ∧ step.credits = [] := by
  obtain ⟨middle, first, second⟩ := run.split
  have decided : ¬ History.Undecided (settling :: before) deferral.handle name :=
    fun undecided => undecided.1 settling List.mem_cons_self settles
  have spent := spent_of_decided first sound waiting decided
  have below : deferral.handle.number < held.timers.next.number :=
    sound.handedOut (.forward name) _ (live_forward_eq_some.mpr ⟨deferral, waiting, rfl⟩)
  have follows := follows_run first sound
  have quiet : (⟨deferral.handle, .forward name⟩ : Firing Event) ∉
      History.delivered (settling :: before) := by
    simpa [History.delivered, deliveries_of_settles settles] using undelivered
  have stale := List.forall_mem_append.mpr
    ⟨stale_of_spent second follows.sound (Nat.lt_of_lt_of_le below follows.next_le) spent,
      stale_of_undelivered first sound waiting quiet⟩
  intro step member event delivers
  have answer := stale step member event delivers
  refine ⟨answer, ?_⟩
  simp only [Step.credits, delivers, answer]

/-- In every state the scores are credited for what is sent, call by call, and the credits of a whole run
are those for all that was sent. A deferral that is given up in time is never credited. -/
theorem credits_follow_transmissions {config : Config Float} {entropy : UInt64} {built : Engine}
    (created : Engine.create config entropy = .ok built) (records : Records)
    (run : Run (built.withRecords records) history engine) :
    engine.CreditsWhatItSends ∧
    (∃ journal : List Entry,
      engine.book = journal.foldl ScoreBook.enter (built.withRecords records).book ∧
      journal.filterMap Entry.request? = history.credits) ∧
    ∀ inFace request hops face delay handle held,
      engine.receive inFace request hops = (.ok (.deferred face delay handle), held) →
      ∀ since settling before later, Run held (since ++ settling :: before) later →
        settling.Settles request.name →
        (⟨handle, .forward request.name⟩ : Firing Event) ∉ History.delivered before →
        ∀ step ∈ since ++ settling :: before, ∀ event, step.act = .deliver ⟨handle, event⟩ →
          step.answer = .fired .stale ∧ step.credits = [] := by
  have sound := sound_of_run created records run
  have fresh : (built.withRecords records).Named := named_of_run created records .start
  obtain ⟨journal, journals⟩ := exists_journal run fresh
  refine ⟨creditsWhatItSends (fresh.run run), ⟨journal, journals.book, journals.requests⟩, ?_⟩
  intro inFace request hops face delay handle held deferred since settling before later after settles
    undelivered
  obtain ⟨sent, tagged, waiting⟩ := deferral?_of_deferred deferred
  exact unsent_of_settled after (sound_of_receive sound deferred) waiting settles undelivered

/-- A relay sends one request on its radio face, and another one to a local producer. -/
def sendingTwo : History × Engine :=
  (Sample.relay .navigo).performAll
    [.receive ⟨⟨258⟩, .other⟩ (Sample.request "d") [⟨⟨⟨256⟩, .pointToPoint⟩, 0⟩],
      .receive Sample.medium { Sample.request "c" with tag := none } [⟨Sample.medium, 0⟩]]

/-- Then it holds a third one back, which is given up before its timer is delivered. -/
def givingUp : History × Engine :=
  (sendingTwo.2.perform (Sample.hears "a")).2.performAll
    [.deliver ⟨⟨4⟩, .forward ⟨["a"]⟩⟩, .cancel ⟨["a"]⟩]

/-- The first two are credited, to the faces that they went out on and came in on, and the third is not. -/
theorem credits_follow_transmissions_giving_up :
    (sendingTwo.1.credits = [⟨⟨[]⟩, ⟨257⟩⟩, ⟨⟨[]⟩, ⟨258⟩⟩] ∧
      (sendingTwo.2.receive Sample.medium (Sample.request "a") [⟨Sample.medium, 0⟩]).1 =
        .ok (.deferred ⟨257⟩ 500000 ⟨4⟩)) ∧
    sendingTwo.2.CreditsWhatItSends ∧
    (∃ journal : List Entry,
      sendingTwo.2.book = journal.foldl ScoreBook.enter (Sample.relay .navigo).book ∧
      journal.filterMap Entry.request? = [⟨⟨[]⟩, ⟨257⟩⟩, ⟨⟨[]⟩, ⟨258⟩⟩]) ∧
    ∀ step ∈ givingUp.1, ∀ event, step.act = .deliver ⟨⟨4⟩, event⟩ →
      step.answer = .fired .stale ∧ step.credits = [] := by
  have credits : sendingTwo.1.credits = [⟨⟨[]⟩, ⟨257⟩⟩, ⟨⟨[]⟩, ⟨258⟩⟩] := by decide +kernel
  have deferred : (sendingTwo.2.receive Sample.medium (Sample.request "a") [⟨Sample.medium, 0⟩]).1 =
      .ok (.deferred ⟨257⟩ 500000 ⟨4⟩) := by decide +kernel
  have run : Run ((Sample.relay .navigo).withRecords {}) sendingTwo.1 sendingTwo.2 := run_performAll _ _
  obtain ⟨calls, ⟨journal, book, requests⟩, withdrawn⟩ :=
    credits_follow_transmissions (Sample.create_relay .navigo) {} run
  rw [credits] at requests
  refine ⟨⟨credits, deferred⟩, calls, ⟨journal, book, requests⟩, ?_⟩
  have after : Run (sendingTwo.2.perform (Sample.hears "a")).2 givingUp.1 givingUp.2 :=
    run_performAll _ _
  obtain ⟨first, second, steps⟩ : ∃ first second, givingUp.1 =
      [⟨.deliver ⟨⟨4⟩, .forward ⟨["a"]⟩⟩, first⟩] ++ ⟨.cancel ⟨["a"]⟩, second⟩ :: [] := by
    simp only [givingUp, performAll]
    exact ⟨_, _, rfl⟩
  rw [steps] at after ⊢
  exact withdrawn _ _ _ _ _ _ _ (Prod.ext deferred rfl) _ _ [] _ after rfl
    (by simp [History.delivered])

end Overhear.Engine
