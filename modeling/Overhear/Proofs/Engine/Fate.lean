import Overhear.Proofs.Engine.Accounts

/-! What becomes of a request held back. A host may deliver the firing of its timer late, repeatedly, or
after the timer was cancelled; the first delivery sends the request unless it was settled before. -/
namespace Overhear

/-- The step ends the waiting of whatever is held back under a name, without sending it. -/
def Step.Settles (step : Step) (name : Name) : Prop :=
  match step.act with
  | .receive _ request _ => request.name = name ∧
      ∃ rejectPending, step.answer = .decided (.ok (.suppress .duplicate rejectPending))
  | .respond _ _ response => response.name = name
  | .detectLoop request => request.name = name
  | .expire pending => pending.name = name
  | .cancel other => other = name
  | .shutdown => True
  | _ => False

/-- Nothing has settled the name since, and this firing for it was not delivered yet. -/
def History.Undecided (history : History) (handle : Handle) (name : Name) : Prop :=
  (∀ step ∈ history, ¬ step.Settles name) ∧
    (⟨handle, .forward name⟩ : Firing Event) ∉ history.delivered

namespace Engine

variable {engine later : Engine} {name other : Name} {handle : Handle}

/-- An act brings no handle back, whatever the host delivers. -/
theorem follows_perform (act : Act) (sound : engine.roster.Sound) :
    (engine.perform act).2.roster.Follows engine.roster :=
  (effect_perform act sound.timers).follows sound

theorem follows_run {history : History} (run : Run engine history later)
    (sound : engine.roster.Sound) : later.roster.Follows engine.roster := by
  induction run with
  | start => exact .refl sound
  | act _ act ih => exact (follows_perform act ih.sound).trans ih

/-- A handle that was handed out and counts for nothing will not count again. -/
theorem fire_of_spent {history : History} (run : Run engine history later)
    (sound : engine.roster.Sound) (below : handle.number < engine.timers.next.number)
    (spent : ∀ event, engine.live event ≠ some handle) (event : Event) :
    later.fire handle event = (.stale, later) := by
  apply fire_of_stale
  intro counts
  rcases (follows_run run sound).live_cases event handle counts with before | new
  · exact spent event before
  · exact Nat.not_lt_of_le new below

theorem sound_of_run {config : Config Float} {entropy : UInt64} {built : Engine} {history : History}
    (created : Engine.create config entropy = .ok built) (records : Records)
    (run : Run (built.withRecords records) history engine) : engine.roster.Sound := by
  obtain ⟨instanceName, seed, rfl⟩ := eq_start_of_create created
  exact (follows_run run (ledger_start config instanceName seed records).sound).sound

theorem deferral?_receive_of_ne (inFace : Face) (request : Request) (hops : List Hop)
    (different : name ≠ request.name) :
    (engine.receive inFace request hops).2.deferral? name = engine.deferral? name := by
  have received := receive_received engine inFace request hops
  generalize engine.receive inFace request hops = result at received
  cases received with
  | tooFar exceeds => rfl
  | overheard within held => rw [deferral?_cancelDeferred, if_neg different]
  | produced within idle out => rfl
  | stranded within idle => rfl
  | relayed within idle relayed =>
    cases relayed with
    | sent tagged => exact deferral?_sendNow engine _ _ name
    | held tagged generator delay =>
      rw [deferral?_defer, if_neg (tagged.name.symm ▸ different)]
      rfl
    | dropped => rfl
    | unbounded cause => rfl

theorem deferral?_respond (pending : Pending) (inFace : Face) (response : Response) (name : Name) :
    (engine.respond pending inFace response).2.deferral? name =
      if name = response.name then none else engine.deferral? name := by
  obtain ⟨destinations, book, same, -⟩ := respond_eq engine pending inFace response
  rw [same, ← deferral?_cancelDeferred]
  rfl

/-- A delivery for something else leaves what is held back under a name as it is. -/
theorem deferral?_fire_of_event_ne {event : Event} (other : event ≠ .forward name) :
    (engine.fire handle event).2.deferral? name = engine.deferral? name := by
  by_cases counts : engine.live event = some handle
  · cases event with
    | forward fired =>
      obtain ⟨deferral, held, rfl⟩ := live_forward_eq_some.mp counts
      have different : fired ≠ name := fun same => other (congrArg Event.forward same)
      rw [fire_forward held]
      simp [deferral?, creditRequest, Std.ExtTreeMap.getElem?_erase, different]
    | decay fired face => rfl
    | refresh => rfl
  · rw [fire_of_stale counts]

/-- A delivery that is not for the request held back leaves it waiting. -/
theorem deferral?_fire_of_ne {deferral : Deferral} (held : engine.deferral? name = some deferral)
    {event : Event} (other : (⟨handle, event⟩ : Firing Event) ≠ ⟨deferral.handle, .forward name⟩) :
    (engine.fire handle event).2.deferral? name = some deferral := by
  by_cases same : event = .forward name
  · subst same
    have stale : engine.live (.forward name) ≠ some handle := by
      intro counts
      obtain ⟨counting, found, rfl⟩ := live_forward_eq_some.mp counts
      obtain rfl := Option.some.inj (held.symm.trans found)
      exact other rfl
    rw [fire_of_stale stale]
    exact held
  · exact (deferral?_fire_of_event_ne same).trans held

theorem settles_of_duplicate {inFace : Face} {request : Request} {hops : List Hop}
    {rejectPending : Bool} (answered : (engine.receive inFace request hops).1 =
      .ok (.suppress .duplicate rejectPending)) :
    (⟨.receive inFace request hops, (engine.perform (.receive inFace request hops)).1⟩ :
      Step).Settles request.name :=
  ⟨rfl, rejectPending, congrArg Answer.decided answered⟩

/-- An act that neither settles a request held back nor delivers its firing leaves it waiting. -/
theorem deferral?_perform {deferral : Deferral} (held : engine.deferral? name = some deferral)
    (act : Act) (unsettled : ¬ (⟨act, (engine.perform act).1⟩ : Step).Settles name)
    (undelivered : (⟨deferral.handle, .forward name⟩ : Firing Event) ∉ act.deliveries) :
    (engine.perform act).2.deferral? name = some deferral := by
  have cancelling : ∀ other, other ≠ name →
      (engine.cancelDeferred other).2.deferral? name = some deferral := by
    intro other different
    rw [deferral?_cancelDeferred, if_neg different.symm]
    exact held
  cases act with
  | receive inFace request hops =>
    by_cases same : request.name = name
    · subst same
      have kept := receive_of_held inFace hops held
      split at kept
      · exact (congrArg (·.2.deferral? request.name) kept).trans held
      · exact False.elim (unsettled (settles_of_duplicate (congrArg Prod.fst kept)))
    · exact (deferral?_receive_of_ne inFace request hops (Ne.symm same)).trans held
  | respond pending inFace response =>
    have different : name ≠ response.name := fun same => unsettled same.symm
    exact (deferral?_respond pending inFace response name).trans ((if_neg different).trans held)
  | detectLoop request => exact cancelling _ unsettled
  | expire pending => exact cancelling _ unsettled
  | refuse inFace nack pending => exact held
  | cancel other => exact cancelling _ unsettled
  | sweep => exact held
  | shutdown => exact False.elim (unsettled trivial)
  | popDue limit => exact held
  | fireNext => exact held
  | advance step => exact held
  | advanceTo target => exact held
  | deliver firing =>
    exact deferral?_fire_of_ne held fun same => undelivered (List.mem_singleton.mpr same.symm)

/-- What settles a name leaves nothing held back under it. -/
theorem deferral?_of_settles (act : Act)
    (settles : (⟨act, (engine.perform act).1⟩ : Step).Settles name) :
    (engine.perform act).2.deferral? name = none := by
  have cancelled : (engine.cancelDeferred name).2.deferral? name = none := by
    rw [deferral?_cancelDeferred, if_pos rfl]
  cases act with
  | receive inFace request hops =>
    obtain ⟨rfl, rejectPending, answer⟩ := settles
    have after := receive_of_duplicate (Answer.decided.inj answer)
    exact (congrArg (·.deferral? request.name) after).trans cancelled
  | respond pending inFace response =>
    exact (deferral?_respond pending inFace response name).trans (if_pos (Eq.symm settles))
  | detectLoop request => cases settles; exact cancelled
  | expire pending => cases settles; exact cancelled
  | cancel other => cases settles; exact cancelled
  | shutdown => simp [perform, shutdown, deferral?]
  | refuse | sweep | popDue | fireNext | advance | advanceTo | deliver => exact False.elim settles

/-- A delivered firing does not count any more. -/
theorem live_ne_of_delivered (handle : Handle) (name : Name) :
    (engine.fire handle (.forward name)).2.live (.forward name) ≠ some handle := by
  by_cases counts : engine.live (.forward name) = some handle
  · obtain ⟨deferral, held, rfl⟩ := live_forward_eq_some.mp counts
    rw [fire_forward held]
    simp [live, deferral?, creditRequest]
  · rw [fire_of_stale counts]
    exact counts

/-- What a deferral answers is held back from then on. -/
theorem deferral?_of_deferred {inFace : Face} {request : Request} {hops : List Hop} {face : FaceId}
    {delay : Nanos} {held : Engine}
    (deferred : engine.receive inFace request hops = (.ok (.deferred face delay handle), held)) :
    ∃ sent, request.SentAs sent ∧ held.deferral? request.name = some ⟨handle, face, sent⟩ := by
  have received := receive_received engine inFace request hops
  rw [deferred] at received
  generalize result : (Except.ok (Decision.deferred face delay handle), held) = answer at received
  cases received with
  | relayed within idle relayed =>
    cases relayed with
    | @held sent tagged generator wait =>
      obtain ⟨sameDecision, rfl⟩ := Prod.mk.inj result
      rw [defer_fst] at sameDecision
      obtain ⟨rfl, rfl, rfl⟩ := Decision.deferred.inj (Except.ok.inj sameDecision)
      refine ⟨sent, tagged, ?_⟩
      rw [deferral?_defer, if_pos tagged.name.symm]
    | sent => cases result
    | dropped => cases result
    | unbounded cause => cases result
  | tooFar => cases result
  | overheard => cases result
  | produced => cases result
  | stranded => cases result

variable {held : Engine} {between : History} {deferral : Deferral}

theorem held_of_undecided (run : Run held between later)
    (waiting : held.deferral? name = some deferral)
    (undecided : between.Undecided deferral.handle name) :
    later.deferral? name = some deferral := by
  induction run with
  | start => exact waiting
  | act before act ih =>
    obtain ⟨unsettled, undelivered⟩ := undecided
    have earlier := List.forall_mem_cons.mp unsettled
    have split := fun member => undelivered (List.mem_append.mpr member)
    exact deferral?_perform (ih ⟨earlier.2, fun member => split (.inr member)⟩) act earlier.1
      fun member => split (.inl member)

theorem spent_of_decided (run : Run held between later) (sound : held.roster.Sound)
    (waiting : held.deferral? name = some deferral)
    (decided : ¬ between.Undecided deferral.handle name) (event : Event) :
    later.live event ≠ some deferral.handle := by
  have below := sound.handedOut (.forward name) _
    (live_forward_eq_some.mpr ⟨deferral, waiting, rfl⟩)
  induction run generalizing event with
  | start => exact False.elim (decided ⟨by simp, by simp [History.delivered]⟩)
  | @act history engine before act ih =>
    intro after
    have follows := follows_run before sound
    have still : engine.live event = some deferral.handle := by
      rcases (follows_perform act follows.sound).live_cases event _ after with earlier | new
      · exact earlier
      · exact False.elim (Nat.not_lt_of_le (Nat.le_trans follows.next_le new) below)
    by_cases undecided : history.Undecided deferral.handle name
    · -- The deferral was waiting until this step, so its handle counts for its name only.
      have waited := held_of_undecided before waiting undecided
      obtain rfl : event = .forward name := follows.sound.exclusive _ _ _ still
        (live_forward_eq_some.mpr ⟨deferral, waited, rfl⟩)
      by_cases settles : (⟨act, (engine.perform act).1⟩ : Step).Settles name
      · simp [live, deferral?_of_settles act settles] at after
      · by_cases delivers : (⟨deferral.handle, .forward name⟩ : Firing Event) ∈ act.deliveries
        · cases act with
          | deliver firing =>
            obtain rfl := List.mem_singleton.mp delivers
            exact live_ne_of_delivered _ name after
          | _ => cases delivers
        · refine decided ⟨List.forall_mem_cons.mpr ⟨settles, undecided.1⟩, fun member => ?_⟩
          exact (List.mem_append.mp member).elim delivers undecided.2
    · exact ih undecided event still

/-- The first delivery for a deferral sends what was held back, unless the name was settled in between.
Every other delivery of its handle changes nothing. -/
theorem deferral_decided_once {config : Config Float} {entropy : UInt64} {built : Engine}
    (created : Engine.create config entropy = .ok built) (records : Records) {history : History}
    (before : Run (built.withRecords records) history engine) {inFace : Face} {request : Request}
    {hops : List Hop} {face : FaceId} {delay : Nanos}
    (deferred : engine.receive inFace request hops = (.ok (.deferred face delay handle), held)) :
    ∃ sent, request.SentAs sent ∧ ∀ between later, Run held between later →
      ((later.fire handle (.forward request.name)).1 = .sendRequest face sent ↔
        between.Undecided handle request.name) ∧
      ∀ event, (event = .forward request.name → ¬ between.Undecided handle request.name) →
        later.fire handle event = (.stale, later) := by
  obtain ⟨sent, tagged, waiting⟩ := deferral?_of_deferred deferred
  have sound : held.roster.Sound := by
    have step := follows_perform (.receive inFace request hops) (sound_of_run created records before)
    simp only [perform, deferred] at step
    exact step.sound
  refine ⟨sent, tagged, fun between later run => ?_⟩
  have other : ∀ event, (event = .forward request.name → ¬ between.Undecided handle request.name) →
      later.fire handle event = (.stale, later) := by
    intro event decided
    apply fire_of_stale
    intro counts
    by_cases undecided : between.Undecided handle request.name
    · have waited := held_of_undecided run waiting undecided
      have same := (follows_run run sound).sound.exclusive event (.forward request.name) handle
        counts (live_forward_eq_some.mpr ⟨_, waited, rfl⟩)
      exact decided same undecided
    · exact spent_of_decided run sound waiting undecided event counts
  refine ⟨⟨fun sends => ?_, fun undecided => ?_⟩, other⟩
  · by_contra decided
    rw [other _ fun _ => decided] at sends
    cases sends
  · exact congrArg Prod.fst (fire_forward (held_of_undecided run waiting undecided))

/-- A relay that holds a request back hears a copy of it and then a third one. -/
def heardAgain : History × Engine :=
  (Sample.holding .navigo).performAll [Sample.hears "a", Sample.hears "a"]

/-- The timer of the first copy would send it, but not after the second one was heard, even though the
third one is held back again. -/
theorem deferral_decided_once_heard_again :
    (Sample.relay .navigo).receive Sample.medium (Sample.request "a") [⟨Sample.medium, 0⟩] =
        (.ok (.deferred ⟨257⟩ 500000 ⟨1⟩), Sample.holding .navigo) ∧
      heardAgain.2.deferral? ⟨["a"]⟩ = some ⟨⟨2⟩, ⟨257⟩, Sample.request "a"⟩ ∧
      ∃ sent, (Sample.request "a").SentAs sent ∧
        ((Sample.holding .navigo).fire ⟨1⟩ (.forward ⟨["a"]⟩)).1 = .sendRequest ⟨257⟩ sent ∧
        heardAgain.2.fire ⟨1⟩ (.forward ⟨["a"]⟩) = (.stale, heardAgain.2) := by
  have deferred : (Sample.relay .navigo).receive Sample.medium (Sample.request "a")
      [⟨Sample.medium, 0⟩] = (.ok (.deferred ⟨257⟩ 500000 ⟨1⟩), Sample.holding .navigo) :=
    Prod.ext (by decide +kernel) rfl
  have again : heardAgain.2.deferral? ⟨["a"]⟩ = some ⟨⟨2⟩, ⟨257⟩, Sample.request "a"⟩ := by
    decide +kernel
  have copy : ((Sample.holding .navigo).receive Sample.medium (Sample.request "a")
      [⟨Sample.medium, 0⟩]).1 = .ok (.suppress .duplicate false) := by decide +kernel
  have member : (⟨Sample.hears "a", ((Sample.holding .navigo).perform (Sample.hears "a")).1⟩ : Step) ∈
      heardAgain.1 := by
    simp [heardAgain, performAll]
  have settled : ¬ heardAgain.1.Undecided ⟨1⟩ ⟨["a"]⟩ := fun undecided =>
    undecided.1 _ member (settles_of_duplicate copy)
  obtain ⟨sent, tagged, fate⟩ :=
    deferral_decided_once (Sample.create_relay .navigo) {} .start deferred
  refine ⟨deferred, again, sent, tagged, ?_, ?_⟩
  · exact (fate [] _ .start).1.mpr ⟨by simp, by simp [History.delivered]⟩
  · exact (fate _ _ (run_performAll _ _)).2 _ fun _ => settled

end Engine

end Overhear
