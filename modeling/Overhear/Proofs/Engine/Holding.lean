import Overhear.Proofs.Engine.Fate

/-! What an engine holds back is a request that it was given, and all that it sends late is what it holds
back. Its settings never change, and only a response changes what it knows of destinations. -/
namespace Overhear.Engine

variable {engine middle after later : Engine} {name : Name} {handle : Handle} {deferral : Deferral}

/-- The settings stay, and nothing new is known of destinations. -/
structure Unlearned (engine after : Engine) : Prop where
  config : after.config = engine.config
  destinations : after.destinations = engine.destinations

theorem Unlearned.refl (engine : Engine) : engine.Unlearned engine := ⟨rfl, rfl⟩

theorem Unlearned.trans (first : engine.Unlearned middle) (second : middle.Unlearned after) :
    engine.Unlearned after :=
  ⟨second.config.trans first.config, second.destinations.trans first.destinations⟩

theorem unlearned_cancelDeferred (engine : Engine) (name : Name) :
    engine.Unlearned (engine.cancelDeferred name).2 := by
  unfold cancelDeferred
  split
  · exact .refl engine
  · exact ⟨rfl, rfl⟩

theorem unlearned_defer (engine : Engine) (request : Request) (face : FaceId) (delay : Nanos) :
    engine.Unlearned (engine.defer request face delay).2 :=
  (unlearned_cancelDeferred engine request.name).trans ⟨rfl, rfl⟩

theorem unlearned_sendNow (engine : Engine) (request : Request) (faces : List FaceId) :
    engine.Unlearned (engine.sendNow request faces).2 :=
  List.foldlRecOn (motive := engine.Unlearned) _ _ (.refl engine) fun _ unlearned _ _ =>
    unlearned.trans ⟨rfl, rfl⟩

theorem unlearned_receive (engine : Engine) (inFace : Face) (request : Request) (hops : List Hop) :
    engine.Unlearned (engine.receive inFace request hops).2 := by
  have received := receive_received engine inFace request hops
  generalize engine.receive inFace request hops = result at received
  cases received with
  | tooFar | stranded => exact .refl engine
  | overheard within held => exact unlearned_cancelDeferred engine request.name
  | produced within idle out => exact ⟨rfl, rfl⟩
  | relayed within idle relayed =>
    cases relayed with
    | @sent sent tagged => exact unlearned_sendNow engine sent _
    | @held sent tagged generator delay =>
      have seeded : engine.Unlearned { engine with generator } := ⟨rfl, rfl⟩
      exact seeded.trans (unlearned_defer { engine with generator } sent _ delay)
    | dropped | unbounded => exact .refl engine

theorem unlearned_fire (engine : Engine) (handle : Handle) (event : Event) :
    engine.Unlearned (engine.fire handle event).2 := by
  cases event with
  | forward name =>
    unfold fire
    dsimp only
    split
    · exact .refl engine
    · exact ⟨rfl, rfl⟩
  | decay name face => exact ⟨rfl, rfl⟩
  | refresh => exact ⟨rfl, rfl⟩

theorem unlearned_perform (engine : Engine) {act : Act}
    (unanswered : ∀ pending inFace response, act ≠ .respond pending inFace response) :
    engine.Unlearned (engine.perform act).2 := by
  cases act with
  | receive inFace request hops => exact unlearned_receive engine inFace request hops
  | respond pending inFace response => exact absurd rfl (unanswered pending inFace response)
  | detectLoop request => exact unlearned_cancelDeferred engine request.name
  | expire pending => exact unlearned_cancelDeferred engine pending.name
  | cancel name => exact unlearned_cancelDeferred engine name
  | refuse | sweep | shutdown | popDue | fireNext | advance | advanceTo => exact ⟨rfl, rfl⟩
  | deliver firing => exact unlearned_fire engine firing.handle firing.event

theorem config_perform (engine : Engine) (act : Act) :
    (engine.perform act).2.config = engine.config := by
  by_cases answered : ∃ pending inFace response, act = .respond pending inFace response
  · obtain ⟨pending, inFace, response, rfl⟩ := answered
    obtain ⟨destinations, book, same, -⟩ := respond_eq engine pending inFace response
    exact (congrArg Engine.config same).trans (unlearned_cancelDeferred engine response.name).config
  · refine (unlearned_perform engine fun pending inFace response same => ?_).config
    exact answered ⟨pending, inFace, response, same⟩

theorem config_run {history : History} (run : Run engine history later) :
    later.config = engine.config := by
  induction run with
  | start => rfl
  | act _ act ih => exact (config_perform _ act).trans ih

theorem deferral?_of_relayed {request : Request} {face : FaceId} {others : List FaceId}
    {result : Except Random.SpanError Decision × Engine}
    (relayed : Relayed engine request face others result)
    (after : result.2.deferral? name = some deferral) :
    engine.deferral? name = some deferral ∨
      name = request.name ∧ request.SentAs deferral.request := by
  cases relayed with
  | sent tagged =>
    rw [deferral?_sendNow] at after
    exact .inl after
  | @held sent tagged generator delay =>
    rw [deferral?_defer] at after
    split at after
    · rename_i same
      cases after
      exact .inr ⟨same.trans tagged.name, tagged⟩
    · exact .inl after
  | dropped | unbounded => exact .inl after

theorem deferral?_of_fire {event : Event}
    (after : (engine.fire handle event).2.deferral? name = some deferral) :
    engine.deferral? name = some deferral := by
  by_cases counts : engine.live event = some handle
  · by_cases same : event = .forward name
    · subst same
      obtain ⟨fired, held, rfl⟩ := live_forward_eq_some.mp counts
      rw [fire_forward held] at after
      simp [deferral?, creditRequest] at after
    · exact (deferral?_fire_of_event_ne same).symm.trans after
  · rwa [fire_of_stale counts] at after

/-- What is held back after an act was held back before, or the act brought it. -/
theorem deferral?_of_perform (act : Act)
    (after : (engine.perform act).2.deferral? name = some deferral) :
    engine.deferral? name = some deferral ∨ ∃ inFace request hops,
      act = .receive inFace request hops ∧ name = request.name ∧ request.SentAs deferral.request := by
  have cancelled : ∀ other, (engine.cancelDeferred other).2.deferral? name = some deferral →
      engine.deferral? name = some deferral := by
    intro other still
    rw [deferral?_cancelDeferred] at still
    split at still
    · cases still
    · exact still
  cases act with
  | receive inFace request hops =>
    have received := receive_received engine inFace request hops
    have kept : (engine.receive inFace request hops).2.deferral? name = some deferral := after
    generalize engine.receive inFace request hops = result at received kept
    cases received with
    | tooFar | produced | stranded => exact .inl kept
    | overheard within held => exact .inl (cancelled request.name kept)
    | relayed within idle relayed =>
      refine (deferral?_of_relayed relayed kept).imp_right fun ⟨same, tagged⟩ => ?_
      exact ⟨inFace, request, hops, rfl, same, tagged⟩
  | respond pending inFace response =>
    have kept := (deferral?_respond pending inFace response name).symm.trans after
    split at kept
    · cases kept
    · exact .inl kept
  | detectLoop request => exact .inl (cancelled request.name after)
  | expire pending => exact .inl (cancelled pending.name after)
  | cancel other => exact .inl (cancelled other after)
  | refuse | sweep | popDue | fireNext | advance | advanceTo => exact .inl after
  | shutdown => simp [perform, shutdown, deferral?] at after
  | deliver firing => exact .inl (deferral?_of_fire after)

/-- Each request is held back under its own name. -/
def Named (engine : Engine) : Prop :=
  ∀ name deferral, engine.deferral? name = some deferral → deferral.request.name = name

theorem Named.run {start : Engine} {history : History} (named : start.Named)
    (run : Run start history engine) : engine.Named := by
  induction run with
  | start => exact named
  | act before act ih =>
    intro name deferral held
    rcases deferral?_of_perform act held with earlier | ⟨inFace, request, hops, -, rfl, tagged⟩
    · exact ih name deferral earlier
    · exact tagged.name

theorem named_of_run {config : Config Float} {entropy : UInt64} {built : Engine} {history : History}
    (created : Engine.create config entropy = .ok built) (records : Records)
    (run : Run (built.withRecords records) history engine) : engine.Named := by
  obtain ⟨instanceName, seed, rfl⟩ := eq_start_of_create created
  refine Named.run ?_ run
  intro name deferral held
  simp [deferral?, withRecords, start] at held

/-- Only the timer of a request held back sends something, which is that request. -/
theorem held_of_sends {event : Event} {face : FaceId} {sent : Request}
    (sends : (engine.fire handle event).1 = .sendRequest face sent) :
    ∃ name, event = .forward name ∧ engine.deferral? name = some ⟨handle, face, sent⟩ := by
  cases event with
  | forward name =>
    by_cases counts : engine.live (.forward name) = some handle
    · obtain ⟨deferral, held, rfl⟩ := live_forward_eq_some.mp counts
      rw [fire_forward held] at sends
      cases sends
      exact ⟨name, rfl, held⟩
    · rw [fire_of_stale counts] at sends
      cases sends
  | decay name face =>
    simp only [fire] at sends
    split at sends <;> cases sends
  | refresh =>
    simp only [fire] at sends
    split at sends <;> cases sends

theorem sound_of_receive {inFace : Face} {request : Request} {hops : List Hop}
    {answer : Except Random.SpanError Decision} (sound : engine.roster.Sound)
    (answered : engine.receive inFace request hops = (answer, after)) : after.roster.Sound := by
  have follows := (follows_perform (.receive inFace request hops) sound).sound
  rwa [perform, answered] at follows

/-- Whatever the handle of a deferral sends later is the request that was held back with it. -/
theorem sent_of_held {history : History} (run : Run engine history later)
    (sound : engine.roster.Sound) (waiting : engine.deferral? name = some deferral) {event : Event}
    {face : FaceId} {sent : Request}
    (sends : (later.fire deferral.handle event).1 = .sendRequest face sent) :
    event = .forward name ∧ face = deferral.face ∧ sent = deferral.request := by
  obtain ⟨other, rfl, held⟩ := held_of_sends sends
  have counts : later.roster.live (.forward other) = some deferral.handle :=
    live_forward_eq_some.mpr ⟨_, held, rfl⟩
  by_cases undecided : history.Undecided deferral.handle name
  · have waited := held_of_undecided run waiting undecided
    have same := (follows_run run sound).sound.exclusive (.forward other) (.forward name) _ counts
      (live_forward_eq_some.mpr ⟨_, waited, rfl⟩)
    cases same
    have found := Option.some.inj (waited.symm.trans held)
    exact ⟨rfl, (congrArg Deferral.face found).symm, (congrArg Deferral.request found).symm⟩
  · exact absurd counts (spent_of_decided run sound waiting undecided (.forward other))

end Overhear.Engine
