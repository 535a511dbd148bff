import Mathlib.Logic.Function.Basic
import Overhear.Proofs.Engine.Holding

/-! Relays that hear each other. Each one has timers of its own, and a chronicle keeps what was done with
any of them, the latest first. Once a relay has sent a request that all of them hold back, and the others
have heard it, no other relay sends it. -/
namespace Overhear

/-- The request is put to the relay. -/
def Act.Asks (act : Act) (name : Name) : Prop :=
  match act with
  | .receive _ request _ => request.name = name
  | _ => False

/-- The relay is told something about a name, or that all is over. -/
def Act.Tells (act : Act) (name : Name) : Prop :=
  match act with
  | .receive _ request _ => request.name = name
  | .respond _ _ response => response.name = name
  | .detectLoop request => request.name = name
  | .expire pending => pending.name = name
  | .cancel other => other = name
  | .shutdown => True
  | .refuse .. | .sweep | .popDue _ | .fireNext | .advance _ | .advanceTo _ | .deliver _ => False

/-- A timer that was delivered makes the host send a request of the name. -/
def Step.Sends (step : Step) (name : Name) : Prop :=
  match step.answer with
  | .fired (.sendRequest _ sent) => sent.name = name
  | _ => False

/-- The relay hears a request, and is told nothing else of its name. Its own timer for that name is not
delivered before. -/
def History.Hears (history : History) (sent : Request) : Prop :=
  ∃ after inFace hops answer before,
    history = after ++ ⟨.receive inFace sent hops, answer⟩ :: before ∧
      (∀ step ∈ after ++ before, ¬ step.act.Tells sent.name) ∧
      ∀ handle, (⟨handle, .forward sent.name⟩ : Firing Event) ∉ History.delivered before

theorem History.hears_alone (inFace : Face) (sent : Request) (hops : List Hop) (answer : Answer) :
    History.Hears [⟨.receive inFace sent hops, answer⟩] sent :=
  ⟨[], inFace, hops, answer, [], rfl, by simp, by simp [History.delivered]⟩

theorem Act.Asks.tells {act : Act} {name : Name} (asks : act.Asks name) : act.Tells name := by
  cases act with
  | receive => exact asks
  | _ => cases asks

namespace Engine

variable {engine later : Engine} {name : Name} {request : Request} {deferral : Deferral}
  {history : History}

/-- A relay in a state that it can be in, right after it answered a request by holding it back. -/
inductive Defers (request : Request) : Engine → Prop where
  | intro {config : Config Float} {entropy : UInt64} {built engine held : Engine} {history : History}
      {inFace : Face} {hops : List Hop} {face : FaceId} {delay : Nanos} {handle : Handle}
      (created : Engine.create config entropy = .ok built) (records : Records)
      (run : Run (built.withRecords records) history engine)
      (answered : engine.receive inFace request hops = (.ok (.deferred face delay handle), held)) :
      Defers request held

/-- What a relay holds back is within its hop limit. -/
theorem within_of_deferred {inFace : Face} {hops : List Hop} {face : FaceId} {delay : Nanos}
    {handle : Handle} {held : Engine}
    (answered : engine.receive inFace request hops = (.ok (.deferred face delay handle), held)) :
    engine.exceedsHopLimit request = false := by
  have received := receive_received engine inFace request hops
  rw [answered] at received
  cases received with
  | relayed within idle relayed => exact within

/-- The limit is the same for a relay later on, and for a request that was tagged. -/
theorem exceedsHopLimit_sentAs {sent : Request} (config : later.config = engine.config)
    (tagged : request.SentAs sent) : later.exceedsHopLimit sent = engine.exceedsHopLimit request := by
  have hops : sent.hops = request.hops := by
    rcases tagged with same | ⟨-, tag, filled⟩
    · rw [same]
    · rw [filled]
  simp only [exceedsHopLimit, variant, config, hops]

/-- What a relay knows of a request that it just held back. -/
structure Holds (request : Request) (held : Engine) (deferral : Deferral) : Prop where
  tagged : request.SentAs deferral.request
  waiting : held.deferral? request.name = some deferral
  named : held.Named
  within : held.exceedsHopLimit request = false

theorem Defers.holds {held : Engine} (defers : Defers request held) :
    ∃ deferral, Holds request held deferral := by
  cases defers with
  | @intro config entropy built engine held history inFace hops face delay handle created records run
      answered =>
    obtain ⟨sent, tagged, waiting⟩ := deferral?_of_deferred answered
    have step : (engine.perform (.receive inFace request hops)).2 = held := congrArg Prod.snd answered
    have named := named_of_run created records (.act run (.receive inFace request hops))
    have config := config_perform engine (.receive inFace request hops)
    rw [step] at named config
    refine ⟨_, tagged, waiting, named, ?_⟩
    rw [exceedsHopLimit_sentAs config (.inl rfl)]
    exact within_of_deferred answered

/-- A step that sends something is the delivery of a timer, and takes away what was held back. -/
theorem held_of_step_sends (named : engine.Named) {act : Act}
    (sends : (⟨act, (engine.perform act).1⟩ : Step).Sends name) :
    ∃ handle face sent, act = .deliver ⟨handle, .forward name⟩ ∧
      engine.deferral? name = some ⟨handle, face, sent⟩ := by
  cases act with
  | deliver firing =>
    cases outcome : (engine.fire firing.handle firing.event).1 with
    | sendRequest face sent =>
      obtain ⟨other, event, held⟩ := held_of_sends outcome
      have same : sent.name = name := by simpa [Step.Sends, perform, outcome] using sends
      have renamed : other = name := (named other _ held).symm.trans same
      refine ⟨firing.handle, face, sent, ?_, renamed ▸ held⟩
      rw [← renamed, ← event]
    | upkeep | stale => simp [Step.Sends, perform, outcome] at sends
  | _ => exact False.elim sends

/-- Nothing comes to be held back under a name that a relay is not asked for. -/
theorem idle_perform (idle : engine.deferral? name = none) {act : Act} (unasked : ¬ act.Asks name) :
    (engine.perform act).2.deferral? name = none := by
  apply Option.eq_none_iff_forall_ne_some.mpr
  intro deferral held
  rcases deferral?_of_perform act held with before | ⟨inFace, request, hops, rfl, same, -⟩
  · rw [idle] at before
    cases before
  · exact unasked same.symm

theorem idle_run (run : Run engine history later) (idle : engine.deferral? name = none)
    (unasked : ∀ step ∈ history, ¬ step.act.Asks name) : later.deferral? name = none := by
  induction run with
  | start => exact idle
  | act before act ih =>
    obtain ⟨last, earlier⟩ := List.forall_mem_cons.mp unasked
    exact idle_perform (ih earlier) last

/-- A relay that holds nothing back under a name does not send it late, until it is asked for it. -/
theorem unsent_of_idle (run : Run engine history later) (named : engine.Named)
    (idle : engine.deferral? name = none) (unasked : ∀ step ∈ history, ¬ step.act.Asks name) :
    ∀ step ∈ history, ¬ step.Sends name := by
  induction run with
  | start => simp
  | @act history engine before act ih =>
    obtain ⟨last, earlier⟩ := List.forall_mem_cons.mp unasked
    refine List.forall_mem_cons.mpr ⟨fun sends => ?_, ih earlier⟩
    obtain ⟨handle, face, sent, -, held⟩ := held_of_step_sends (named.run before) sends
    simp [idle_run before idle earlier] at held

/-- Only the delivery of a timer for a name sends it. -/
theorem unsent_of_undelivered (run : Run engine history later) (named : engine.Named)
    (undelivered : ∀ handle, (⟨handle, .forward name⟩ : Firing Event) ∉ history.delivered) :
    ∀ step ∈ history, ¬ step.Sends name := by
  induction run with
  | start => simp
  | @act history engine before act ih =>
    have split := fun handle => not_or.mp (mt List.mem_append.mpr (undelivered handle))
    refine List.forall_mem_cons.mpr ⟨fun sends => ?_, ih fun handle => (split handle).2⟩
    obtain ⟨handle, face, sent, rfl, -⟩ := held_of_step_sends (named.run before) sends
    exact (split handle).1 (List.mem_singleton_self _)

/-- What is held back stays until the relay is told something, or sends it. -/
theorem held_of_unsent (run : Run engine history later) (named : engine.Named)
    (waiting : engine.deferral? name = some deferral)
    (untold : ∀ step ∈ history, ¬ step.act.Tells name)
    (unsent : ∀ step ∈ history, ¬ step.Sends name) : later.deferral? name = some deferral := by
  induction run with
  | start => exact waiting
  | @act history engine before act ih =>
    obtain ⟨quiet, untold⟩ := List.forall_mem_cons.mp untold
    obtain ⟨silent, unsent⟩ := List.forall_mem_cons.mp unsent
    have held := ih untold unsent
    refine deferral?_perform held act (fun settles => quiet ?_) fun delivers => silent ?_
    · cases act with
      | receive inFace request hops => exact settles.1
      | respond | detectLoop | expire | cancel | shutdown => exact settles
      | _ => cases settles
    · cases act with
      | deliver firing =>
        obtain rfl := List.mem_singleton.mp delivers
        have answer : (engine.perform (.deliver ⟨deferral.handle, .forward name⟩)).1 =
            .fired (.sendRequest deferral.face deferral.request) :=
          congrArg (fun fired : TimerOutcome × Engine => Answer.fired fired.1) (fire_forward held)
        have same := named.run before name deferral held
        simpa [Step.Sends, answer] using same
      | _ => cases delivers

/-- The first delivery that sends the request leaves nothing of it behind. -/
theorem idle_of_sends {handle : Handle} {event : Event} {face : FaceId} {sent : Request}
    (sends : (engine.fire handle event).1 = .sendRequest face sent) (named : engine.Named) :
    (engine.fire handle event).2.deferral? sent.name = none := by
  obtain ⟨name, rfl, held⟩ := held_of_sends sends
  obtain rfl : sent.name = name := named name _ held
  have fired := fire_forward held
  rw [fired]
  simp [deferral?, creditRequest]

/-- A relay that hears what it holds back itself gives it up. -/
theorem idle_of_overheard {copy : Request} (inFace : Face) (hops : List Hop)
    (held : engine.deferral? copy.name = some deferral)
    (within : engine.exceedsHopLimit copy = false) :
    (engine.perform (.receive inFace copy hops)).1 =
        .decided (.ok (.suppress .duplicate (engine.variant == .weighted))) ∧
      (engine.perform (.receive inFace copy hops)).2.deferral? copy.name = none := by
  have answer := receive_of_held inFace hops held
  rw [if_neg (Bool.eq_false_iff.mp within)] at answer
  constructor
  · exact congrArg (Answer.decided ·.1) answer
  · have gone := deferral?_cancelDeferred engine copy.name copy.name
    rw [if_pos rfl] at gone
    exact (congrArg (·.2.deferral? copy.name) answer).trans gone

variable {held : Engine} {sent : Request} {since before waiting : History}

/-- The relay whose timer is delivered sends what it held back, and no more of it after that. -/
theorem Holds.sends (holds : Holds request held deferral) {handle : Handle} {face : FaceId}
    (run : Run held (since ++
      ⟨.deliver ⟨handle, .forward request.name⟩, .fired (.sendRequest face sent)⟩ :: waiting) later)
    (untold : ∀ step ∈ waiting, ¬ step.act.Tells request.name)
    (unsent : ∀ step ∈ waiting, ¬ step.Sends request.name) :
    request.SentAs sent ∧ ((∀ step ∈ since, ¬ step.act.Asks request.name) →
      ∀ step ∈ since, ¬ step.Sends request.name) := by
  obtain ⟨done, delivery, rest⟩ := run.split
  generalize answered : Answer.fired (.sendRequest face sent) = answer at delivery
  cases delivery with
  | @act _ engine run =>
    have waited := held_of_unsent run holds.named holds.waiting untold unsent
    have sends : (engine.fire handle (.forward request.name)).1 = .sendRequest face sent :=
      (Answer.fired.inj answered).symm
    obtain ⟨name, event, found⟩ := held_of_sends sends
    obtain rfl := Event.forward.inj event
    have same : sent = deferral.request :=
      congrArg Deferral.request (Option.some.inj (found.symm.trans waited))
    have tagged : request.SentAs sent := same ▸ holds.tagged
    have gone := idle_of_sends sends (holds.named.run run)
    rw [tagged.name] at gone
    exact ⟨tagged, unsent_of_idle rest (holds.named.run (.act run _)) gone⟩

/-- What follows when a relay hears a copy of what it holds back, at the moment when it does. Its own timer was
not delivered since the others were `waiting`, so it has sent nothing and still holds the request back. -/
theorem Holds.overhears (holds : Holds request held deferral) (tagged : request.SentAs sent)
    {inFace : Face} {hops : List Hop} {answer : Answer}
    (run : Run held (⟨.receive inFace sent hops, answer⟩ :: (before ++ waiting)) later)
    (untold : ∀ step ∈ before ++ waiting, ¬ step.act.Tells request.name)
    (undelivered : ∀ handle, (⟨handle, .forward request.name⟩ : Firing Event) ∉ before.delivered)
    (unsent : ∀ step ∈ waiting, ¬ step.Sends request.name) :
    (∀ step ∈ before, ¬ step.Sends request.name) ∧
      answer = .decided (.ok (.suppress .duplicate (held.variant == .weighted))) ∧
      later.deferral? request.name = none := by
  cases run with
  | @act _ engine run =>
    have silent : ∀ step ∈ before, ¬ step.Sends request.name := by
      obtain ⟨start, first, between⟩ := run.split
      exact unsent_of_undelivered between (holds.named.run first) undelivered
    have waited := held_of_unsent run holds.named holds.waiting untold
      (List.forall_mem_append.mpr ⟨silent, unsent⟩)
    have config := config_run run
    have within := (exceedsHopLimit_sentAs config tagged).trans holds.within
    rw [← tagged.name] at waited
    have given := idle_of_overheard inFace hops waited within
    simp only [variant, config, tagged.name] at given
    exact ⟨silent, given⟩

/-- A relay that hears the copy gives up what it holds back, and sends nothing of it from then on. -/
theorem Holds.hears {hearing : History} (holds : Holds request held deferral)
    (tagged : request.SentAs sent) (hears : hearing.Hears sent)
    (run : Run held (since ++ (hearing ++ waiting)) later)
    (untold : ∀ step ∈ waiting, ¬ step.act.Tells request.name)
    (unsent : ∀ step ∈ waiting, ¬ step.Sends request.name) :
    (∀ inFace hops answer, (⟨.receive inFace sent hops, answer⟩ : Step) ∈ hearing →
      answer = .decided (.ok (.suppress .duplicate (held.variant == .weighted)))) ∧
    ((∀ step ∈ since, ¬ step.act.Asks request.name) →
      ∀ step ∈ since ++ hearing, ¬ step.Sends request.name) := by
  obtain ⟨after, inFace, hops, answer, before, rfl, quiet, undelivered⟩ := hears
  rw [tagged.name] at undelivered quiet
  obtain ⟨calm, still⟩ := List.forall_mem_append.mp quiet
  have regrouped :
      since ++ (after ++ ⟨.receive inFace sent hops, answer⟩ :: before ++ waiting) =
        (since ++ after) ++ ⟨.receive inFace sent hops, answer⟩ :: (before ++ waiting) := by
    simp
  rw [regrouped] at run
  obtain ⟨done, heard, rest⟩ := run.split
  obtain ⟨silent, given, gone⟩ := holds.overhears tagged heard
    (List.forall_mem_append.mpr ⟨still, untold⟩) undelivered unsent
  constructor
  · intro inFace' hops' answer' member
    rcases List.mem_append.mp member with late | member
    · exact absurd tagged.name (calm _ late)
    · rcases List.mem_cons.mp member with same | early
      · cases same
        exact given
      · exact absurd tagged.name (still _ early)
  · intro unasked
    have idle := unsent_of_idle rest (holds.named.run heard) gone
      (List.forall_mem_append.mpr ⟨unasked, fun step member asks => calm step member asks.tells⟩)
    rw [← List.append_assoc]
    refine List.forall_mem_append.mpr ⟨idle, List.forall_mem_cons.mpr ⟨?_, silent⟩⟩
    rw [given]
    exact not_false

end Engine

/-- One step of one relay. -/
structure Turn (ι : Type) where
  relay : ι
  step : Step

/-- What happened in a neighbourhood so far, the latest turn first. -/
abbrev Chronicle (ι : Type) := List (Turn ι)

namespace Neighbourhood

variable {ι : Type} [DecidableEq ι]

/-- What happened to one relay. -/
def historyOf (chronicle : Chronicle ι) (relay : ι) : History :=
  chronicle.filterMap fun turn => if turn.relay = relay then some turn.step else none

theorem historyOf_append (later chronicle : Chronicle ι) (relay : ι) :
    historyOf (later ++ chronicle) relay = historyOf later relay ++ historyOf chronicle relay :=
  List.filterMap_append

theorem historyOf_cons (turn : Turn ι) (chronicle : Chronicle ι) (relay : ι) :
    historyOf (turn :: chronicle) relay =
      if turn.relay = relay then turn.step :: historyOf chronicle relay
      else historyOf chronicle relay := by
  simp only [historyOf, List.filterMap_cons]
  split <;> rename_i same <;> split at same <;> simp_all

theorem mem_historyOf {chronicle : Chronicle ι} {relay : ι} {step : Step} :
    step ∈ historyOf chronicle relay ↔ (⟨relay, step⟩ : Turn ι) ∈ chronicle := by
  constructor
  · intro member
    obtain ⟨⟨other, same⟩, found, kept⟩ := List.mem_filterMap.mp member
    split at kept
    · rename_i equal
      cases kept
      exact (equal : other = relay) ▸ found
    · cases kept
  · intro member
    exact List.mem_filterMap.mpr ⟨_, member, if_pos rfl⟩

/-- Relays reached from others, one turn at a time and in any order of the relays. -/
inductive Run (start : ι → Engine) : Chronicle ι → (ι → Engine) → Prop where
  | start : Run start [] start
  | act {chronicle : Chronicle ι} {relays : ι → Engine} (before : Run start chronicle relays)
      (relay : ι) (act : Act) :
      Run start (⟨relay, act, ((relays relay).perform act).1⟩ :: chronicle)
        (Function.update relays relay ((relays relay).perform act).2)

/-- No relay is touched by the turns of the others. -/
theorem Run.relay {start relays : ι → Engine} {chronicle : Chronicle ι}
    (run : Run start chronicle relays) (relay : ι) :
    Engine.Run (start relay) (historyOf chronicle relay) (relays relay) := by
  induction run with
  | start => exact .start
  | @act chronicle relays before turned act ih =>
    by_cases same : turned = relay
    · subst same
      rw [historyOf_cons, if_pos rfl, Function.update_self]
      exact .act ih act
    · rw [historyOf_cons, if_neg same, Function.update_of_ne (Ne.symm same)]
      exact ih

/-- Have the hosts do several things, given with the latest first. -/
def performAll (relays : ι → Engine) : List (ι × Act) → Chronicle ι × (ι → Engine)
  | [] => ([], relays)
  | (relay, act) :: earlier =>
      let before := performAll relays earlier
      let result := (before.2 relay).perform act
      (⟨relay, act, result.1⟩ :: before.1, Function.update before.2 relay result.2)

theorem Run.performAll {start relays : ι → Engine} {chronicle : Chronicle ι}
    (run : Run start chronicle relays) (acts : List (ι × Act)) :
    Run start ((performAll relays acts).1 ++ chronicle) (performAll relays acts).2 := by
  induction acts with
  | nil => exact run
  | cons turn earlier ih => exact .act ih turn.1 turn.2

/-- Every other relay hears what one has sent. -/
structure Spreads (spreading : Chronicle ι) (winner : ι) (sent : Request) : Prop where
  sender : ∀ step ∈ historyOf spreading winner, ¬ step.act.Tells sent.name
  hearer : ∀ relay, relay ≠ winner → (historyOf spreading relay).Hears sent

/-- Of any number of relays that hold the same request back, the one whose timer is delivered first sends
it. Once the others have heard it, no timer makes one of them send it, in any order of deliveries, until
that relay is asked for it again. -/
theorem one_relay_transmits {request : Request} {held relays : ι → Engine}
    (deferred : ∀ relay, Engine.Defers request (held relay))
    {later spreading waiting : Chronicle ι} {winner : ι} {handle : Handle} {face : FaceId}
    {sent : Request}
    (run : Run held (later ++ (spreading ++
      ⟨winner, .deliver ⟨handle, .forward request.name⟩, .fired (.sendRequest face sent)⟩ ::
        waiting)) relays)
    (untold : ∀ turn ∈ waiting, ¬ turn.step.act.Tells request.name)
    (first : ∀ turn ∈ waiting, ¬ turn.step.Sends request.name)
    (spreads : Spreads spreading winner sent) :
    (∀ turn ∈ spreading, turn.relay ≠ winner → ∀ inFace hops,
      turn.step.act = .receive inFace sent hops → turn.step.answer =
        .decided (.ok (.suppress .duplicate ((held turn.relay).variant == .weighted)))) ∧
    ∀ turn ∈ later ++ spreading,
      (∀ step ∈ historyOf later turn.relay, ¬ step.act.Asks request.name) →
      ¬ turn.step.Sends request.name := by
  have quiet : ∀ relay, (∀ step ∈ historyOf waiting relay, ¬ step.act.Tells request.name) ∧
      ∀ step ∈ historyOf waiting relay, ¬ step.Sends request.name :=
    fun relay => ⟨fun step member => untold _ (mem_historyOf.mp member),
      fun step member => first _ (mem_historyOf.mp member)⟩
  obtain ⟨own, holdsOwn⟩ := (deferred winner).holds
  have wins := run.relay winner
  simp only [historyOf_append, historyOf_cons, if_pos] at wins
  rw [← List.append_assoc] at wins
  obtain ⟨tagged, silent⟩ := holdsOwn.sends wins (quiet winner).1 (quiet winner).2
  have each : ∀ relay,
      (relay ≠ winner → ∀ inFace hops answer,
        (⟨.receive inFace sent hops, answer⟩ : Step) ∈ historyOf spreading relay →
        answer = .decided (.ok (.suppress .duplicate ((held relay).variant == .weighted)))) ∧
      ((∀ step ∈ historyOf later relay, ¬ step.act.Asks request.name) →
        ∀ step ∈ historyOf later relay ++ historyOf spreading relay, ¬ step.Sends request.name) := by
    intro relay
    by_cases other : relay = winner
    · subst other
      refine ⟨fun different => absurd rfl different, fun unasked => silent ?_⟩
      refine List.forall_mem_append.mpr ⟨unasked, fun step member asks => ?_⟩
      exact spreads.sender step member (tagged.name.symm ▸ asks.tells)
    · obtain ⟨deferral, holds⟩ := (deferred relay).holds
      have hears := run.relay relay
      simp only [historyOf_append, historyOf_cons, if_neg (Ne.symm other)] at hears
      obtain ⟨given, silent⟩ := holds.hears tagged (spreads.hearer relay other) hears
        (quiet relay).1 (quiet relay).2
      exact ⟨fun _ => given, silent⟩
  constructor
  · intro turn member different inFace hops act
    refine (each turn.relay).1 different inFace hops _ (mem_historyOf.mpr ?_)
    rw [← act]
    exact member
  · intro turn member unasked
    refine (each turn.relay).2 unasked turn.step ?_
    rw [← historyOf_append]
    exact mem_historyOf.mpr member

/-- Relays of three variants, which hold the same request back. -/
def trio : Fin 3 → Engine
  | 0 => Sample.holding .navigo
  | 1 => Sample.holding .weighted
  | 2 => Sample.holding .vndn

/-- The timers of two of them are taken out before any of them is delivered. -/
def popping : Chronicle (Fin 3) × (Fin 3 → Engine) := performAll trio [(1, .fireNext), (0, .fireNext)]

def transmitting : Chronicle (Fin 3) × (Fin 3 → Engine) :=
  performAll popping.2 [(0, .deliver ⟨⟨1⟩, .forward ⟨["a"]⟩⟩)]

def spreadingCopy : Chronicle (Fin 3) × (Fin 3 → Engine) :=
  performAll transmitting.2 [(2, Sample.hears "a"), (1, Sample.hears "a")]

/-- The timer that was taken out is delivered late, and the others as well. -/
def deliveringLate : Chronicle (Fin 3) × (Fin 3 → Engine) :=
  performAll spreadingCopy.2 [(0, .deliver ⟨⟨1⟩, .forward ⟨["a"]⟩⟩),
    (2, .deliver ⟨⟨1⟩, .forward ⟨["a"]⟩⟩), (1, .deliver ⟨⟨1⟩, .forward ⟨["a"]⟩⟩)]

theorem defers_trio (relay : Fin 3) : Engine.Defers (Sample.request "a") (trio relay) := by
  have held : ∀ (variant : Variant) (delay : Nanos),
      ((Sample.relay variant).receive Sample.medium (Sample.request "a") [⟨Sample.medium, 0⟩]).1 =
        .ok (.deferred ⟨257⟩ delay ⟨1⟩) →
      Engine.Defers (Sample.request "a") (Sample.holding variant) := by
    intro variant delay answered
    exact .intro (Sample.create_relay variant) {} .start (Prod.ext answered rfl)
  match relay with
  | 0 => exact held .navigo 500000 (by decide +kernel)
  | 1 => exact held .weighted 1697000 (by decide +kernel)
  | 2 => exact held .vndn 33338000 (by decide +kernel)

theorem spreads_spreadingCopy : Spreads spreadingCopy.1 0 (Sample.request "a") := by
  obtain ⟨first, second, copies⟩ : ∃ first second, spreadingCopy.1 =
      [⟨2, Sample.hears "a", first⟩, ⟨1, Sample.hears "a", second⟩] := by
    simp only [spreadingCopy, performAll]
    exact ⟨_, _, rfl⟩
  rw [copies]
  constructor
  · simp [historyOf]
  · intro relay other
    match relay with
    | 0 => exact absurd rfl other
    | 1 | 2 => exact History.hears_alone ..

/-- The timer of a relay that has heard the request had been taken out before, and that of another one is
delivered although it was cancelled. -/
theorem one_relay_transmits_late_firing :
    (((popping.2 0).fire ⟨1⟩ (.forward ⟨["a"]⟩)).1 = .sendRequest ⟨257⟩ (Sample.request "a") ∧
      Spreads spreadingCopy.1 0 (Sample.request "a")) ∧
    (∀ turn ∈ spreadingCopy.1, turn.relay ≠ 0 → ∀ inFace hops,
      turn.step.act = .receive inFace (Sample.request "a") hops → turn.step.answer =
        .decided (.ok (.suppress .duplicate ((trio turn.relay).variant == .weighted)))) ∧
    ∀ turn ∈ deliveringLate.1 ++ spreadingCopy.1, ¬ turn.step.Sends ⟨["a"]⟩ := by
  have sends : ((popping.2 0).fire ⟨1⟩ (.forward ⟨["a"]⟩)).1 =
      .sendRequest ⟨257⟩ (Sample.request "a") := by decide +kernel
  have transmitted : transmitting.1 = [⟨0, .deliver ⟨⟨1⟩, .forward ⟨["a"]⟩⟩,
      .fired (.sendRequest ⟨257⟩ (Sample.request "a"))⟩] := by
    simp only [transmitting, performAll, Engine.perform_deliver, Prod.map_fst, sends]
  have popped : Run trio (popping.1 ++ []) popping.2 := Run.start.performAll _
  have sent : Run trio (transmitting.1 ++ (popping.1 ++ [])) transmitting.2 := popped.performAll _
  have heard : Run trio (spreadingCopy.1 ++ (transmitting.1 ++ (popping.1 ++ []))) spreadingCopy.2 :=
    sent.performAll _
  have run : Run trio (deliveringLate.1 ++ (spreadingCopy.1 ++ (transmitting.1 ++ (popping.1 ++ []))))
      deliveringLate.2 := heard.performAll _
  rw [transmitted, List.singleton_append] at run
  have unasked : ∀ turn ∈ deliveringLate.1, ¬ turn.step.act.Asks ⟨["a"]⟩ := by
    simp [deliveringLate, performAll, Act.Asks]
  have untold : ∀ turn ∈ popping.1 ++ [], ¬ turn.step.act.Tells ⟨["a"]⟩ := by
    simp [popping, performAll, Act.Tells]
  have unsent : ∀ turn ∈ popping.1 ++ [], ¬ turn.step.Sends ⟨["a"]⟩ := by
    simp [popping, performAll, Step.Sends, Engine.perform]
  obtain ⟨overheard, silent⟩ :=
    one_relay_transmits defers_trio run untold unsent spreads_spreadingCopy
  refine ⟨⟨sends, spreads_spreadingCopy⟩, overheard, fun turn member => ?_⟩
  exact silent turn member fun step taken => unasked _ (mem_historyOf.mp taken)

end Neighbourhood

end Overhear
