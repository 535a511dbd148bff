import Overhear.Proofs.Engine.Forwarding

/-! Where requests go and what arrives there. A request takes the first line of its own, else all shared
media at once or the first of them later; on the way a relay changes nothing but a missing tag. -/
namespace Overhear

/-- The request that goes out is the one that came in. Only a missing tag is filled in, by every relay but
one that just repeats what it hears. -/
structure Request.Intact (variant : Variant) (request sent : Request) : Prop where
  name : sent.name = request.name
  nonce : sent.nonce = request.nonce
  hops : sent.hops = request.hops
  kept : ∀ tag, request.tag = some tag → sent.tag = some tag
  filled : request.tag = none → (sent.tag.isSome = true ↔ variant ≠ .broadcast)

namespace Engine

variable {engine after later : Engine} {inFace : Face} {request : Request} {hops : List Hop}
  {decision : Decision} {name : Name} {deferral : Deferral} {history : History}

/-- What is decided on a request that is not dropped, and the request that goes out. -/
inductive Leaves (variant : Variant) (request : Request) (hops : List Hop) : Decision → Request → Prop where
  | direct {hop : Hop} (lined : line? hops = some hop) :
      Leaves variant request hops (.send [hop.face.id] request) request
  | spread (unlined : line? hops = none) {sent : Request} (intact : request.Intact variant sent) :
      Leaves variant request hops (.send (shared hops) sent) sent
  | delayed (unlined : line? hops = none) {face : FaceId} (first : (shared hops).head? = some face)
      (delay : Nanos) (handle : Handle) {sent : Request} (intact : request.Intact variant sent) :
      Leaves variant request hops (.deferred face delay handle) sent

theorem intact_outgoing (engine : Engine) (request : Request) :
    request.Intact engine.variant (engine.outgoing request) where
  name := rfl
  nonce := rfl
  hops := rfl
  kept tag tagged := by rw [outgoing_of_tagged tagged, tagged]
  filled untagged := by
    simp only [outgoing_of_untagged untagged, filling?]
    cases engine.variant <;> simp

theorem line?_usable {hop : Hop} (lined : line? hops = some hop) :
    hop ∈ hops ∧ hop.face.isPointToPoint = true :=
  ⟨List.mem_of_find?_eq_some lined, List.find?_some (p := fun hop : Hop => hop.face.isPointToPoint) lined⟩

theorem mem_shared {face : FaceId} :
    face ∈ shared hops ↔ ∃ hop ∈ hops, hop.face.isBroadcast = true ∧ hop.face.id = face := by
  simp [shared, and_assoc]

/-- Every face in a decision is that of a candidate with a link of a usable kind. -/
theorem Leaves.usable {variant : Variant} {sent : Request}
    (leaves : Leaves variant request hops decision sent) {face : FaceId}
    (target : face ∈ decision.targets) :
    ∃ hop ∈ hops, hop.face.id = face ∧
      (hop.face.isPointToPoint = true ∨ hop.face.isBroadcast = true) := by
  have onMedium : face ∈ shared hops → ∃ hop ∈ hops, hop.face.id = face ∧
      (hop.face.isPointToPoint = true ∨ hop.face.isBroadcast = true) := by
    intro member
    obtain ⟨hop, candidate, broadcast, same⟩ := mem_shared.mp member
    exact ⟨hop, candidate, same, .inr broadcast⟩
  cases leaves with
  | direct lined =>
    obtain ⟨candidate, line⟩ := line?_usable lined
    exact ⟨_, candidate, (List.mem_singleton.mp target).symm, .inl line⟩
  | spread => exact onMedium target
  | delayed unlined first =>
    obtain rfl := List.mem_singleton.mp target
    exact onMedium (List.mem_of_head? first)

theorem deferral?_defer_outgoing (engine other : Engine) (request : Request) (face : FaceId)
    (delay : Nanos) :
    (other.defer (engine.outgoing request) face delay).2.deferral? request.name =
      some ⟨other.timers.next, face, engine.outgoing request⟩ :=
  (deferral?_defer other (engine.outgoing request) face delay request.name).trans (if_pos rfl)

/-- A request that is not dropped leaves as it should, by a relay as that sends it. If it is to leave later,
it is held back as it is to leave, under its own name. -/
theorem leaves_of_receive (answered : engine.receive inFace request hops = (.ok decision, after))
    (undropped : decision.isSuppressed = false) :
    ∃ sent, Leaves engine.variant request hops decision sent ∧
      (line? hops = none → sent = engine.outgoing request) ∧
      ∀ face delay handle, decision = .deferred face delay handle →
        after.deferral? request.name = some ⟨handle, face, sent⟩ := by
  rcases drops_or_passes engine inFace request hops with ⟨_, _, drops⟩ | passes
  · rw [receive_of_drops inFace drops] at answered
    cases answered
    cases undropped
  rw [answered] at passes
  generalize result : ((.ok decision, after) : Except Random.SpanError Decision × Engine) =
    outcome at passes
  cases passes with
  | direct lined =>
    cases result
    exact ⟨request, .direct lined, fun unlined => (nomatch lined.symm.trans unlined), nofun⟩
  | @relayed idle unlined face others media _ goes =>
    have intact := intact_outgoing engine request
    refine ⟨engine.outgoing request, ?_⟩
    cases goes with
    | now =>
      cases result
      have spread : Leaves engine.variant request hops _ _ := .spread unlined intact
      rw [media] at spread
      exact ⟨spread, fun _ => rfl, nofun⟩
    | later generator delay =>
      have first : (shared hops).head? = some face := by rw [media, List.head?_cons]
      rw [defer_fst] at result
      obtain ⟨same, rfl⟩ := Prod.mk.inj result
      obtain rfl := Except.ok.inj same
      refine ⟨.delayed unlined first delay _ intact, fun _ => rfl, fun onFace wait handle deferred => ?_⟩
      obtain ⟨rfl, rfl, rfl⟩ := Decision.deferred.inj deferred
      exact deferral?_defer_outgoing engine _ request face delay
    | unbounded cause => cases result

/-- Only a decision to hold a request back brings a new deferral. -/
theorem deferral?_of_receive
    (held : (engine.receive inFace request hops).2.deferral? name = some deferral) :
    engine.deferral? name = some deferral ∨ name = request.name ∧
      ∃ delay, (engine.receive inFace request hops).1 =
        .ok (.deferred deferral.face delay deferral.handle) := by
  by_cases same : name = request.name
  · subst same
    rcases drops_or_passes engine inFace request hops with ⟨reason, _, drops⟩ | passes
    · rw [receive_of_drops inFace drops] at held
      cases reason with
      | duplicate =>
        simp only [afterDrop, deferral?_cancelDeferred, if_pos] at held
        cases held
      | hopLimit | noProgress | noCandidates => exact .inl held
    · generalize engine.receive inFace request hops = result at held passes
      cases passes with
      | direct => exact .inl held
      | @relayed idle unlined face others media _ goes =>
        cases goes with
        | now =>
          rw [deferral?_sendNow] at held
          exact .inl held
        | later generator delay =>
          have waiting := deferral?_defer_outgoing engine { engine with generator } request face delay
          obtain rfl := Option.some.inj (waiting.symm.trans held)
          exact .inr ⟨rfl, delay, congrArg Except.ok (defer_fst _ _ _ delay)⟩
        | unbounded => exact .inl held
  · exact .inl ((deferral?_receive_of_ne inFace request hops same).symm.trans held)

/-- The history tells of a request that was received under this name and is held back in this way. -/
def Stems (variant : Variant) (history : History) (name : Name) (deferral : Deferral) : Prop :=
  ∃ inFace request hops delay,
    ⟨.receive inFace request hops, .decided (.ok (.deferred deferral.face delay deferral.handle))⟩ ∈
      history ∧ request.name = name ∧
    Leaves variant request hops (.deferred deferral.face delay deferral.handle) deferral.request

/-- Whatever an engine holds back, it was told to forward. -/
theorem stems_of_run {start : Engine} (idle : ∀ name, start.deferral? name = none)
    (run : Run start history engine) (held : engine.deferral? name = some deferral) :
    Stems engine.variant history name deferral := by
  rw [variant_run run]
  induction run generalizing name deferral with
  | start => simp [idle] at held
  | @act history before run act ih =>
    have inherited : before.deferral? name = some deferral →
        Stems start.variant (⟨act, (before.perform act).1⟩ :: history) name deferral := by
      intro earlier
      obtain ⟨inFace, request, hops, delay, member, stems⟩ := ih earlier
      exact ⟨inFace, request, hops, delay, List.mem_cons_of_mem _ member, stems⟩
    rcases deferral?_of_perform act held with earlier | ⟨inFace, request, hops, rfl, rfl, -⟩
    · exact inherited earlier
    · rcases deferral?_of_receive held with earlier | ⟨-, delay, answered⟩
      · exact inherited earlier
      · obtain ⟨sent, leaves, -, waiting⟩ := leaves_of_receive (Prod.ext answered rfl) rfl
        obtain rfl : sent = deferral.request :=
          congrArg Deferral.request (Option.some.inj ((waiting _ _ _ rfl).symm.trans held))
        rw [variant_run run] at leaves
        refine ⟨inFace, request, hops, delay, ?_, rfl, leaves⟩
        rw [perform, Prod.map_fst, answered]
        exact List.mem_cons_self

/-- In every run, whatever is forwarded goes to the right faces as it came in: at once, or later when its
timer fires. Nothing else is sent when a timer fires. -/
theorem requests_leave_intact {config : Config Float} {entropy : UInt64} {built : Engine}
    (created : Engine.create config entropy = .ok built) (records : Records)
    (run : Run (built.withRecords records) history engine) (inFace : Face) (request : Request)
    (hops : List Hop) :
    let result := engine.receive inFace request hops
    (∀ decision, result.1 = .ok decision → decision.isSuppressed = false →
      ∃ sent, Leaves engine.variant request hops decision sent ∧
        (∀ face ∈ decision.targets, ∃ hop ∈ hops, hop.face.id = face ∧
          (hop.face.isPointToPoint = true ∨ hop.face.isBroadcast = true)) ∧
        ∀ face delay handle, decision = .deferred face delay handle →
          ∀ between later, Run result.2 between later →
            (between.Undecided handle request.name →
              (later.fire handle (.forward request.name)).1 = .sendRequest face sent) ∧
            ∀ event out other, (later.fire handle event).1 = .sendRequest out other →
              event = .forward request.name ∧ out = face ∧ other = sent) ∧
    ∀ handle event face sent, (engine.fire handle event).1 = .sendRequest face sent →
      ∃ name, event = .forward name ∧ Stems engine.variant history name ⟨handle, face, sent⟩ := by
  have sound : engine.roster.Sound := sound_of_run created records run
  refine ⟨fun decision answered undropped => ?_, fun handle event face sent sends => ?_⟩
  · obtain ⟨sent, leaves, -, waiting⟩ := leaves_of_receive (Prod.ext answered rfl) undropped
    refine ⟨sent, leaves, fun face => leaves.usable, fun face delay handle deferred between later ran => ?_⟩
    have held := waiting face delay handle deferred
    refine ⟨fun undecided => ?_, fun event out other sends => ?_⟩
    · exact congrArg Prod.fst (fire_forward (held_of_undecided ran held undecided))
    · exact sent_of_held ran (sound_of_receive sound (Prod.ext answered rfl)) held sends
  · obtain ⟨name, rfl, held⟩ := held_of_sends sends
    obtain ⟨instanceName, seed, rfl⟩ := eq_start_of_create created
    have idle : ∀ name, ((Engine.start config instanceName seed).withRecords records).deferral? name =
        none := by
      simp [deferral?, withRecords, start]
    exact ⟨name, rfl, stems_of_run idle run held⟩

/-- Candidates with three links, the first of a kind that nothing is sent on. -/
def mixedLinks : List Hop := [⟨⟨⟨258⟩, .other⟩, 0⟩, ⟨Sample.medium, 1⟩, ⟨⟨⟨259⟩, .broadcast⟩, 2⟩]

/-- A new relay holds a request back for the first of two shared media, and its timer sends it there. -/
theorem requests_leave_intact_mixed_links :
    let result := (Sample.relay .navigo).receive Sample.medium (Sample.request "a") mixedLinks
    result.1 = .ok (.deferred ⟨257⟩ 500000 ⟨1⟩) ∧
      ∃ sent, Leaves .navigo (Sample.request "a") mixedLinks (.deferred ⟨257⟩ 500000 ⟨1⟩) sent ∧
        (result.2.fire ⟨1⟩ (.forward ⟨["a"]⟩)).1 = .sendRequest ⟨257⟩ sent := by
  have answered : ((Sample.relay .navigo).receive Sample.medium (Sample.request "a") mixedLinks).1 =
      .ok (.deferred ⟨257⟩ 500000 ⟨1⟩) := by decide +kernel
  have leaving := requests_leave_intact (Sample.create_relay .navigo) {} .start Sample.medium
    (Sample.request "a") mixedLinks
  obtain ⟨sent, leaves, -, fires⟩ := leaving.1 _ answered rfl
  exact ⟨answered, sent, leaves,
    (fires _ _ _ rfl _ _ .start).1 ⟨by simp, by simp [History.delivered]⟩⟩

end Engine

end Overhear
