import Overhear.Proofs.Engine.Journal
import Overhear.Proofs.Engine.Suppression

/-! For which reasons a received request is dropped, and what a drop leaves behind. A request that is not
dropped goes the way of its first line, else of the media that it shares with others. -/
namespace Overhear.Engine

variable {engine : Engine} {inFace : Face} {request : Request} {hops : List Hop} {face : FaceId}
  {others : List FaceId}

/-- The first candidate with a line of its own. -/
def line? (hops : List Hop) : Option Hop := hops.find? (·.face.isPointToPoint)

/-- The candidates on a shared medium, in the order of the lookup. -/
def shared (hops : List Hop) : List FaceId := (hops.filter (·.face.isBroadcast)).map (·.face.id)

theorem forward_eq (engine : Engine) (inFace : Face) (request : Request) (hops : List Hop) :
    engine.forward inFace request hops =
      match line? hops, shared hops with
      | some hop, _ => (.ok (.send [hop.face.id] request), engine.creditRequest request.name inFace.id)
      | none, [] => (.ok (.suppress .noCandidates false), engine)
      | none, face :: others => engine.relay request face others := by
  have lines : (hops.map (·.face)).find? (·.isPointToPoint) = (line? hops).map (·.face) :=
    List.find?_map ..
  have media : ((hops.map (·.face)).filter (·.isBroadcast)).map (·.id) = shared hops := by
    rw [List.filter_map, List.map_map]
    rfl
  unfold forward
  dsimp only
  rw [lines, media]
  cases line? hops <;> cases shared hops <;> rfl

theorem line?_eq_none_iff : line? hops = none ↔ ∀ hop ∈ hops, hop.face.isPointToPoint = false := by
  simp [line?]

theorem shared_eq_nil_iff : shared hops = [] ↔ ∀ hop ∈ hops, hop.face.isBroadcast = false := by
  simp [shared]

/-- The request has made more hops than a relay that counts them allows. -/
def TooFar (engine : Engine) (request : Request) : Prop :=
  engine.variant = .vndn ∧
    ∃ count, request.hops = some count ∧ engine.config.strategy.hopLimit < count

/-- Why a request is dropped, and whether the host is told to forget it. A reason counts only where the ones
before it do not. -/
inductive Drops (engine : Engine) (request : Request) (hops : List Hop) :
    SuppressReason → Bool → Prop where
  | tooFar (beyond : engine.TooFar request) : Drops engine request hops .hopLimit false
  | overheard (within : ¬ engine.TooFar request) {deferral : Deferral}
      (held : engine.deferral? request.name = some deferral) :
      Drops engine request hops .duplicate (engine.variant == .weighted)
  | stranded (within : ¬ engine.TooFar request) (idle : engine.deferral? request.name = none)
      (unlined : ∀ hop ∈ hops, hop.face.isPointToPoint = false)
      (unshared : ∀ hop ∈ hops, hop.face.isBroadcast = false) :
      Drops engine request hops .noCandidates false
  | receding (within : ¬ engine.TooFar request) (idle : engine.deferral? request.name = none)
      (unlined : ∀ hop ∈ hops, hop.face.isPointToPoint = false)
      (audible : ∃ hop ∈ hops, hop.face.isBroadcast = true) {tag : LocationTag}
      {destination : Coordinate} (recedes : engine.Recedes request tag destination) :
      Drops engine request hops .noProgress false

/-- What a drop leaves behind: the engine as it was, or without the request that it held back. -/
def afterDrop (engine : Engine) (name : Name) : SuppressReason → Engine
  | .duplicate => (engine.cancelDeferred name).2
  | _ => engine

theorem exceedsHopLimit_eq_false_iff :
    engine.exceedsHopLimit request = false ↔ ¬ engine.TooFar request :=
  Bool.eq_false_iff.trans (not_congr (exceedsHopLimit_iff engine request))

/-- What is neither turned away nor held back goes the way of its first line, else of its first medium. -/
theorem receive_of_within (inFace : Face) (hops : List Hop) (within : ¬ engine.TooFar request)
    (idle : engine.deferral? request.name = none) :
    engine.receive inFace request hops =
      match line? hops, shared hops with
      | some hop, _ => (.ok (.send [hop.face.id] request), engine.creditRequest request.name inFace.id)
      | none, [] => (.ok (.suppress .noCandidates false), engine)
      | none, face :: others => engine.relay request face others :=
  (receive_of_idle inFace hops (exceedsHopLimit_eq_false_iff.mpr within) idle).trans
    (forward_eq engine inFace request hops)

theorem receive_of_drops {reason : SuppressReason} {reject : Bool} (inFace : Face)
    (drops : engine.Drops request hops reason reject) :
    engine.receive inFace request hops =
      (.ok (.suppress reason reject), engine.afterDrop request.name reason) := by
  cases drops with
  | tooFar beyond =>
    rw [receive, if_pos ((exceedsHopLimit_iff engine request).mpr beyond)]
    rfl
  | overheard within held =>
    rw [receive_of_held inFace hops held, exceedsHopLimit_eq_false_iff.mpr within]
    rfl
  | stranded within idle unlined unshared =>
    rw [receive_of_within inFace hops within idle, line?_eq_none_iff.mpr unlined,
      shared_eq_nil_iff.mpr unshared]
    rfl
  | receding within idle unlined audible recedes =>
    rw [receive_of_within inFace hops within idle, line?_eq_none_iff.mpr unlined]
    cases media : shared hops with
    | nil =>
      obtain ⟨hop, member, broadcast⟩ := audible
      rw [shared_eq_nil_iff.mp media hop member] at broadcast
      cases broadcast
    | cons face others => exact relay_of_recedes recedes face others

/-- What comes of a request that is not dropped. -/
inductive Passes (engine : Engine) (inFace : Face) (request : Request) (hops : List Hop) :
    Except Random.SpanError Decision × Engine → Prop where
  | direct {hop : Hop} (lined : line? hops = some hop) :
      Passes engine inFace request hops
        (.ok (.send [hop.face.id] request), engine.creditRequest request.name inFace.id)
  | relayed (idle : engine.deferral? request.name = none) (unlined : line? hops = none)
      {face : FaceId} {others : List FaceId} (media : shared hops = face :: others)
      {result : Except Random.SpanError Decision × Engine}
      (goes : Goes engine (engine.outgoing request) face others result) :
      Passes engine inFace request hops result

theorem drops_or_passes (engine : Engine) (inFace : Face) (request : Request) (hops : List Hop) :
    (∃ reason reject, engine.Drops request hops reason reject) ∨
      engine.Passes inFace request hops (engine.receive inFace request hops) := by
  by_cases beyond : engine.TooFar request
  · exact .inl ⟨_, _, .tooFar beyond⟩
  cases known : engine.deferral? request.name with
  | some deferral => exact .inl ⟨_, _, .overheard beyond known⟩
  | none =>
    rw [receive_of_within inFace hops beyond known]
    cases lined : line? hops with
    | some hop => exact .inr (.direct lined)
    | none =>
      have unlined := line?_eq_none_iff.mp lined
      cases media : shared hops with
      | nil => exact .inl ⟨_, _, .stranded beyond known unlined (shared_eq_nil_iff.mp media)⟩
      | cons face others =>
        by_cases recedes : ∃ tag destination, engine.Recedes request tag destination
        · obtain ⟨tag, destination, recedes⟩ := recedes
          have audible : ∃ hop ∈ hops, hop.face.isBroadcast = true := by
            by_contra silent
            have unshared : shared hops = [] := shared_eq_nil_iff.mpr fun hop member =>
              Bool.eq_false_iff.mpr fun broadcast => silent ⟨hop, member, broadcast⟩
            simp [unshared] at media
          exact .inl ⟨_, _, .receding beyond known unlined audible recedes⟩
        · refine .inr (.relayed known lined media (relay_goes ?_ face others))
          exact fun tag destination closer => recedes ⟨tag, destination, closer⟩

theorem Passes.unsuppressed {result : Except Random.SpanError Decision × Engine}
    (passes : engine.Passes inFace request hops result) (reason : SuppressReason) (reject : Bool) :
    result.1 ≠ .ok (.suppress reason reject) := by
  cases passes with
  | direct => exact nofun
  | relayed idle unlined media goes => cases goes <;> exact nofun

theorem drops_of_suppressed {reason : SuppressReason} {reject : Bool}
    (suppressed : (engine.receive inFace request hops).1 = .ok (.suppress reason reject)) :
    engine.Drops request hops reason reject := by
  rcases drops_or_passes engine inFace request hops with ⟨_, _, drops⟩ | passes
  · rw [receive_of_drops inFace drops] at suppressed
    cases suppressed
    exact drops
  · exact absurd suppressed (passes.unsuppressed reason reject)

/-- A request is dropped for the stated reasons and no other. A drop changes nothing, except that a request
held back is given up when a copy is heard; its own entry and timer go, and no other. -/
theorem receive_suppresses_iff (engine : Engine) (inFace : Face) (request : Request) (hops : List Hop)
    (reason : SuppressReason) (reject : Bool) :
    let result := engine.receive inFace request hops
    (result.1 = .ok (.suppress reason reject) ↔ engine.Drops request hops reason reject) ∧
    (result.1 = .ok (.suppress reason reject) → reason ≠ .duplicate → result.2 = engine) ∧
    (result.1 = .ok (.suppress .duplicate reject) →
      ∃ deferral, engine.deferral? request.name = some deferral ∧
        result.2 = engine.givenUp request.name deferral ∧
        (∀ name, result.2.deferral? name =
          if name = request.name then none else engine.deferral? name) ∧
        ∀ handle, result.2.timers.armed? handle =
          if handle = deferral.handle then none else engine.timers.armed? handle) := by
  intro result
  have left : ∀ {cause}, result.1 = .ok (.suppress cause reject) →
      result.2 = engine.afterDrop request.name cause := fun suppressed =>
    congrArg Prod.snd (receive_of_drops inFace (drops_of_suppressed suppressed))
  refine ⟨⟨drops_of_suppressed, fun drops => congrArg Prod.fst (receive_of_drops inFace drops)⟩,
    fun suppressed other => ?_, fun suppressed => ?_⟩
  · rw [left suppressed]
    cases reason with
    | duplicate => exact absurd rfl other
    | hopLimit | noProgress | noCandidates => rfl
  · have drops : engine.Drops request hops .duplicate reject := drops_of_suppressed suppressed
    cases drops with
    | @overheard within deferral held =>
      have after : result.2 = (engine.cancelDeferred request.name).2 := left suppressed
      have given := cancelDeferred_snd_of_held held
      refine ⟨deferral, held, after.trans given, fun name => ?_, fun handle => ?_⟩
      · rw [after, deferral?_cancelDeferred]
      · rw [after, given]
        exact Timers.armed?_cancel engine.timers deferral.handle handle

end Overhear.Engine
