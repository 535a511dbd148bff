import Overhear.Proofs.Engine.Forwarding
import Overhear.Proofs.Float.Signs

/-! What a relay by distance does with a request that it can measure. It drops what comes from nearer the
destination and holds all else back, also what has a distance that is not a number. On the plane there is
none such between places with finite coordinates. -/
namespace Overhear

open Floating

namespace Coordinate

/-- Both angles are finite numbers. -/
def IsFinite (place : Coordinate) : Prop :=
  place.latitude.value.isFinite = true ∧ place.longitude.value.isFinite = true

instance (place : Coordinate) : Decidable place.IsFinite := inferInstanceAs (Decidable (_ ∧ _))

theorem isNaN_planar {a b : Coordinate} (finite : a.IsFinite) (other : b.IsFinite) :
    (planar a b).isNaN = false := by
  have squared {x y : Float} (finite : x.isFinite = true) (other : y.isFinite = true) :
      sign? ((x - y) * (x - y)) = some .positive :=
    sign?_mul_self (signed_sub_of_finite finite other)
  have length : sign? (planar a b) = some .positive :=
    sign?_sqrt (sign?_add (squared finite.1 other.1) (squared finite.2 other.2))
  rw [Bool.eq_false_iff, ne_eq, ← sign?_eq_none_iff, length]
  exact nofun

end Coordinate

namespace Engine

variable {engine : Engine} {inFace : Face} {request : Request} {hops : List Hop} {tag : LocationTag}
  {destination : Coordinate}

/-- A request on its way, of which a relay by distance knows where the hop before, the relay itself and the
destination are, and for which there are shared media only. -/
structure Measured (engine : Engine) (request : Request) (hops : List Hop) (tag : LocationTag)
    (destination : Coordinate) : Prop where
  variant : engine.variant = .navigo
  tagged : request.tag = some tag
  own : tag.own.isKnown = true
  previous : tag.previous.isKnown = true
  headed : (if tag.destination.isKnown then some tag.destination
    else engine.knownDestination? request.name) = some destination
  unlined : ∀ hop ∈ hops, hop.face.isPointToPoint = false
  audible : ∃ hop ∈ hops, hop.face.isBroadcast = true

theorem Measured.within (measured : engine.Measured request hops tag destination) :
    ¬ engine.TooFar request := by
  rintro ⟨vndn, -⟩
  cases measured.variant.symm.trans vndn

theorem Measured.exists_shared (measured : engine.Measured request hops tag destination) :
    ∃ face others, shared hops = face :: others := by
  cases media : shared hops with
  | nil =>
    obtain ⟨hop, member, broadcast⟩ := measured.audible
    rw [shared_eq_nil_iff.mp media hop member] at broadcast
    cases broadcast
  | cons face others => exact ⟨face, others, rfl⟩

theorem Measured.answer_of_held {deferral : Deferral}
    (measured : engine.Measured request hops tag destination) (inFace : Face)
    (held : engine.deferral? request.name = some deferral) :
    (engine.receive inFace request hops).1 =
      .ok (.suppress .duplicate (engine.variant == .weighted)) := by
  rw [receive_of_drops inFace (.overheard measured.within held)]

theorem Measured.answer_of_receding (measured : engine.Measured request hops tag destination)
    (inFace : Face) (idle : engine.deferral? request.name = none)
    (receding : engine.config.delays.distances.distance tag.previous destination ≤
      engine.config.delays.distances.distance tag.own destination) :
    (engine.receive inFace request hops).1 = .ok (.suppress .noProgress false) := by
  have recedes : engine.Recedes request tag destination :=
    ⟨measured.variant, measured.tagged, measured.own, measured.previous, measured.headed, receding⟩
  rw [receive_of_drops inFace (.receding measured.within idle measured.unlined measured.audible recedes)]

theorem Measured.answer_of_not_receding (measured : engine.Measured request hops tag destination)
    (inFace : Face) (idle : engine.deferral? request.name = none)
    (unreceding : ¬ engine.config.delays.distances.distance tag.previous destination ≤
      engine.config.delays.distances.distance tag.own destination) :
    ∃ face delay handle, (engine.receive inFace request hops).1 = .ok (.deferred face delay handle) := by
  obtain ⟨face, others, media⟩ := measured.exists_shared
  have targeted : target? tag (engine.knownDestination? request.name) = some destination :=
    target?_eq_some_iff.mpr ⟨measured.own, measured.previous, measured.headed⟩
  rw [receive_of_within inFace hops measured.within idle, line?_eq_none_iff.mpr measured.unlined, media]
  simp only [relay, measured.variant, relayByDistance, measured.tagged, targeted, if_neg unreceding]
  exact ⟨face, _, _, congrArg Except.ok (defer_fst engine request face _)⟩

/-- What can be measured is held back when it came nearer the destination, or when one of the two distances is
not a number, and is dropped otherwise. On the plane finite coordinates have no such distance, and a request
is held back exactly when it came nearer. -/
theorem held_back_unless_receding (measured : engine.Measured request hops tag destination)
    (inFace : Face) :
    let own := engine.config.delays.distances.distance tag.own destination
    let previous := engine.config.delays.distances.distance tag.previous destination
    let answer := (engine.receive inFace request hops).1
    let heldBack := ∃ face delay handle, answer = .ok (.deferred face delay handle)
    (heldBack ↔ engine.deferral? request.name = none ∧
      (own < previous ∨ own.isNaN = true ∨ previous.isNaN = true)) ∧
    (engine.deferral? request.name = none → ¬ heldBack → answer = .ok (.suppress .noProgress false)) ∧
    (engine.config.delays.distances = .planar → tag.own.IsFinite → tag.previous.IsFinite →
      destination.IsFinite → (heldBack ↔ engine.deferral? request.name = none ∧ own < previous)) := by
  intro own previous answer heldBack
  have heldBack_iff : heldBack ↔ engine.deferral? request.name = none ∧ ¬ previous ≤ own := by
    constructor
    · rintro ⟨face, delay, handle, deferred⟩
      cases known : engine.deferral? request.name with
      | some deferral => cases (measured.answer_of_held inFace known).symm.trans deferred
      | none =>
        refine ⟨rfl, fun receding => ?_⟩
        cases (measured.answer_of_receding inFace known receding).symm.trans deferred
    · exact fun ⟨idle, unreceding⟩ => measured.answer_of_not_receding inFace idle unreceding
  refine ⟨by rw [heldBack_iff, not_le_iff], fun idle unheld => ?_, fun plane near before headed => ?_⟩
  · refine measured.answer_of_receding inFace idle (Classical.byContradiction fun unreceding => ?_)
    exact unheld (heldBack_iff.mpr ⟨idle, unreceding⟩)
  · have number {place : Coordinate} (finite : place.IsFinite) :
        (engine.config.delays.distances.distance place destination).isNaN = false := by
      rw [plane]
      exact Coordinate.isNaN_planar finite headed
    rw [heldBack_iff, not_le_iff]
    simp only [own, previous, number near, number before, Bool.false_eq_true, or_false]

theorem measured_sample : (Sample.relay .navigo).Measured (Sample.request "a") [⟨Sample.medium, 0⟩]
    ⟨Sample.place 0x4014000000000000, Sample.place 0x4000000000000000, Sample.place 0x4024000000000000⟩
    (Sample.place 0x4024000000000000) where
  variant := rfl
  tagged := rfl
  own := by decide +kernel
  previous := by decide +kernel
  headed := by decide +kernel
  unlined := by decide
  audible := by decide

/-- A new relay holds back a request that came from 8 degrees of its destination to 5. -/
theorem held_back_unless_receding_on_equator :
    ∃ face delay handle, ((Sample.relay .navigo).receive Sample.medium (Sample.request "a")
      [⟨Sample.medium, 0⟩]).1 = .ok (.deferred face delay handle) := by
  have holds := held_back_unless_receding measured_sample Sample.medium
  exact (holds.2.2 rfl (by decide +kernel) (by decide +kernel) (by decide +kernel)).mpr
    ⟨by decide +kernel, by decide +kernel⟩

/-- The latitude of the relay is not a number. Its place counts as known, and it holds a request back that
it did not bring nearer. -/
theorem held_back_without_progress :
    let lost : Coordinate := ⟨⟨0x7ff8000000000000⟩, ⟨0x3ff0000000000000⟩⟩
    let destination := Sample.place 0x4024000000000000
    let tag : LocationTag := ⟨lost, Sample.place 0x4000000000000000, destination⟩
    Engine.create (Sample.relay .navigo).config 0 = .ok (Sample.relay .navigo) ∧
      tag.isComplete = true ∧
      ((Sample.relay .navigo).receive Sample.medium { Sample.request "a" with tag := some tag }
        [⟨Sample.medium, 0⟩]).1 = .ok (.deferred ⟨257⟩ 0 ⟨1⟩) ∧
      ¬ (Sample.relay .navigo).config.delays.distances.distance tag.own destination <
        (Sample.relay .navigo).config.delays.distances.distance tag.previous destination :=
  ⟨Sample.create_relay .navigo, by decide +kernel, by decide +kernel, by decide +kernel⟩

end Engine

end Overhear
