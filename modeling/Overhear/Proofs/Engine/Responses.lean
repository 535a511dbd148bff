import Overhear.Proofs.Destinations.Lookup
import Overhear.Proofs.Engine.Holding

/-! What an engine learns from responses. A variant that tracks announcements keeps, for each announced name,
the last known destination that an accepted response gave for it; the others keep none. -/
namespace Overhear

/-- The name that a response announces and where that is, if it tells both. -/
def Response.announcement? (response : Response) : Option (Name × Coordinate) :=
  response.announced.bind fun name =>
    (response.tag.filter (·.destination.isKnown)).map fun tag => (name, tag.destination)

/-- What an accepted response announced. -/
def Step.announcement? (step : Step) : Option (Name × Coordinate) :=
  match step.act, step.answer with
  | .respond _ _ response, .responded (.ok _) => response.announcement?
  | _, _ => none

/-- What was announced, in that order. -/
def History.announcements (history : History) : List (Name × Coordinate) :=
  history.reverse.filterMap Step.announcement?

/-- The last destination announced for each name. -/
def lastPlaces (announcements : List (Name × Coordinate)) : Std.ExtTreeMap Name Coordinate :=
  announcements.foldl (fun places announcement => places.insert announcement.1 announcement.2) ∅

def History.places (history : History) : Std.ExtTreeMap Name Coordinate :=
  lastPlaces history.announcements

theorem lastPlaces_append (earlier later : List (Name × Coordinate)) :
    lastPlaces (earlier ++ later) =
      later.foldl (fun places announcement => places.insert announcement.1 announcement.2)
        (lastPlaces earlier) := List.foldl_append

theorem History.places_cons (step : Step) (earlier : History) :
    History.places (step :: earlier) =
      match step.announcement? with
      | some (name, destination) => earlier.places.insert name destination
      | none => earlier.places := by
  have split : History.announcements (step :: earlier) =
      earlier.announcements ++ step.announcement?.toList := by
    cases announced : step.announcement? <;> simp [History.announcements, announced]
  rw [History.places, split, lastPlaces_append]
  cases step.announcement? <;> rfl

theorem Response.isKnown_of_announcement? {response : Response} {name : Name} {destination : Coordinate}
    (announced : response.announcement? = some (name, destination)) : destination.isKnown = true := by
  obtain ⟨other, -, located⟩ := Option.bind_eq_some_iff.mp announced
  obtain ⟨tag, found, same⟩ := Option.map_eq_some_iff.mp located
  cases same
  exact (Option.filter_eq_some_iff.mp found).2

theorem Step.isKnown_of_announcement? {step : Step} {name : Name} {destination : Coordinate}
    (announced : step.announcement? = some (name, destination)) : destination.isKnown = true := by
  unfold Step.announcement? at announced
  split at announced
  · exact Response.isKnown_of_announcement? announced
  · cases announced

/-- Only known destinations are kept. -/
theorem History.isKnown_of_places {history : History} {name : Name} {destination : Coordinate}
    (placed : history.places[name]? = some destination) : destination.isKnown = true := by
  induction history with
  | nil => simp [History.places, History.announcements, lastPlaces] at placed
  | cons step earlier ih =>
    rw [History.places_cons] at placed
    split at placed
    · rename_i announced
      rw [Std.ExtTreeMap.getElem?_insert] at placed
      split at placed
      · cases placed
        exact Step.isKnown_of_announcement? announced
      · exact ih placed
    · exact ih placed

namespace Engine

variable {engine after later : Engine} {history : History}

/-- What comes of a response, once the request of its name was given up. -/
inductive Responded (engine : Engine) (inFace : Face) (response : Response) :
    Except ForwardingError ResponseDecision × Engine → Prop where
  | refused (cause : ForwardingError) : Responded engine inFace response (.error cause, engine)
  | passed (untracked : engine.variant.tracksAnnouncements = false) (decision : ResponseDecision) :
      Responded engine inFace response (.ok decision, engine)
  | credited (tracked : engine.variant.tracksAnnouncements = true) {announced : Name}
      (announces : response.announced = some announced)
      (unplaced : response.tag.filter (·.destination.isKnown) = none) (decision : ResponseDecision) :
      Responded engine inFace response
        (.ok decision, { engine with book := engine.book.creditResponse announced inFace.id })
  | placed (tracked : engine.variant.tracksAnnouncements = true) {announced : Name} {tag : LocationTag}
      (announces : response.announced = some announced)
      (located : response.tag.filter (·.destination.isKnown) = some tag)
      {id : Nat} {destinations : Destinations}
      (inserted : engine.destinations.insert announced tag.destination = .ok (id, destinations))
      (decision : ResponseDecision) :
      Responded engine inFace response
        (.ok decision, { engine with
          destinations
          book := (engine.book.setDestination announced tag.destination).creditResponse announced
            inFace.id })

theorem respond_responded (engine : Engine) (pending : Pending) (inFace : Face) (response : Response) :
    Responded (engine.cancelDeferred response.name).2 inFace response
      (engine.respond pending inFace response) := by
  unfold respond
  dsimp only
  generalize (engine.cancelDeferred response.name).2 = cancelled
  cases tracked : cancelled.variant.tracksAnnouncements with
  | false => exact .passed tracked _
  | true =>
    cases announces : response.announced with
    | none => exact .refused _
    | some announced =>
      simp only [if_pos, learn, bind, Except.bind, pure, Except.pure]
      cases located : response.tag.filter (·.destination.isKnown) with
      | none => exact .credited tracked announces located _
      | some tag =>
        dsimp only
        cases inserted : cancelled.destinations.insert announced tag.destination with
        | error refusal => exact .refused _
        | ok entry => exact .placed tracked announces located inserted _

theorem variant_cancelDeferred (engine : Engine) (name : Name) :
    (engine.cancelDeferred name).2.variant = engine.variant :=
  congrArg (·.strategy.variant) (unlearned_cancelDeferred engine name).config

theorem destinations_perform_of_untracked {act : Act}
    (untracked : engine.variant.tracksAnnouncements = false) :
    (engine.perform act).2.destinations = engine.destinations := by
  cases act with
  | respond pending inFace response =>
    have responded := respond_responded engine pending inFace response
    have cancelled := (unlearned_cancelDeferred engine response.name).destinations
    simp only [perform, Prod.map_snd, id_eq]
    generalize engine.respond pending inFace response = result at responded ⊢
    cases responded with
    | refused | passed => exact cancelled
    | credited tracked | placed tracked =>
      rw [variant_cancelDeferred, untracked] at tracked
      cases tracked
  | _ => exact (unlearned_perform engine (by simp)).destinations

/-- A step leaves the index alone, unless a response announces a destination. -/
theorem destinations_perform (engine : Engine) (act : Act) :
    match (⟨act, (engine.perform act).1⟩ : Step).announcement? with
    | none => (engine.perform act).2.destinations = engine.destinations
    | some (name, destination) => engine.variant.tracksAnnouncements = true →
        ∃ id, engine.destinations.insert name destination =
          .ok (id, (engine.perform act).2.destinations) := by
  cases act with
  | respond pending inFace response =>
    have responded := respond_responded engine pending inFace response
    have cancelled := (unlearned_cancelDeferred engine response.name).destinations
    simp only [perform, Prod.map_fst, Prod.map_snd, id_eq]
    generalize engine.respond pending inFace response = result at responded ⊢
    cases responded with
    | refused cause => exact cancelled
    | passed untracked decision =>
      simp only [Step.announcement?]
      split
      · exact cancelled
      · intro tracked
        rw [variant_cancelDeferred, tracked] at untracked
        cases untracked
    | credited tracked announces unplaced decision =>
      simp only [Step.announcement?, Response.announcement?, announces, unplaced, Option.map_none,
        Option.bind_some]
      exact cancelled
    | @placed tracked announced tag announces located id destinations inserted decision =>
      simp only [Step.announcement?, Response.announcement?, announces, located, Option.map_some,
        Option.bind_some]
      intro _
      rw [cancelled] at inserted
      exact ⟨id, inserted⟩
  | _ => exact (unlearned_perform engine (by simp)).destinations

theorem variant_run (run : Run engine history later) : later.variant = engine.variant :=
  congrArg (·.strategy.variant) (config_run run)

/-- The index holds what was announced last. -/
theorem holds_places (run : Run engine history later) (fresh : engine.destinations = {})
    (tracked : engine.variant.tracksAnnouncements = true) :
    later.destinations.Holds history.places := by
  induction run with
  | start =>
    rw [fresh]
    exact .empty
  | @act history before run act ih =>
    have step := destinations_perform before act
    rw [History.places_cons]
    split at step
    · rename_i quiet
      rw [quiet, step]
      exact ih
    · rename_i name destination announced
      rw [announced]
      obtain ⟨id, inserted⟩ := step ((congrArg _ (variant_run run)).trans tracked)
      exact ih.of_insert inserted

theorem destinations_of_untracked (run : Run engine history later) (fresh : engine.destinations = {})
    (untracked : engine.variant.tracksAnnouncements = false) : later.destinations = {} := by
  induction run with
  | start => exact fresh
  | act before act ih =>
    have untracked := (congrArg Variant.tracksAnnouncements (variant_run before)).trans untracked
    exact (destinations_perform_of_untracked untracked).trans ih

end Engine

end Overhear

namespace Overhear.Sample

/-- A response comes in that announces where a name is. -/
def answers (component : String) (announced : Name) (destination : Coordinate) : Act :=
  .respond ⟨⟨[component]⟩, [medium]⟩ medium ⟨⟨[component]⟩, some announced, some (.toward destination)⟩

end Overhear.Sample
