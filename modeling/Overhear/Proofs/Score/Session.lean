import Overhear.Proofs.Ledger
import Overhear.Proofs.Score.Upkeep
import Overhear.Proofs.Timers.Moves

/-! Sessions of a score book with its host. The host moves time, takes timers out and delivers them to the
book, in between all else that it does with scores, in any order. -/
namespace Overhear.ScoreBook

variable {α : Type}

/-- One thing that a host does with a book or with the timers of it. Whether a firing that it delivers was one
is not checked here. -/
inductive Act where
  | openScore (key : ScoreKey)
  | creditRequest (name : Name) (face : FaceId)
  | creditResponse (name : Name) (face : FaceId)
  | update (key : ScoreKey)
  | updateLongest (name : Name) (face : FaceId)
  | decay (key : ScoreKey)
  | refreshTouched
  | setDestination (name : Name) (destination : Coordinate)
  | forget (name : Name)
  | sweep
  | shutdown
  | move (move : Timers.Move)
  | deliver (firing : Firing Event)

def Act.deliveries : Act → List (Firing Event)
  | .deliver firing => [firing]
  | _ => []

/-- The book with another timer service. -/
def withTimers (book : ScoreBook α) (timers : Timers Event) : ScoreBook α := { book with timers }

section

variable [Scalar α]

/-- Deliver a firing to the score or the refresh that it was armed for. -/
def fire (book : ScoreBook α) (firing : Firing Event) : ScoreBook α :=
  match firing.event with
  | .forward _ => book
  | .decay name face => (book.fireDecay firing.handle ⟨name, face⟩).2
  | .refresh => (book.fireRefresh firing.handle).2

/-- Have the host do one thing. Gives the firings that it took out by that. -/
def perform (book : ScoreBook α) : Act → List (Firing Event) × ScoreBook α
  | .openScore key => ([], book.openScore key)
  | .creditRequest name face => ([], book.creditRequest name face)
  | .creditResponse name face => ([], book.creditResponse name face)
  | .update key => ([], book.update key)
  | .updateLongest name face => ([], (book.updateLongest name face).2)
  | .decay key => ([], book.decay key)
  | .refreshTouched => ([], book.refreshTouched.2)
  | .setDestination name destination => ([], book.setDestination name destination)
  | .forget name => ([], book.forget name)
  | .sweep => ([], book.sweep.2)
  | .shutdown => ([], book.shutdown)
  | .move move => (book.timers.move move).map id book.withTimers
  | .deliver firing => ([], book.fire firing)

end

/-- A book, with the firings that its host took out of the timer service and those it delivered. -/
structure Session (α : Type) where
  book : ScoreBook α
  popped : List (Firing Event) := []
  delivered : List (Firing Event) := []

namespace Session

variable [Scalar α]

def act (session : Session α) (act : Act) : Session α :=
  let (firings, book) := session.book.perform act
  { book, popped := firings ++ session.popped, delivered := act.deliveries ++ session.delivered }

def after (session : Session α) (acts : List Act) : Session α := acts.foldl Session.act session

/-- Every delivered firing was popped before; it may be delivered late and more than once. -/
def Honest (session : Session α) : List Act → Prop
  | [] => True
  | act :: later => (∀ firing ∈ act.deliveries, firing ∈ session.popped) ∧ (session.act act).Honest later

/-- What every act keeps holds of the book after all of them. -/
theorem after_keeps {holds : ScoreBook α → Prop} {session : Session α} {acts : List Act}
    (start : holds session.book)
    (keeps : ∀ book, holds book → ∀ act ∈ acts, holds (book.perform act).2) :
    holds (session.after acts).book := by
  let Held (session : Session α) : Prop := holds session.book
  have step : ∀ session, Held session → ∀ act ∈ acts, Held (session.act act) :=
    fun session held act member => keeps session.book held act member
  exact List.foldlRecOn (motive := Held) acts Session.act start step

instance decidableHonest (session : Session α) : (acts : List Act) → Decidable (session.Honest acts)
  | [] => .isTrue trivial
  | act :: later =>
      have := decidableHonest (session.act act) later
      inferInstanceAs (Decidable ((∀ firing ∈ act.deliveries, firing ∈ session.popped) ∧ _))

end Session

variable [Scalar α]

theorem updateLongest_upkeep (book : ScoreBook α) (name : Name) (face : FaceId) :
    book.Upkeep (book.updateLongest name face).2 :=
  Upkeep.foldl (fun book key => (book.update key).extendRecord key.name)
    (fun book key => (modifyStats_upkeep book key _).trans (extendRecord_upkeep _ key.name)) _ book

/-- A delivery that does not count changes nothing. -/
theorem fire_of_stale {book : ScoreBook α} {firing : Firing Event}
    (stale : book.live firing.event ≠ some firing.handle) : book.fire firing = book := by
  unfold fire
  split
  · rfl
  · rename_i name face event
    rw [fireDecay_of_stale ⟨name, face⟩ (event ▸ stale)]
  · rename_i event
    rw [fireRefresh_of_stale (event ▸ stale)]

/-- A delivery that counts ends its event, and what follows is upkeep. -/
theorem fire_of_live {book : ScoreBook α} {firing : Firing Event}
    (counts : book.live firing.event = some firing.handle) :
    ∃ ended, book.Ended firing.event ended ∧
      Roster.Changes (fun event => event.isUpkeep = true) ended (book.fire firing).roster := by
  obtain ⟨handle, event⟩ := firing
  cases event with
  | forward name => cases counts
  | decay name face => exact (fireDecay_of_live ⟨name, face⟩ counts).2
  | refresh => exact (fireRefresh_of_live counts).2

/-- What each act does to the timers, whatever the host delivers. -/
theorem effect_perform {book : ScoreBook α} (act : Act) (sound : book.timers.Sound) :
    book.roster.Effect (book.perform act).1 act.deliveries (book.perform act).2.roster := by
  cases act with
  | openScore key => exact .changed (openScore_upkeep book key)
  | creditRequest name face => exact .changed (creditRequest_upkeep book name face)
  | creditResponse name face => exact .changed (creditResponse_upkeep book name face)
  | update key => exact .changed (modifyStats_upkeep book key _)
  | updateLongest name face => exact .changed (updateLongest_upkeep book name face)
  | decay key => exact .changed (modifyStats_upkeep book key _)
  | refreshTouched => exact .changed (refreshTouched_upkeep book)
  | setDestination name destination => exact .changed (setDestination_upkeep book name destination)
  | forget name => exact .changed (forget_upkeep book name)
  | sweep => exact .changed (sweep_upkeep book)
  | shutdown => exact .changed (shutdown_upkeep book)
  | move move =>
    refine .fired (sound.move move) fun event => ?_
    cases event <;> rfl
  | deliver firing =>
    by_cases counts : book.live firing.event = some firing.handle
    · obtain ⟨ended, ⟨timers, live⟩, changes⟩ := fire_of_live counts
      exact .consumed counts timers live changes
    · simp only [perform, fire_of_stale counts]
      exact .ignored counts

/-- The balance holds after all acts of a host that delivers only what it popped, and every timer that is
armed for scores still counts. -/
theorem Session.balance_after {session : Session α} {acts : List Act}
    (balance : session.book.roster.Balance session.popped session.delivered)
    (exact : session.book.roster.ExactFor fun event => event.isUpkeep = true)
    (honest : session.Honest acts) :
    (session.after acts).book.roster.Balance (session.after acts).popped
        (session.after acts).delivered ∧
      (session.after acts).book.roster.ExactFor fun event => event.isUpkeep = true := by
  induction acts generalizing session with
  | nil => exact ⟨balance, exact⟩
  | cons act later ih =>
    have effect := effect_perform act balance.sound.timers
    exact ih (balance.effect effect honest.1) (exact.effect balance effect honest.1) honest.2

end Overhear.ScoreBook
