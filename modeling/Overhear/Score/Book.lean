import Overhear.Config
import Overhear.Face
import Overhear.Records
import Overhear.Score.Stats
import Overhear.Timers
import Std.Data.ExtTreeSet

/-! Delivery scores by name and face. Each name with traffic has a record, which expires unless it is
touched, and scores for the faces that served it. A credit at a name also credits every record
above it. Scores decay on a timer of their own, and those credited since the last refresh are
updated together on a shared one. -/
namespace Overhear

/-- What a timer is armed for: a deferred request is to be sent, the score of a face under a name is to
decay, or the scores credited since the last refresh are to be updated. -/
inductive Event where
  | forward (name : Name)
  | decay (name : Name) (face : FaceId)
  | refresh
deriving DecidableEq, Repr

def Event.isUpkeep : Event → Bool
  | .forward _ => false
  | _ => true

/-- A face under a name, which is what has a score. -/
structure ScoreKey where
  name : Name
  face : FaceId
deriving DecidableEq, Repr

namespace ScoreKey

instance : Ord ScoreKey := ⟨compareLex (compareOn ScoreKey.name) (compareOn ScoreKey.face)⟩

instance : Std.TransOrd ScoreKey :=
  inferInstanceAs (Std.TransCmp (compareLex (compareOn ScoreKey.name) (compareOn ScoreKey.face)))

theorem compare_eq (a b : ScoreKey) :
    compare a b = (compare a.name b.name).then (compare a.face b.face) := rfl

instance : Std.LawfulEqOrd ScoreKey where
  eq_of_compare {a b} same := by
    rw [compare_eq, Ordering.then_eq_eq] at same
    have sameName : a.name = b.name := Std.LawfulEqOrd.eq_of_compare same.1
    have sameFace : a.face = b.face := Std.LawfulEqOrd.eq_of_compare same.2
    cases a; cases b; simp_all

end ScoreKey

/-- A score has no decay timer after a shutdown. -/
structure FaceScore (α : Type) where
  stats : Stats α
  decayTimer : Option Handle

/-- What is kept under one name, with the place where it was last announced to be. -/
structure Standing (α : Type) where
  faces : Std.ExtTreeMap FaceId (FaceScore α) := ∅
  destination : Option Coordinate := none

def Standing.handles {α : Type} (standing : Standing α) : List Handle :=
  standing.faces.toList.filterMap (·.2.decayTimer)

/-- Scores under names. The touched ones are those credited since the last refresh. -/
structure ScoreBook (α : Type) where
  config : ScoreConfig α
  timers : Timers Event := {}
  records : Records := {}
  standings : Std.ExtTreeMap Name (Standing α) := ∅
  touched : Std.ExtTreeSet ScoreKey := ∅
  refreshTimer : Option Handle := none

namespace ScoreBook

variable {α : Type} (book : ScoreBook α)

def now : Nanos := book.timers.elapsed

def size : Nat := book.standings.size

def standing? (name : Name) : Option (Standing α) := book.standings[name]?

def faceScore? (key : ScoreKey) : Option (FaceScore α) :=
  book.standing? key.name >>= (·.faces[key.face]?)

def touchRecord (name : Name) : ScoreBook α :=
  { book with
    records := (book.records.create book.now name).extend book.now name book.config.recordLifetime }

def extendRecord (name : Name) : ScoreBook α :=
  { book with records := book.records.extend book.now name book.config.recordLifetime }

def setScore (key : ScoreKey) (score : FaceScore α) : ScoreBook α :=
  { book with
    standings := book.standings.alter key.name fun standing =>
      let standing := standing.getD {}
      some { standing with faces := standing.faces.insert key.face score } }

def modifyStats (key : ScoreKey) (change : Stats α → Stats α) : ScoreBook α :=
  match book.faceScore? key with
  | none => book
  | some score => book.setScore key { score with stats := change score.stats }

def armDecay (key : ScoreKey) (score : FaceScore α) : ScoreBook α :=
  let (handle, timers) := book.timers.arm book.config.decayPeriod (.decay key.name key.face)
  { book with timers }.setScore key { score with decayTimer := some handle }

def armRefresh : ScoreBook α :=
  match book.refreshTimer with
  | some _ => book
  | none =>
      let (handle, timers) := book.timers.arm book.config.refreshPeriod .refresh
      { book with timers, refreshTimer := some handle }

section

variable [Scalar α]

/-- Touch the record of a score, and create the score if it is missing. A score without a decay
timer gets one. -/
def openScore (key : ScoreKey) : ScoreBook α :=
  let book := book.touchRecord key.name
  let score := (book.faceScore? key).getD ⟨.fresh, none⟩
  match score.decayTimer with
  | some _ => book
  | none => book.armDecay key score

def credit (count : Stats α → Stats α) (key : ScoreKey) : ScoreBook α :=
  let book := (book.openScore key).modifyStats key count
  { book with touched := book.touched.insert key }

/-- The longest name at or above `name` that has scores and a record. -/
def nearestScored? (name : Name) : Option Name :=
  name.ancestors.find? fun other => book.standings.contains other && book.records.contains other

def creditUpward (count : Stats α → Stats α) (start : Name) (face : FaceId) : ScoreBook α :=
  ((start :: book.records.above start).foldl
    (fun book name => book.credit count ⟨name, face⟩) book).armRefresh

/-- Credit a request that was sent through a face. It goes to the nearest scored name and the records
above it, or to the bootstrap record alone when no name fits. -/
def creditRequest (name : Name) (face : FaceId) : ScoreBook α :=
  match book.nearestScored? name with
  | some start => book.creditUpward Stats.countRequest start face
  | none => (book.credit Stats.countRequest ⟨book.config.bootstrap, face⟩).armRefresh

def creditResponse (name : Name) (face : FaceId) : ScoreBook α :=
  book.creditUpward Stats.countResponse name face

def smoothed? (key : ScoreKey) : Option α := (book.faceScore? key).map (·.stats.score)

def update (key : ScoreKey) : ScoreBook α :=
  book.modifyStats key (Stats.update book.config.smoothing)

def decay (key : ScoreKey) : ScoreBook α :=
  book.modifyStats key (Stats.decay book.config.decayFactor)

def scoredChain (name : Name) (face : FaceId) : List ScoreKey :=
  match book.nearestScored? name with
  | none => []
  | some start =>
      ((start :: book.records.above start).map (ScoreKey.mk · face)).filter fun key =>
        (book.faceScore? key).isSome

/-- Update the scores of a face at the nearest scored name and at the records above it, and keep
these records alive. Gives the number of scores updated. -/
def updateLongest (name : Name) (face : FaceId) : Nat × ScoreBook α :=
  let keys := book.scoredChain name face
  (keys.length, keys.foldl (fun book key => (book.update key).extendRecord key.name) book)

/-- The score of a face for a name: that of the nearest scored name, or zero. -/
def scoreFor (name : Name) (face : FaceId) : α :=
  ((book.nearestScored? name).bind fun other => book.smoothed? ⟨other, face⟩).getD Scalar.zero

def refreshTouched : Nat × ScoreBook α :=
  let keys := book.touched.toList.filter fun key => (book.faceScore? key).isSome
  (keys.length, { keys.foldl (fun book key => book.update key) book with touched := ∅ })

/-- Deliver a decay timer. Only the timer that the score holds counts; it is armed anew. -/
def fireDecay (handle : Handle) (key : ScoreKey) : Bool × ScoreBook α :=
  match book.faceScore? key with
  | none => (false, book)
  | some score =>
      if score.decayTimer = some handle then
        (true, book.armDecay key { score with stats := score.stats.decay book.config.decayFactor })
      else (false, book)

/-- Deliver a refresh timer. Only the timer that the book holds counts; it is armed anew as long as
there are scores. -/
def fireRefresh (handle : Handle) : Bool × ScoreBook α :=
  if book.refreshTimer = some handle then
    let unarmed : ScoreBook α := { book with refreshTimer := none }
    let refreshed := unarmed.refreshTouched.2
    (true, if refreshed.standings.isEmpty then refreshed else refreshed.armRefresh)
  else (false, book)

end

def setDestination (name : Name) (destination : Coordinate) : ScoreBook α :=
  let book := book.touchRecord name
  { book with
    standings := book.standings.alter name fun standing =>
      some { standing.getD {} with destination := some destination } }

def destination? (name : Name) : Option Coordinate :=
  name.ancestors.findSome? fun other => (book.standing? other).bind (·.destination)

/-- Drop the scores of a name, with their timers and marks. -/
def forget (name : Name) : ScoreBook α :=
  match book.standing? name with
  | none => book
  | some standing => { book with
      timers := book.timers.cancelAll standing.handles
      standings := book.standings.erase name
      touched := standing.faces.keys.foldl (fun touched face => touched.erase ⟨name, face⟩)
        book.touched }

def sweep : List Name × ScoreBook α :=
  let (expired, records) := book.records.takeExpired book.now
  (expired, expired.foldl (fun book name => book.forget name) { book with records })

def handles : List Handle :=
  book.standings.toList.flatMap (·.2.handles) ++ book.refreshTimer.toList

def shutdown : ScoreBook α :=
  { book with
    timers := book.timers.cancelAll book.handles
    standings := book.standings.map fun _ standing =>
      { standing with faces := standing.faces.map fun _ score => { score with decayTimer := none } }
    refreshTimer := none }

end ScoreBook

end Overhear
