import Overhear.Proofs.Engine.Responses
import Overhear.Proofs.Score.Session

/-! Journals of a score book. Whatever an engine does with its scores is one of a few entries, and what it
answers tells which credits for requests and which destinations are among them. -/
namespace Overhear

/-- One change that an engine makes to its scores. An entry that only retimes them is for what else the
timer service was used for; what is learned is a response with the destination that it announced. -/
inductive Entry where
  | retimed (timers : Timers Event)
  | request (key : ScoreKey)
  | learned (key : ScoreKey) (destination : Option Coordinate)
  | fired (firing : Firing Event)
  | swept
  | closed

namespace Entry

def request? : Entry → Option ScoreKey
  | .request key => some key
  | _ => none

def place? : Entry → Option (Name × Coordinate)
  | .learned key destination => destination.map (Prod.mk key.name)
  | _ => none

end Entry

namespace ScoreBook

variable {α : Type} [Scalar α]

def creditKey (book : ScoreBook α) (key : ScoreKey) : ScoreBook α :=
  book.creditRequest key.name key.face

/-- Keep the destination announced for a name, if there is one, and credit the response. -/
def learn (book : ScoreBook α) (key : ScoreKey) (destination : Option Coordinate) : ScoreBook α :=
  (destination.elim book (book.setDestination key.name)).creditResponse key.name key.face

def enter (book : ScoreBook α) : Entry → ScoreBook α
  | .retimed timers => book.withTimers timers
  | .request key => book.creditKey key
  | .learned key destination => book.learn key destination
  | .fired firing => book.fire firing
  | .swept => book.sweep.2
  | .closed => book.shutdown

theorem foldl_enter_requests (keys : List ScoreKey) (book : ScoreBook α) :
    (keys.map Entry.request).foldl enter book = keys.foldl creditKey book :=
  List.foldl_map

end ScoreBook

/-- The scores to credit for an answer to a request: when it is sent, that of the face it came in on if there
is a line of its own toward the producer, else those of the faces it goes out on. -/
def creditsFor (inFace : Face) (request : Request) (hops : List Hop) :
    Except Random.SpanError Decision → List ScoreKey
  | .ok (.send faces _) =>
      if hops.any (·.face.isPointToPoint) then [⟨request.name.statistics, inFace.id⟩]
      else faces.map (ScoreKey.mk request.name.statistics)
  | _ => []

/-- The scores to credit for what a step sends. -/
def Step.credits (step : Step) : List ScoreKey :=
  match step.act, step.answer with
  | .receive inFace request hops, .decided answer => creditsFor inFace request hops answer
  | .deliver _, .fired (.sendRequest face sent) => [⟨sent.name.statistics, face⟩]
  | _, _ => []

/-- The scores to credit for all that was sent, in the order of sending. -/
def History.credits (history : History) : List ScoreKey := history.reverse.flatMap Step.credits

namespace Engine

variable {engine middle later : Engine} {history before between : History} {journal entries : List Entry}

theorem book_cancelDeferred (engine : Engine) (name : Name) :
    (engine.cancelDeferred name).2.book =
      engine.book.withTimers (engine.cancelDeferred name).2.timers := by
  unfold cancelDeferred
  split <;> rfl

theorem book_defer (engine : Engine) (request : Request) (face : FaceId) (delay : Nanos) :
    (engine.defer request face delay).2.book =
      engine.book.withTimers (engine.defer request face delay).2.timers := by
  have cancelled := book_cancelDeferred engine request.name
  exact (congrArg (·.withTimers (engine.defer request face delay).2.timers) cancelled).trans rfl

theorem book_sendNow (engine : Engine) (request : Request) (faces : List FaceId) :
    (engine.sendNow request faces).2.book =
      (faces.map (ScoreKey.mk request.name.statistics)).foldl ScoreBook.creditKey engine.book := by
  unfold sendNow
  induction faces generalizing engine with
  | nil => rfl
  | cons face rest ih => exact ih (engine.creditRequest request.name face)

/-- What an engine does with a request that it neither turns away nor holds back already. -/
theorem receive_of_idle {request : Request} (inFace : Face) (hops : List Hop)
    (within : engine.exceedsHopLimit request = false) (idle : engine.deferral? request.name = none) :
    engine.receive inFace request hops = engine.forward inFace request hops := by
  simp [receive, within, cancelDeferred_of_idle idle]

/-- An answer that does not send leaves the scores alone. -/
structure Credits (inFace : Face) (request : Request) (hops : List Hop) (engine : Engine)
    (result : Except Random.SpanError Decision × Engine) : Prop where
  sent : ∀ faces sent, result.1 = .ok (.send faces sent) →
    result.2.book = (creditsFor inFace request hops result.1).foldl ScoreBook.creditKey engine.book
  kept : (∀ faces sent, result.1 ≠ .ok (.send faces sent)) →
    result.2.book = engine.book.withTimers result.2.timers

theorem Relayed.credits {request : Request} {face : FaceId} {others : List FaceId}
    {result : Except Random.SpanError Decision × Engine}
    (relayed : Relayed engine request face others result) {hops : List Hop}
    (shared : hops.any (·.face.isPointToPoint) = false) (inFace : Face) :
    Credits inFace request hops engine result := by
  cases relayed with
  | @sent sent tagged =>
    refine ⟨fun faces other same => ?_, fun unsent => absurd rfl (unsent (face :: others) sent)⟩
    have book := book_sendNow engine sent (face :: others)
    rw [tagged.name] at book
    simpa only [creditsFor, sendNow, shared, Bool.false_eq_true, if_false] using book
  | @held sent tagged generator delay =>
    refine ⟨fun faces other same => ?_, fun _ => book_defer { engine with generator } sent face delay⟩
    cases same
  | dropped | unbounded => exact ⟨nofun, fun _ => rfl⟩

theorem receive_credits (engine : Engine) (inFace : Face) (request : Request) (hops : List Hop) :
    Credits inFace request hops engine (engine.receive inFace request hops) := by
  cases exceeds : engine.exceedsHopLimit request with
  | true =>
    rw [receive, if_pos exceeds]
    exact ⟨nofun, fun _ => rfl⟩
  | false =>
    cases known : engine.deferral? request.name with
    | some deferral =>
      rw [receive_of_held inFace hops known, if_neg (Bool.eq_false_iff.mp exceeds)]
      exact ⟨nofun, fun _ => book_cancelDeferred engine request.name⟩
    | none =>
      rw [receive_of_idle inFace hops exceeds known, forward]
      cases line : (hops.map (·.face)).find? (·.isPointToPoint) with
      | some out =>
        have direct : hops.any (·.face.isPointToPoint) = true := by
          have found := List.find?_isSome.mp (Option.isSome_of_eq_some line)
          simpa using found
        refine ⟨fun faces sent same => ?_, fun unsent => absurd rfl (unsent [out.id] request)⟩
        simp only [creditsFor, direct, if_pos]
        rfl
      | none =>
        have shared : hops.any (·.face.isPointToPoint) = false := by simpa using line
        dsimp only
        split
        · exact ⟨nofun, fun _ => rfl⟩
        · exact (relay_relayed engine request _ _).credits shared inFace

/-- The journal tells how the book of an engine came about, and its credits for requests and its
destinations are those that the history calls for. -/
structure Journals (start : Engine) (history : History) (later : Engine) (journal : List Entry) :
    Prop where
  book : later.book = journal.foldl ScoreBook.enter start.book
  requests : journal.filterMap Entry.request? = history.credits
  places : journal.filterMap Entry.place? =
    if start.variant.tracksAnnouncements then history.announcements else []

theorem Journals.trans (first : Journals engine before middle journal)
    (same : middle.variant = engine.variant) (second : Journals middle between later entries) :
    Journals engine (between ++ before) later (journal ++ entries) where
  book := by rw [List.foldl_append, ← first.book, second.book]
  requests := by
    rw [List.filterMap_append, first.requests, second.requests]
    simp [History.credits]
  places := by
    rw [List.filterMap_append, first.places, second.places, same]
    cases engine.variant.tracksAnnouncements <;> simp [History.announcements]

/-- A step that neither sends nor announces has a journal without credits and destinations. -/
theorem journals_of_silent {step : Step} (book : later.book = entries.foldl ScoreBook.enter engine.book)
    (unsent : step.credits = []) (unannounced : step.announcement? = none)
    (requests : entries.filterMap Entry.request? = []) (places : entries.filterMap Entry.place? = []) :
    Journals engine [step] later entries where
  book := book
  requests := by simp [History.credits, unsent, requests]
  places := by simp [History.announcements, unannounced, places]

/-- A step that sends has the credits that are due for its journal. -/
theorem journals_of_credits {step : Step}
    (book : later.book = step.credits.foldl ScoreBook.creditKey engine.book)
    (unannounced : step.announcement? = none) :
    Journals engine [step] later (step.credits.map .request) where
  book := by rw [ScoreBook.foldl_enter_requests, book]
  requests := by
    simp [History.credits, List.filterMap_map, Function.comp_def, Entry.request?]
  places := by
    simp [History.announcements, unannounced, List.filterMap_map, Function.comp_def, Entry.place?]

theorem journals_receive (engine : Engine) (inFace : Face) (request : Request) (hops : List Hop) :
    ∃ entries, Journals engine
      [⟨.receive inFace request hops, (engine.perform (.receive inFace request hops)).1⟩]
      (engine.perform (.receive inFace request hops)).2 entries := by
  have credits := receive_credits engine inFace request hops
  simp only [perform, Prod.map_fst, Prod.map_snd, id_eq]
  generalize engine.receive inFace request hops = result at credits ⊢
  obtain ⟨answer, after⟩ := result
  by_cases sends : ∃ faces sent, answer = .ok (.send faces sent)
  · obtain ⟨faces, sent, rfl⟩ := sends
    exact ⟨_, journals_of_credits (credits.sent faces sent rfl) rfl⟩
  · have kept := credits.kept fun faces sent same => sends ⟨faces, sent, same⟩
    refine ⟨[.retimed after.timers], journals_of_silent kept ?_ rfl rfl rfl⟩
    simp only [Step.credits, creditsFor]
    split
    · exact absurd ⟨_, _, rfl⟩ sends
    · rfl

theorem journals_respond (engine : Engine) (pending : Pending) (inFace : Face) (response : Response) :
    ∃ entries, Journals engine
      [⟨.respond pending inFace response, (engine.perform (.respond pending inFace response)).1⟩]
      (engine.perform (.respond pending inFace response)).2 entries := by
  have responded := respond_responded engine pending inFace response
  have book := book_cancelDeferred engine response.name
  have variant := variant_cancelDeferred engine response.name
  simp only [perform, Prod.map_fst, Prod.map_snd, id_eq]
  generalize (engine.cancelDeferred response.name).2 = cancelled at responded book variant
  generalize engine.respond pending inFace response = result at responded ⊢
  cases responded with
  | refused cause => exact ⟨[.retimed cancelled.timers], journals_of_silent book rfl rfl rfl rfl⟩
  | passed untracked decision =>
    refine ⟨[.retimed cancelled.timers], book, rfl, ?_⟩
    rw [← variant, untracked]
    rfl
  | @credited tracked announced announces unplaced decision =>
    refine ⟨[.retimed cancelled.timers, .learned ⟨announced, inFace.id⟩ none],
      journals_of_silent ?_ rfl ?_ rfl rfl⟩
    · simp only [List.foldl_cons, List.foldl_nil, ScoreBook.enter, ← book]
      rfl
    · simp [Step.announcement?, Response.announcement?, unplaced]
  | @placed tracked announced tag announces located id destinations inserted decision =>
    refine ⟨[.retimed cancelled.timers, .learned ⟨announced, inFace.id⟩ (some tag.destination)],
      ?_, rfl, ?_⟩
    · simp only [List.foldl_cons, List.foldl_nil, ScoreBook.enter, ← book]
      rfl
    · rw [← variant, tracked]
      simp [History.announcements, Step.announcement?, Response.announcement?, announces, located]
      rfl

theorem journals_deliver (named : engine.Named) (firing : Firing Event) :
    ∃ entries, Journals engine [⟨.deliver firing, (engine.perform (.deliver firing)).1⟩]
      (engine.perform (.deliver firing)).2 entries := by
  obtain ⟨handle, event⟩ := firing
  cases event with
  | forward name =>
    by_cases counts : engine.live (.forward name) = some handle
    · obtain ⟨deferral, held, rfl⟩ := live_forward_eq_some.mp counts
      refine ⟨_, journals_of_credits ?_ rfl⟩
      rw [perform_deliver, fire_forward held]
      simp only [Step.credits, Prod.map_fst, Prod.map_snd, named name deferral held]
      rfl
    · refine ⟨[], journals_of_silent ?_ ?_ rfl rfl rfl⟩
      all_goals rw [perform_deliver, fire_of_stale counts]; rfl
  | decay name face =>
    refine ⟨[.fired ⟨handle, .decay name face⟩], journals_of_silent rfl ?_ rfl rfl rfl⟩
    simp only [perform_deliver, fire, Prod.map_fst]
    split <;> rfl
  | refresh =>
    refine ⟨[.fired ⟨handle, .refresh⟩], journals_of_silent rfl ?_ rfl rfl rfl⟩
    simp only [perform_deliver, fire, Prod.map_fst]
    split <;> rfl

theorem journals_perform (named : engine.Named) (act : Act) :
    ∃ entries, Journals engine [⟨act, (engine.perform act).1⟩] (engine.perform act).2 entries := by
  have cancelled : ∀ name, (engine.cancelDeferred name).2.book =
      [Entry.retimed (engine.cancelDeferred name).2.timers].foldl ScoreBook.enter engine.book :=
    book_cancelDeferred engine
  have passed : ∀ timers, (engine.withTimers timers).book =
      [Entry.retimed timers].foldl ScoreBook.enter engine.book := fun _ => rfl
  cases act with
  | receive inFace request hops => exact journals_receive engine inFace request hops
  | respond pending inFace response => exact journals_respond engine pending inFace response
  | detectLoop request => exact ⟨_, journals_of_silent (cancelled request.name) rfl rfl rfl rfl⟩
  | expire pending => exact ⟨_, journals_of_silent (cancelled pending.name) rfl rfl rfl rfl⟩
  | refuse inFace nack pending => exact ⟨[], journals_of_silent rfl rfl rfl rfl rfl⟩
  | cancel name => exact ⟨_, journals_of_silent (cancelled name) rfl rfl rfl rfl⟩
  | sweep => exact ⟨[.swept], journals_of_silent rfl rfl rfl rfl rfl⟩
  | shutdown =>
    exact ⟨[.retimed (engine.timers.cancelAll (engine.deferred.toList.map (·.2.handle))), .closed],
      journals_of_silent rfl rfl rfl rfl rfl⟩
  | popDue | fireNext | advance | advanceTo =>
    exact ⟨_, journals_of_silent (passed _) rfl rfl rfl rfl⟩
  | deliver firing => exact journals_deliver named firing

/-- Every run has a journal. -/
theorem exists_journal (run : Run engine history later) (named : engine.Named) :
    ∃ journal, Journals engine history later journal := by
  induction run with
  | start => exact ⟨[], rfl, rfl, by simp [History.announcements]⟩
  | @act history middle before act ih =>
    obtain ⟨journal, first⟩ := ih
    obtain ⟨entries, second⟩ := journals_perform (named.run before) act
    exact ⟨journal ++ entries, first.trans (variant_run before) second⟩

end Engine

end Overhear
