import Overhear.Proofs.Score.Lifetimes
import Overhear.Proofs.Score.Marks
import Overhear.Proofs.Timers.Calls

/-! What a sweep takes. A record goes only when neither it nor one below it was touched within a lifetime,
its scores, marks and timers go with it, and all that belongs to other names stays as it was. -/
namespace Overhear.ScoreBook

variable {α : Type} {book : ScoreBook α}

/-- What a sweep does to the records, the scores, the marks and the timers of a book. -/
structure SweepsClean (book : ScoreBook α) : Prop where
  taken_iff : ∀ name, name ∈ book.sweep.1 ↔
    (book.records.deadline? name).isSome ∧ book.records.Dead book.now name
  unrecorded : ∀ name ∈ book.sweep.1, book.sweep.2.records.deadline? name = none
  unscored : ∀ name ∈ book.sweep.1, book.sweep.2.standing? name = none
  unmarked : ∀ key ∈ book.sweep.2.touched, key.name ∉ book.sweep.1
  unarmed : ∀ handle deadline name face,
    book.sweep.2.timers.armed? handle = some (deadline, .decay name face) → name ∉ book.sweep.1
  records : ∀ name ∉ book.sweep.1,
    book.sweep.2.records.deadline? name = book.records.deadline? name
  standings : ∀ name ∉ book.sweep.1, book.sweep.2.standing? name = book.standing? name
  marks : ∀ key : ScoreKey, key.name ∉ book.sweep.1 →
    (key ∈ book.sweep.2.touched ↔ key ∈ book.touched)
  timers : ∀ handle deadline event, ¬ DecaysAny book.sweep.1 event →
    (book.sweep.2.timers.armed? handle = some (deadline, event) ↔
      book.timers.armed? handle = some (deadline, event))
  refreshTimer : book.sweep.2.refreshTimer = book.refreshTimer

theorem deadline?_sweep (book : ScoreBook α) (name : Name) :
    book.sweep.2.records.deadline? name =
      if name ∈ book.sweep.1 then none else book.records.deadline? name := by
  have records : book.sweep.2.records = (book.records.takeExpired book.now).2 :=
    records_foldl_forget book.sweep.1 _
  rw [records]
  exact Records.deadline?_takeExpired ..

theorem standing?_sweep (book : ScoreBook α) (name : Name) :
    book.sweep.2.standing? name = if name ∈ book.sweep.1 then none else book.standing? name :=
  standing?_foldl_forget book.sweep.1 _ name

theorem faceScore?_sweep_of_taken {key : ScoreKey} (taken : key.name ∈ book.sweep.1) :
    book.sweep.2.faceScore? key = none := by
  simp only [faceScore?, standing?_sweep, if_pos taken]
  rfl

/-- A book of which every armed decay timer counts and every mark is of a score sweeps clean. -/
theorem sweepsClean (sound : book.roster.Sound)
    (exact : book.roster.ExactFor fun event => event.isUpkeep = true) (marked : book.Marked) :
    book.SweepsClean := by
  constructor
  · exact fun _ => Records.mem_takeExpired_iff
  · intro name taken
    rw [deadline?_sweep, if_pos taken]
  · intro name taken
    rw [standing?_sweep, if_pos taken]
  · intro key member taken
    have scored := marked.sweep.scored key member
    simp [faceScore?_sweep_of_taken taken] at scored
  · intro handle deadline name face armed taken
    have counts : book.sweep.2.live (.decay name face) = some handle :=
      exact.changes (sweep_changes book) handle deadline _ rfl armed
    have gone : book.sweep.2.faceScore? ⟨name, face⟩ = none := faceScore?_sweep_of_taken taken
    simp [live, gone] at counts
  · intro name spared
    rw [deadline?_sweep, if_neg spared]
  · intro name spared
    rw [standing?_sweep, if_neg spared]
  · intro key spared
    exact mem_touched_foldl_forget key book.sweep.1 _ spared
  · intro handle deadline event spared
    exact (sweep_changes book).armed_outside sound spared handle deadline
  · exact refreshTimer_foldl_forget book.sweep.1 _

namespace Session

/-- A new book for a service and for records that may have been in use before. -/
def begun (config : ScoreConfig α) (timers : Timers Event) (records : Records) : Session α :=
  { book := { config, timers, records } }

theorem faceScore?_begun (config : ScoreConfig α) (timers : Timers Event) (records : Records)
    (key : ScoreKey) : (begun config timers records).book.faceScore? key = none := by
  simp [begun, faceScore?, standing?]

section

variable [Scalar α]

/-- A host that delivers only what it popped keeps the accounts of a new book, if no timer was pending that
is for scores. -/
theorem accounts_of_begun {timers : Timers Event} (sound : timers.Sound)
    (quiet : ∀ handle deadline event,
      timers.armed? handle = some (deadline, event) → event.isUpkeep = false)
    (config : ScoreConfig α) (records : Records) {acts : List Act}
    (honest : (begun config timers records).Honest acts) :
    ((begun config timers records).after acts).book.roster.Sound ∧
      ((begun config timers records).after acts).book.roster.ExactFor
        fun event => event.isUpkeep = true := by
  have idle : ∀ event, (begun config timers records).book.live event = none :=
    live_of_unscored (faceScore?_begun config timers records) rfl
  have unarmed : (begun config timers records).book.roster.ExactFor
      fun event => event.isUpkeep = true := by
    intro handle deadline event upkeep armed
    simp [quiet handle deadline event armed] at upkeep
  obtain ⟨balance, exact⟩ := balance_after (.start sound idle) unarmed honest
  exact ⟨balance.sound, exact⟩

theorem marked_of_begun (config : ScoreConfig α) (timers : Timers Event) (records : Records)
    (acts : List Act) : ((begun config timers records).after acts).book.Marked := by
  apply after_keeps
  · constructor
    · exact fun key member => absurd member Std.ExtTreeSet.not_mem_empty
    · simp [faceScore?_begun]
  · exact fun book marked act _ => Marked.perform marked act

/-- A record is taken out only a lifetime after the last touch of it, and of any record below it. -/
theorem le_now_of_mem_sweep {session : Session α} {acts : List Act} {name touched : Name} {time : Nanos}
    (taken : name ∈ (session.after acts).book.sweep.1) (covered : name.covers touched = true)
    (touch : session.TouchedAt acts touched time) :
    time + session.book.config.recordLifetime ≤ (session.after acts).book.now := by
  by_contra recent
  obtain ⟨deadline, known, late⟩ := lives_after touch (Nat.lt_of_not_le recent)
  have passed := Records.le_of_mem_takeExpired taken covered known
  exact recent (Nat.le_trans late passed)

/-- Whatever was done with a book before, its sweep takes only records that have not been touched for a
lifetime, nor any record below them, and takes nothing of the other names. -/
theorem sweep_takes_only_dead (config : ScoreConfig α) (calls : List (Timers.Call Event))
    (quiet : ∀ handle deadline event,
      (Timers.Run.after calls).timers.armed? handle = some (deadline, event) → event.isUpkeep = false)
    (records : Records) {acts : List Act}
    (honest : (begun config (Timers.Run.after calls).timers records).Honest acts) :
    let session := begun config (Timers.Run.after calls).timers records
    let book := (session.after acts).book
    (∀ name ∈ book.sweep.1, ∀ touched time, name.covers touched = true →
      session.TouchedAt acts touched time → time + config.recordLifetime ≤ book.now) ∧
    book.SweepsClean := by
  intro session book
  have service := (Timers.Run.kept_after calls).logged.account.sound
  obtain ⟨sound, exact⟩ := accounts_of_begun service quiet config records honest
  refine ⟨?_, sweepsClean sound exact (marked_of_begun config _ records acts)⟩
  intro name taken touched time covered touch
  exact le_now_of_mem_sweep taken covered touch

end

/-- A new book with records that live for a second only. -/
def brief : Session Float :=
  begun { ScoreConfig.standard with recordLifetime := Nanos.ofSeconds 1 } (Timers.Run.after []).timers
    { firstLifetime := 0 }

/-- Two names are credited, and a second later one that lies under the first of them. -/
def crossing : List Act :=
  [.openScore ⟨⟨["a"]⟩, ⟨256⟩⟩, .creditResponse ⟨["c"]⟩ ⟨256⟩, .move (.advance (Nanos.ofSeconds 1)),
    .openScore ⟨⟨["a", "b"]⟩, ⟨256⟩⟩]

/-- Both first records have expired, but one of them has a record below it that lives. -/
theorem sweep_takes_only_dead_crossing :
    (brief.after crossing).book.records.expired (brief.after crossing).book.now =
        [⟨["a"]⟩, ⟨["c"]⟩] ∧
      (brief.after crossing).book.sweep.1 = [⟨["c"]⟩] ∧
      brief.TouchedAt crossing ⟨["c"]⟩ 0 ∧
      0 + Nanos.ofSeconds 1 ≤ (brief.after crossing).book.now ∧
      (brief.after crossing).book.SweepsClean := by
  have quiet : ∀ handle deadline (event : Event), (Timers.Run.after []).timers.armed? handle =
      some (deadline, event) → event.isUpkeep = false := by
    simp [Timers.Run.after, Timers.armed?]
  have honest : brief.Honest crossing := by decide +kernel
  have expired : (brief.after crossing).book.records.expired (brief.after crossing).book.now =
      [⟨["a"]⟩, ⟨["c"]⟩] := by
    have due : (brief.after crossing).book.records.expired (brief.after crossing).book.now =
        List.mergeSort [⟨["a"]⟩, ⟨["c"]⟩] fun a b : Name => b.length ≤ a.length :=
      congrArg (List.mergeSort · _) (by decide +kernel)
    rw [due]
    exact List.mergeSort_of_pairwise (by simp [Name.length])
  have taken : (brief.after crossing).book.sweep.1 = [⟨["c"]⟩] := by
    change (Records.takeExpired _ _).1 = _
    rw [Records.takeExpired, expired]
    decide +kernel
  have touch : brief.TouchedAt crossing ⟨["c"]⟩ 0 :=
    ⟨[.openScore ⟨⟨["a"]⟩, ⟨256⟩⟩], _, _, rfl, .inl rfl, rfl⟩
  obtain ⟨dead, clean⟩ := sweep_takes_only_dead _ [] quiet _ honest
  refine ⟨expired, taken, touch, ?_, clean⟩
  exact dead ⟨["c"]⟩ (taken ▸ .head _) _ 0 (Name.covers_self _) touch

end Session

end Overhear.ScoreBook
