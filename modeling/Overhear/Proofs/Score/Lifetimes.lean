import Overhear.Proofs.Score.Session

/-! How long records live. Each touch of a record puts its deadline off to a whole lifetime from then, and
nothing brings a deadline forward, so a record is there until its last touch is a lifetime ago. -/
namespace Overhear.ScoreBook

variable {α : Type} {book middle after : ScoreBook α} {name : Name} {key : ScoreKey}

/-- No time passes, and records only live longer. -/
structure Postpones (book after : ScoreBook α) : Prop where
  config : after.config = book.config
  now : after.now = book.now
  deadline : ∀ name deadline, book.records.deadline? name = some deadline →
    ∃ later, after.records.deadline? name = some later ∧ deadline ≤ later

/-- The record of a name has a whole lifetime before it. -/
def Fresh (book : ScoreBook α) (name : Name) : Prop :=
  ∃ deadline, book.records.deadline? name = some deadline ∧
    book.now + book.config.recordLifetime ≤ deadline

theorem Postpones.of_records (config : after.config = book.config) (now : after.now = book.now)
    (records : after.records = book.records) : book.Postpones after := by
  refine ⟨config, now, fun name deadline known => ⟨deadline, ?_, Nat.le_refl _⟩⟩
  rw [records]
  exact known

theorem Postpones.refl (book : ScoreBook α) : book.Postpones book := .of_records rfl rfl rfl

theorem Postpones.trans (first : book.Postpones middle) (second : middle.Postpones after) :
    book.Postpones after where
  config := second.config.trans first.config
  now := second.now.trans first.now
  deadline name deadline known := by
    obtain ⟨between, found, early⟩ := first.deadline name deadline known
    obtain ⟨later, last, late⟩ := second.deadline name between found
    exact ⟨later, last, Nat.le_trans early late⟩

theorem Fresh.postponed (fresh : book.Fresh name) (postpones : book.Postpones after) :
    after.Fresh name := by
  obtain ⟨deadline, known, long⟩ := fresh
  obtain ⟨later, found, late⟩ := postpones.deadline name deadline known
  refine ⟨later, found, ?_⟩
  rw [postpones.config, postpones.now]
  exact Nat.le_trans long late

theorem Postpones.foldl {β : Type} {step : ScoreBook α → β → ScoreBook α}
    (postpones : ∀ (book : ScoreBook α) (item : β), book.Postpones (step book item)) (items : List β)
    (book : ScoreBook α) :
    book.Postpones (items.foldl step book) := by
  induction items generalizing book with
  | nil => exact .refl book
  | cons item rest ih => exact (postpones book item).trans (ih (step book item))

/-- What one step of a fold makes fresh is fresh at the end. -/
theorem fresh_foldl {β : Type} {step : ScoreBook α → β → ScoreBook α}
    (postpones : ∀ (book : ScoreBook α) (item : β), book.Postpones (step book item)) {items : List β}
    {item : β} (member : item ∈ items)
    (renews : ∀ middle, book.Postpones middle → (step middle item).Fresh name) :
    (items.foldl step book).Fresh name := by
  obtain ⟨before, later, rfl⟩ := List.append_of_mem member
  rw [List.foldl_append, List.foldl_cons]
  have renewed := renews _ (Postpones.foldl postpones before book)
  exact renewed.postponed (Postpones.foldl postpones later _)

theorem deadline?_touchRecord (book : ScoreBook α) (name other : Name) :
    (book.touchRecord name).records.deadline? other =
      if other = name then
        some (max ((book.records.deadline? name).getD (book.now + book.records.firstLifetime))
          (book.now + book.config.recordLifetime))
      else book.records.deadline? other := by
  simp only [touchRecord, Records.deadline?_extend, Records.deadline?_create]
  by_cases same : other = name
  · cases book.records.deadline? name <;> simp [same]
  · simp [same]

theorem deadline?_extendRecord (book : ScoreBook α) (name other : Name) :
    (book.extendRecord name).records.deadline? other =
      if other = name then
        (book.records.deadline? name).map (max · (book.now + book.config.recordLifetime))
      else book.records.deadline? other :=
  Records.deadline?_extend ..

theorem postpones_touchRecord (book : ScoreBook α) (name : Name) :
    book.Postpones (book.touchRecord name) := by
  refine ⟨rfl, rfl, fun other deadline known => ?_⟩
  rw [deadline?_touchRecord]
  split
  · rename_i same
    rw [same] at known
    rw [known, Option.getD_some]
    exact ⟨_, rfl, Nat.le_max_left _ _⟩
  · exact ⟨deadline, known, Nat.le_refl _⟩

theorem fresh_touchRecord (book : ScoreBook α) (name : Name) : (book.touchRecord name).Fresh name := by
  have known := deadline?_touchRecord book name name
  rw [if_pos rfl] at known
  exact ⟨_, known, Nat.le_max_right _ _⟩

theorem postpones_extendRecord (book : ScoreBook α) (name : Name) :
    book.Postpones (book.extendRecord name) := by
  refine ⟨rfl, rfl, fun other deadline known => ?_⟩
  rw [deadline?_extendRecord]
  split
  · rename_i same
    rw [same] at known
    rw [known, Option.map_some]
    exact ⟨_, rfl, Nat.le_max_left _ _⟩
  · exact ⟨deadline, known, Nat.le_refl _⟩

theorem fresh_extendRecord (present : book.records.contains name = true) :
    (book.extendRecord name).Fresh name := by
  rw [Records.contains_eq_isSome_deadline?] at present
  obtain ⟨deadline, before⟩ := Option.isSome_iff_exists.mp present
  have known := deadline?_extendRecord book name name
  rw [if_pos rfl, before, Option.map_some] at known
  exact ⟨_, known, Nat.le_max_right _ _⟩

theorem Postpones.contains (postpones : book.Postpones after)
    (present : book.records.contains name = true) : after.records.contains name = true := by
  rw [Records.contains_eq_isSome_deadline?] at present ⊢
  obtain ⟨deadline, known⟩ := Option.isSome_iff_exists.mp present
  obtain ⟨later, found, -⟩ := postpones.deadline name deadline known
  exact Option.isSome_of_eq_some found

theorem postpones_modifyStats (book : ScoreBook α) (key : ScoreKey) (change : Stats α → Stats α) :
    book.Postpones (book.modifyStats key change) := by
  rw [modifyStats_frame]
  exact .of_records rfl rfl rfl

theorem postpones_armDecay (book : ScoreBook α) (key : ScoreKey) (score : FaceScore α) :
    book.Postpones (book.armDecay key score) := .of_records rfl rfl rfl

theorem postpones_armRefresh (book : ScoreBook α) : book.Postpones book.armRefresh := by
  unfold armRefresh
  split
  · exact .refl book
  · exact .of_records rfl rfl rfl

theorem postpones_setDestination (book : ScoreBook α) (name : Name) (destination : Coordinate) :
    book.Postpones (book.setDestination name destination) :=
  (postpones_touchRecord book name).trans (.of_records rfl rfl rfl)

theorem fresh_setDestination (book : ScoreBook α) (name : Name) (destination : Coordinate) :
    (book.setDestination name destination).Fresh name :=
  (fresh_touchRecord book name).postponed (.of_records rfl rfl rfl)

theorem postpones_forget (book : ScoreBook α) (name : Name) : book.Postpones (book.forget name) := by
  unfold forget
  split
  · exact .refl book
  · exact .of_records rfl (Timers.elapsed_cancelAll _ _) rfl

theorem postpones_foldl_forget (names : List Name) (book : ScoreBook α) :
    book.Postpones (names.foldl (fun book name => book.forget name) book) :=
  Postpones.foldl postpones_forget names book

theorem postpones_shutdown (book : ScoreBook α) : book.Postpones book.shutdown :=
  .of_records rfl (Timers.elapsed_cancelAll _ _) rfl

/-- A credit that goes up from a name, or an update of its scores, reaches the name and the records above. -/
def Reaches (book : ScoreBook α) (start subject : Name) : Prop :=
  subject = start ∨ subject.strictlyCovers start = true ∧ book.records.contains subject = true

theorem mem_upward {start subject : Name} :
    subject ∈ start :: book.records.above start ↔ book.Reaches start subject := by
  rw [List.mem_cons, Records.mem_above, Reaches]

theorem contains_of_nearestScored? {start : Name} (nearest : book.nearestScored? name = some start) :
    book.records.contains start = true := by
  have both := List.find?_some nearest
  rw [Bool.and_eq_true] at both
  exact both.2

section

variable [Scalar α]

theorem touchRecord_postpones_openScore (book : ScoreBook α) (key : ScoreKey) :
    (book.touchRecord key.name).Postpones (book.openScore key) := by
  unfold openScore
  dsimp only
  split
  · exact .refl _
  · exact postpones_armDecay _ key _

theorem postpones_openScore (book : ScoreBook α) (key : ScoreKey) :
    book.Postpones (book.openScore key) :=
  (postpones_touchRecord book key.name).trans (touchRecord_postpones_openScore book key)

theorem fresh_openScore (book : ScoreBook α) (key : ScoreKey) : (book.openScore key).Fresh key.name :=
  (fresh_touchRecord book key.name).postponed (touchRecord_postpones_openScore book key)

theorem openScore_postpones_credit (count : Stats α → Stats α) (book : ScoreBook α) (key : ScoreKey) :
    (book.openScore key).Postpones (book.credit count key) :=
  (postpones_modifyStats _ key count).trans (.of_records rfl rfl rfl)

theorem postpones_credit (count : Stats α → Stats α) (book : ScoreBook α) (key : ScoreKey) :
    book.Postpones (book.credit count key) :=
  (postpones_openScore book key).trans (openScore_postpones_credit count book key)

theorem fresh_credit (count : Stats α → Stats α) (book : ScoreBook α) (key : ScoreKey) :
    (book.credit count key).Fresh key.name :=
  (fresh_openScore book key).postponed (openScore_postpones_credit count book key)

theorem postpones_creditUpward (count : Stats α → Stats α) (book : ScoreBook α) (start : Name)
    (face : FaceId) : book.Postpones (book.creditUpward count start face) := by
  refine Postpones.trans ?_ (postpones_armRefresh _)
  exact Postpones.foldl (fun book name => postpones_credit count book ⟨name, face⟩) _ book

theorem fresh_creditUpward (count : Stats α → Stats α) {start subject : Name} (face : FaceId)
    (reached : book.Reaches start subject) : (book.creditUpward count start face).Fresh subject := by
  refine Fresh.postponed ?_ (postpones_armRefresh _)
  refine fresh_foldl (fun book name => postpones_credit count book ⟨name, face⟩) (mem_upward.mpr reached)
    fun middle _ => ?_
  exact fresh_credit count middle ⟨subject, face⟩

theorem postpones_creditRequest (book : ScoreBook α) (name : Name) (face : FaceId) :
    book.Postpones (book.creditRequest name face) := by
  unfold creditRequest
  split
  · exact postpones_creditUpward _ book _ face
  · exact (postpones_credit _ book _).trans (postpones_armRefresh _)

theorem update_postpones_extendRecord (book : ScoreBook α) (key : ScoreKey) :
    book.Postpones ((book.update key).extendRecord key.name) :=
  (postpones_modifyStats book key _).trans (postpones_extendRecord _ key.name)

theorem postpones_updateLongest (book : ScoreBook α) (name : Name) (face : FaceId) :
    book.Postpones (book.updateLongest name face).2 :=
  Postpones.foldl update_postpones_extendRecord _ book

theorem fresh_updateLongest {face : FaceId} {start subject : Name}
    (nearest : book.nearestScored? name = some start) (reached : book.Reaches start subject)
    (scored : (book.faceScore? ⟨subject, face⟩).isSome) :
    (book.updateLongest name face).2.Fresh subject := by
  have member : (⟨subject, face⟩ : ScoreKey) ∈ book.scoredChain name face := by
    simp only [scoredChain, nearest]
    exact List.mem_filter.mpr ⟨List.mem_map_of_mem (mem_upward.mpr reached), scored⟩
  have present : book.records.contains subject = true := by
    rcases reached with same | ⟨-, present⟩
    · rw [same]
      exact contains_of_nearestScored? nearest
    · exact present
  apply fresh_foldl update_postpones_extendRecord member
  intro middle postpones
  apply fresh_extendRecord
  exact (postpones.trans (postpones_modifyStats middle _ _)).contains present

theorem postpones_refreshTouched (book : ScoreBook α) : book.Postpones book.refreshTouched.2 := by
  have updated := Postpones.foldl
    (fun (book : ScoreBook α) key => postpones_modifyStats book key (Stats.update book.config.smoothing))
    (book.touched.toList.filter fun key => (book.faceScore? key).isSome) book
  exact updated.trans (.of_records rfl rfl rfl)

theorem postpones_fireDecay (book : ScoreBook α) (handle : Handle) (key : ScoreKey) :
    book.Postpones (book.fireDecay handle key).2 := by
  unfold fireDecay
  split
  · exact .refl book
  · split
    · exact postpones_armDecay book key _
    · exact .refl book

theorem postpones_fireRefresh (book : ScoreBook α) (handle : Handle) :
    book.Postpones (book.fireRefresh handle).2 := by
  unfold fireRefresh
  split
  · have unarmed : book.Postpones { book with refreshTimer := none } := .of_records rfl rfl rfl
    have refreshed := unarmed.trans (postpones_refreshTouched _)
    dsimp only
    split
    · exact refreshed
    · exact refreshed.trans (postpones_armRefresh _)
  · exact .refl book

/-- Which records an act touches. -/
def Act.Touches (act : Act) (book : ScoreBook α) (subject : Name) : Prop :=
  match act with
  | .openScore key => subject = key.name
  | .creditRequest name _ =>
      match book.nearestScored? name with
      | some start => book.Reaches start subject
      | none => subject = book.config.bootstrap
  | .creditResponse name _ => book.Reaches name subject
  | .updateLongest name face => ∃ start, book.nearestScored? name = some start ∧
      book.Reaches start subject ∧ (book.faceScore? ⟨subject, face⟩).isSome
  | .setDestination name _ => subject = name
  | .update _ | .decay _ | .refreshTouched | .forget _ | .sweep | .shutdown | .move _ | .deliver _ => False

/-- All acts but those that take records out or let time pass. -/
theorem postpones_perform (book : ScoreBook α) {act : Act} (keeping : act ≠ .sweep)
    (still : ∀ move, act ≠ .move move) : book.Postpones (book.perform act).2 := by
  cases act with
  | openScore key => exact postpones_openScore book key
  | creditRequest name face => exact postpones_creditRequest book name face
  | creditResponse name face => exact postpones_creditUpward _ book name face
  | update key => exact postpones_modifyStats book key _
  | updateLongest name face => exact postpones_updateLongest book name face
  | decay key => exact postpones_modifyStats book key _
  | refreshTouched => exact postpones_refreshTouched book
  | setDestination name destination => exact postpones_setDestination book name destination
  | forget name => exact postpones_forget book name
  | sweep => exact absurd rfl keeping
  | shutdown => exact postpones_shutdown book
  | move move => exact absurd rfl (still move)
  | deliver firing =>
    simp only [perform, fire]
    split
    · exact .refl book
    · exact postpones_fireDecay book firing.handle _
    · exact postpones_fireRefresh book firing.handle

/-- A touch gives a record a whole lifetime from now on. -/
theorem fresh_perform {act : Act} {subject : Name} (touches : act.Touches book subject) :
    (book.perform act).2.Fresh subject := by
  cases act with
  | openScore key =>
    obtain rfl : subject = key.name := touches
    exact fresh_openScore book key
  | creditRequest name face =>
    cases nearest : book.nearestScored? name with
    | some start =>
      have reached : book.Reaches start subject := by simpa only [Act.Touches, nearest] using touches
      simp only [perform, creditRequest, nearest]
      exact fresh_creditUpward _ face reached
    | none =>
      have same : subject = book.config.bootstrap := by simpa only [Act.Touches, nearest] using touches
      simp only [perform, creditRequest, nearest, same]
      exact (fresh_credit _ book _).postponed (postpones_armRefresh _)
  | creditResponse name face => exact fresh_creditUpward _ face touches
  | updateLongest name face =>
    obtain ⟨start, nearest, reached, scored⟩ := touches
    exact fresh_updateLongest nearest reached scored
  | setDestination name destination =>
    obtain rfl : subject = name := touches
    exact fresh_setDestination book _ destination
  | update | decay | refreshTouched | forget | sweep | shutdown | move | deliver => exact touches.elim

theorem Act.Touches.postpones {act : Act} {subject : Name} (touches : act.Touches book subject) :
    book.Postpones (book.perform act).2 := by
  apply postpones_perform
  · intro same
    subst same
    exact touches
  · intro move same
    subst same
    exact touches

theorem perform_cases (book : ScoreBook α) (act : Act) :
    act = .sweep ∨ (∃ move, act = .move move) ∨ book.Postpones (book.perform act).2 := by
  by_cases sweeps : act = .sweep
  · exact .inl sweeps
  · by_cases moves : ∃ move, act = .move move
    · exact .inr (.inl moves)
    · exact .inr (.inr (postpones_perform book sweeps (not_exists.mp moves)))

theorem config_perform (book : ScoreBook α) (act : Act) : (book.perform act).2.config = book.config := by
  rcases perform_cases book act with same | ⟨move, same⟩ | postpones
  · subst same
    exact (postpones_foldl_forget book.sweep.1 _).config
  · subst same
    rfl
  · exact postpones.config

/-- Until a point in time is reached, the deadline of a record is not before it. -/
def LivesUntil (book : ScoreBook α) (name : Name) (bound : Nanos) : Prop :=
  book.now < bound → ∃ deadline, book.records.deadline? name = some deadline ∧ bound ≤ deadline

/-- A record lives on whatever is done; a sweep takes it only once its deadline has passed. -/
theorem LivesUntil.perform {bound : Nanos} (lives : book.LivesUntil name bound) (act : Act) :
    (book.perform act).2.LivesUntil name bound := by
  intro early
  rcases perform_cases book act with same | ⟨move, same⟩ | postpones
  · subst same
    have forgets := postpones_foldl_forget book.sweep.1
      { book with records := (book.records.takeExpired book.now).2 }
    have before : book.now < bound := forgets.now ▸ early
    obtain ⟨deadline, known, late⟩ := lives before
    have spared : name ∉ (book.records.takeExpired book.now).1 := by
      intro taken
      have passed := Records.le_of_mem_takeExpired taken (Name.covers_self name) known
      exact Nat.not_lt_of_le (Nat.le_trans late passed) before
    obtain ⟨later, found, long⟩ := forgets.deadline name deadline
      ((Records.deadline?_takeExpired ..).trans ((if_neg spared).trans known))
    exact ⟨later, found, Nat.le_trans late long⟩
  · subst same
    exact lives (Nat.lt_of_le_of_lt (Timers.elapsed_le_move book.timers move) early)
  · obtain ⟨deadline, known, late⟩ := lives (postpones.now ▸ early)
    obtain ⟨later, found, long⟩ := postpones.deadline name deadline known
    exact ⟨later, found, Nat.le_trans late long⟩

namespace Session

variable {session : Session α} {acts : List Act} {subject : Name} {time : Nanos}

/-- In the course of some acts a record was touched at a point in time. -/
def TouchedAt (session : Session α) (acts : List Act) (subject : Name) (time : Nanos) : Prop :=
  ∃ before act later, acts = before ++ act :: later ∧
    act.Touches (session.after before).book subject ∧ (session.after before).book.now = time

theorem config_after (session : Session α) (acts : List Act) :
    (session.after acts).book.config = session.book.config := by
  let Same (book : ScoreBook α) : Prop := book.config = session.book.config
  have start : Same session.book := rfl
  apply after_keeps start
  intro book same act _
  exact (config_perform book act).trans same

/-- A record that was touched lives for a lifetime from then, whatever is done meanwhile. -/
theorem lives_after (touched : session.TouchedAt acts subject time) :
    (session.after acts).book.LivesUntil subject (time + session.book.config.recordLifetime) := by
  obtain ⟨before, act, later, rfl, touches, rfl⟩ := touched
  have split : session.after (before ++ act :: later) = ((session.after before).act act).after later := by
    simp only [after, List.foldl_append, List.foldl_cons]
  let Lives (book : ScoreBook α) : Prop := book.LivesUntil subject
    ((session.after before).book.now + session.book.config.recordLifetime)
  have start : Lives ((session.after before).act act).book := by
    intro _
    obtain ⟨deadline, known, long⟩ := fresh_perform touches
    rw [touches.postpones.now, touches.postpones.config, config_after] at long
    exact ⟨deadline, known, long⟩
  rw [split]
  apply after_keeps start
  exact fun book lives act _ => LivesUntil.perform lives act

end Session

end

end Overhear.ScoreBook
