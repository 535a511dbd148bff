import Overhear.Proofs.Score.Sweeping

/-! When the scores of a book decay next. While the clock stands still, what a host does with a book leaves
the decay of every score that stays where it was, and that of a new score is one period ahead. -/
namespace Overhear.ScoreBook

variable {α : Type} {book middle after : ScoreBook α} {key : ScoreKey} {time : Nanos}

/-- The decay timer of a score is armed for a point in time. -/
def DecaysAt (book : ScoreBook α) (key : ScoreKey) (time : Nanos) : Prop :=
  ∃ timer, book.live (.decay key.name key.face) = some timer ∧
    book.timers.armed? timer = some (time, .decay key.name key.face)

/-- The decay of a score is one period ahead. -/
def DecaysNext (book : ScoreBook α) (key : ScoreKey) : Prop :=
  book.DecaysAt key (book.now + book.config.decayPeriod)

/-- No score goes, no timer is disarmed, and a new score gets a timer. -/
structure Grows (book after : ScoreBook α) : Prop where
  config : after.config = book.config
  now : after.now = book.now
  next_le : book.timers.next.number ≤ after.timers.next.number
  armed : ∀ handle, handle.number < book.timers.next.number →
    after.timers.armed? handle = book.timers.armed? handle
  held : ∀ (key : ScoreKey) timer, book.live (.decay key.name key.face) = some timer →
    after.live (.decay key.name key.face) = some timer
  opened : ∀ key, (after.faceScore? key).isSome → (book.faceScore? key).isSome ∨
    ∃ timer, after.live (.decay key.name key.face) = some timer ∧
      timer.number < after.timers.next.number ∧ after.timers.armed? timer =
        some (after.now + after.config.decayPeriod, .decay key.name key.face)

/-- Nothing grows where the timers and those of the scores are the same. -/
theorem Grows.of_same (config : after.config = book.config) (timers : after.timers = book.timers)
    (scores : ∀ key, (after.faceScore? key).map (·.decayTimer) =
      (book.faceScore? key).map (·.decayTimer)) : book.Grows after where
  config := config
  now := congrArg Timers.elapsed timers
  next_le := Nat.le_of_eq (congrArg (·.next.number) timers.symm)
  armed handle _ := congrArg (·.armed? handle) timers
  held key timer counts := by
    obtain ⟨score, found, holds⟩ := Option.bind_eq_some_iff.mp counts
    have same : (after.faceScore? key).map (·.decayTimer) = some score.decayTimer := by
      rw [scores]
      exact congrArg (Option.map (·.decayTimer)) found
    obtain ⟨later, present, equal⟩ := Option.map_eq_some_iff.mp same
    exact Option.bind_eq_some_iff.mpr ⟨later, present, equal.trans holds⟩
  opened key present := by
    have same := congrArg Option.isSome (scores key)
    rw [Option.isSome_map, Option.isSome_map] at same
    exact .inl (same ▸ present)

theorem Grows.refl (book : ScoreBook α) : book.Grows book := .of_same rfl rfl fun _ => rfl

theorem Grows.trans (first : book.Grows middle) (second : middle.Grows after) : book.Grows after where
  config := second.config.trans first.config
  now := second.now.trans first.now
  next_le := Nat.le_trans first.next_le second.next_le
  armed handle below :=
    (second.armed handle (Nat.lt_of_lt_of_le below first.next_le)).trans (first.armed handle below)
  held key timer counts := second.held key timer (first.held key timer counts)
  opened key present := by
    rcases second.opened key present with between | new
    · rcases first.opened key between with before | ⟨timer, counts, below, armed⟩
      · exact .inl before
      · refine .inr ⟨timer, second.held key timer counts, Nat.lt_of_lt_of_le below second.next_le, ?_⟩
        rw [second.armed timer below, armed, second.now, second.config]
    · exact .inr new

/-- Where scores only are added, the decay of a score stays where it was. -/
theorem Grows.decaysAt (grows : book.Grows after) (sound : book.timers.Sound)
    (decays : book.DecaysAt key time) : after.DecaysAt key time := by
  obtain ⟨timer, counts, armed⟩ := decays
  refine ⟨timer, grows.held key timer counts, ?_⟩
  rw [grows.armed timer (sound.handedOut_of_armed armed)]
  exact armed

theorem grows_modifyStats (book : ScoreBook α) (key : ScoreKey) (change : Stats α → Stats α) :
    book.Grows (book.modifyStats key change) := by
  have timers : (book.modifyStats key change).timers = book.timers := by rw [modifyStats_frame]
  refine .of_same (book.config_modifyStats key change) timers fun other => ?_
  rw [faceScore?_modifyStats]
  split
  · rename_i same
    rw [same, Option.map_map]
    rfl
  · rfl

theorem grows_armDecay (score : FaceScore α) (idle : book.live (.decay key.name key.face) = none) :
    book.Grows (book.armDecay key score) where
  config := rfl
  now := rfl
  next_le := Nat.le_succ _
  armed _ below := Timers.armed?_arm_of_lt below _ _
  held other timer counts := by
    have different : other ≠ key := by
      rintro rfl
      rw [idle] at counts
      cases counts
    simp only [live, faceScore?_armDecay]
    rw [if_neg different]
    exact counts
  opened other present := by
    rw [faceScore?_armDecay] at present
    split at present
    · rename_i same
      subst same
      refine .inr ⟨book.timers.next, ?_, Nat.lt_succ_self _, ?_⟩
      · simp only [live, faceScore?_armDecay, if_true, Option.bind_some]
      · exact (Timers.armed?_arm book.timers _ _ _).trans (if_pos rfl)
    · exact .inl present

theorem grows_armRefresh (book : ScoreBook α) : book.Grows book.armRefresh := by
  unfold armRefresh
  split
  · exact .refl book
  · exact ⟨rfl, rfl, Nat.le_succ _, fun _ below => Timers.armed?_arm_of_lt below _ _,
      fun _ _ counts => counts, fun _ => .inl⟩

theorem grows_setDestination (book : ScoreBook α) (name : Name) (destination : Coordinate) :
    book.Grows (book.setDestination name destination) :=
  .of_same rfl rfl fun key => by rw [faceScore?_setDestination]

/-- Another user of the timer service arms a timer of its own. -/
theorem grows_arm (book : ScoreBook α) (delay : Nanos) (event : Event) :
    book.Grows (book.withTimers (book.timers.arm delay event).2) :=
  ⟨rfl, rfl, Nat.le_succ _, fun _ below => Timers.armed?_arm_of_lt below delay event,
    fun _ _ counts => counts, fun _ => .inl⟩

section

variable [Scalar α]

theorem grows_openScore (book : ScoreBook α) (key : ScoreKey) : book.Grows (book.openScore key) := by
  have touched : book.Grows (book.touchRecord key.name) := .of_same rfl rfl fun _ => rfl
  unfold openScore
  dsimp only
  split
  · exact touched
  · rename_i untimed
    refine touched.trans (grows_armDecay _ ?_)
    simp only [live]
    cases found : (book.touchRecord key.name).faceScore? key with
    | none => rfl
    | some score => simpa [found] using untimed

theorem grows_credit (count : Stats α → Stats α) (book : ScoreBook α) (key : ScoreKey) :
    book.Grows (book.credit count key) :=
  ((grows_openScore book key).trans (grows_modifyStats _ key count)).trans (.of_same rfl rfl fun _ => rfl)

theorem grows_creditUpward (count : Stats α → Stats α) (book : ScoreBook α) (start : Name)
    (face : FaceId) : book.Grows (book.creditUpward count start face) :=
  creditUpward_keeps (fun middle key grows => Grows.trans grows (grows_credit count middle key))
    (fun middle grows => Grows.trans grows (grows_armRefresh middle)) (.refl book) start face

theorem grows_creditRequest (book : ScoreBook α) (name : Name) (face : FaceId) :
    book.Grows (book.creditRequest name face) :=
  creditRequest_keeps
    (fun middle key grows => Grows.trans grows (grows_credit Stats.countRequest middle key))
    (fun middle grows => Grows.trans grows (grows_armRefresh middle)) (.refl book) name face

theorem grows_updateLongest (book : ScoreBook α) (name : Name) (face : FaceId) :
    book.Grows (book.updateLongest name face).2 := by
  refine List.foldlRecOn _ _ (Grows.refl book) fun middle grows key _ => ?_
  exact (grows.trans (grows_modifyStats middle key _)).trans (.of_same rfl rfl fun _ => rfl)

theorem grows_refreshTouched (book : ScoreBook α) : book.Grows book.refreshTouched.2 := by
  have updated : book.Grows ((book.touched.toList.filter fun key => (book.faceScore? key).isSome).foldl
      (fun book key => book.update key) book) :=
    List.foldlRecOn _ _ (Grows.refl book) fun middle grows key _ =>
      grows.trans (grows_modifyStats middle key _)
  exact updated.trans (.of_same rfl rfl fun _ => rfl)

theorem grows_fireRefresh (book : ScoreBook α) (handle : Handle) :
    book.Grows (book.fireRefresh handle).2 := by
  unfold fireRefresh
  split
  · have unarmed : book.Grows { book with refreshTimer := none } := .of_same rfl rfl fun _ => rfl
    have refreshed := unarmed.trans (grows_refreshTouched _)
    dsimp only
    split
    · exact refreshed
    · exact refreshed.trans (grows_armRefresh _)
  · exact .refl book

end

/-- What changes only the timers of other scores leaves the decay of a score where it was. -/
theorem DecaysAt.of_changes {scope : Event → Prop} (decays : book.DecaysAt key time)
    (sound : book.roster.Sound) (changes : Roster.Changes scope book.roster after.roster)
    (outside : ¬ scope (.decay key.name key.face)) (same : after.faceScore? key = book.faceScore? key) :
    after.DecaysAt key time := by
  obtain ⟨timer, counts, armed⟩ := decays
  refine ⟨timer, ?_, (changes.armed_outside sound outside timer time).mpr armed⟩
  exact (congrArg (·.bind (·.decayTimer)) same).trans counts

/-- No time passes, the scores that stay decay when they would have, and new ones a period ahead. -/
structure Steady (book after : ScoreBook α) : Prop where
  config : after.config = book.config
  now : after.now = book.now
  kept : ∀ key time, book.DecaysAt key time → (after.faceScore? key).isSome → after.DecaysAt key time
  opened : ∀ key, book.faceScore? key = none → (after.faceScore? key).isSome → after.DecaysNext key

theorem Grows.decaysNext (grows : book.Grows after) (absent : book.faceScore? key = none)
    (present : (after.faceScore? key).isSome) : after.DecaysNext key := by
  rcases grows.opened key present with before | ⟨timer, counts, -, armed⟩
  · simp [absent] at before
  · exact ⟨timer, counts, armed⟩

theorem Grows.steady (grows : book.Grows after) (sound : book.timers.Sound) : book.Steady after where
  config := grows.config
  now := grows.now
  kept _ _ decays _ := grows.decaysAt sound decays
  opened _ := grows.decaysNext

theorem steady_forget (sound : book.roster.Sound) (name : Name) : book.Steady (book.forget name) where
  config := (postpones_forget book name).config
  now := (postpones_forget book name).now
  kept key time decays present := by
    rw [faceScore?_forget] at present
    split at present
    · cases present
    · rename_i other
      apply decays.of_changes sound (forget_changes book name)
      · rintro ⟨face, same⟩
        exact other (Event.decay.inj same).1
      · rw [faceScore?_forget, if_neg other]
  opened key absent present := by
    rw [faceScore?_forget] at present
    split at present
    · cases present
    · simp [absent] at present

theorem steady_sweep (sound : book.roster.Sound) : book.Steady book.sweep.2 := by
  have forgets := postpones_foldl_forget book.sweep.1
    { book with records := (book.records.takeExpired book.now).2 }
  have scores : ∀ key, (book.sweep.2.faceScore? key).isSome →
      key.name ∉ book.sweep.1 ∧ book.sweep.2.faceScore? key = book.faceScore? key := by
    intro key present
    have spared : key.name ∉ book.sweep.1 := by
      intro taken
      rw [faceScore?_sweep_of_taken taken] at present
      cases present
    refine ⟨spared, ?_⟩
    simp only [faceScore?, standing?_sweep, if_neg spared]
  refine ⟨forgets.config, forgets.now, fun key time decays present => ?_, fun key absent present => ?_⟩
  · obtain ⟨spared, same⟩ := scores key present
    apply decays.of_changes sound (sweep_changes book) _ same
    rintro ⟨name, taken, face, equal⟩
    exact spared ((Event.decay.inj equal).1 ▸ taken)
  · obtain ⟨-, same⟩ := scores key present
    rw [same, absent] at present
    cases present

/-- No time passes, no timer is delivered, and the book goes on. -/
def Act.IsStill : Act → Prop
  | .shutdown | .move _ | .deliver _ => False
  | _ => True

variable [Scalar α]

theorem steady_perform (sound : book.roster.Sound) {act : Act} (still : act.IsStill) :
    book.Steady (book.perform act).2 := by
  have timers := sound.timers
  cases act with
  | openScore key => exact (grows_openScore book key).steady timers
  | creditRequest name face => exact (grows_creditRequest book name face).steady timers
  | creditResponse name face => exact (grows_creditUpward _ book name face).steady timers
  | update key => exact (grows_modifyStats book key _).steady timers
  | updateLongest name face => exact (grows_updateLongest book name face).steady timers
  | decay key => exact (grows_modifyStats book key _).steady timers
  | refreshTouched => exact (grows_refreshTouched book).steady timers
  | setDestination name destination => exact (grows_setDestination book name destination).steady timers
  | forget name => exact steady_forget sound name
  | sweep => exact steady_sweep sound
  | shutdown | move | deliver => exact still.elim

end Overhear.ScoreBook
