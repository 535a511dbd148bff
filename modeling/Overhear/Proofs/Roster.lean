import Overhear.Proofs.Timers
import Overhear.Score.Book

/-! The timers of a service, together with the one handle that counts for each event. An engine and its
scores only ever arm a timer for an event that has none, and disarm all that counts for some events;
what these changes keep is proved here once. -/
namespace Overhear

/-- A handle is live for an event if a firing with it is not ignored. -/
structure Roster where
  timers : Timers Event
  live : Event → Option Handle

namespace Roster

variable {scope wider : Event → Prop} {roster middle after : Roster}

/-- Handles that count were handed out, each for one event. -/
structure Sound (roster : Roster) : Prop where
  timers : roster.timers.Sound
  handedOut : ∀ event handle, roster.live event = some handle →
    handle.number < roster.timers.next.number
  exclusive : ∀ first second handle, roster.live first = some handle →
    roster.live second = some handle → first = second
  matching : ∀ event handle deadline other, roster.live event = some handle →
    roster.timers.armed? handle = some (deadline, other) → other = event

/-- Every timer that is armed for an event of a kind counts for it. -/
def ExactFor (kind : Event → Prop) (roster : Roster) : Prop :=
  ∀ handle deadline event, kind event → roster.timers.armed? handle = some (deadline, event) →
    roster.live event = some handle

/-- Every armed timer counts for its event. -/
def Exact (roster : Roster) : Prop :=
  ∀ handle deadline event, roster.timers.armed? handle = some (deadline, event) →
    roster.live event = some handle

/-- Changes to the timers of the events in a scope: a timer is armed for an event that has none, or all
timers that count for some events are disarmed. -/
inductive Changes (scope : Event → Prop) (roster : Roster) : Roster → Prop where
  | refl : Changes scope roster roster
  | engage {middle after : Roster} (event : Event) (delay : Nanos)
      (before : Changes scope roster middle) (inScope : scope event)
      (idle : middle.live event = none)
      (timers : after.timers = (middle.timers.arm delay event).2)
      (live : ∀ other, after.live other =
        if other = event then some middle.timers.next else middle.live other) :
      Changes scope roster after
  | release {middle after : Roster} (closing : Event → Prop) (handles : List Handle)
      (before : Changes scope roster middle) (inScope : ∀ event, closing event → scope event)
      (complete : ∀ handle, handle ∈ handles ↔
        ∃ event, closing event ∧ middle.live event = some handle)
      (timers : after.timers = middle.timers.cancelAll handles)
      (gone : ∀ event, closing event → after.live event = none)
      (kept : ∀ event, ¬ closing event → after.live event = middle.live event) :
      Changes scope roster after

theorem Changes.trans (first : Changes scope roster middle) (second : Changes scope middle after) :
    Changes scope roster after := by
  induction second with
  | refl => exact first
  | engage _ _ _ inScope idle timers live ih => exact .engage _ _ ih inScope idle timers live
  | release closing handles _ inScope complete timers gone kept ih =>
    exact .release closing handles ih inScope complete timers gone kept

theorem Changes.widen (changes : Changes scope roster after)
    (included : ∀ event, scope event → wider event) : Changes wider roster after := by
  induction changes with
  | refl => exact .refl
  | engage _ _ _ inScope idle timers live ih =>
    exact .engage _ _ ih (included _ inScope) idle timers live
  | release closing handles _ inScope complete timers gone kept ih =>
    exact .release closing handles ih (fun event ended => included event (inScope event ended))
      complete timers gone kept

/-- Rosters that agree on timers and on what counts are the same to `Changes`. -/
theorem Changes.of_eq (timers : after.timers = roster.timers)
    (live : ∀ event, after.live event = roster.live event) : Changes scope roster after := by
  have same : after = roster := by
    cases after
    cases roster
    simp only [Roster.mk.injEq]
    exact ⟨timers, funext live⟩
  exact same ▸ .refl

theorem Changes.next_le (changes : Changes scope roster after) :
    roster.timers.next.number ≤ after.timers.next.number := by
  induction changes with
  | refl => exact Nat.le_refl _
  | engage _ _ _ _ _ timers _ ih =>
    rw [timers]
    exact Nat.le_succ_of_le ih
  | release _ _ _ _ _ timers _ _ ih =>
    rw [timers, Timers.next_cancelAll]
    exact ih

theorem Sound.changes (sound : roster.Sound) (changes : Changes scope roster after) :
    after.Sound := by
  induction changes with
  | refl => exact sound
  | @engage middle after event delay _ _ _ timers live ih =>
    have fresh : ∀ event handle, middle.live event = some handle →
        handle ≠ middle.timers.next := by
      rintro event handle counts rfl
      exact Nat.lt_irrefl _ (ih.handedOut event _ counts)
    refine ⟨timers ▸ ih.timers.arm delay event, ?_, ?_, ?_⟩
    · intro other handle counts
      rw [live] at counts
      rw [timers, Timers.next_arm]
      split at counts
      · cases counts
        exact Nat.lt_succ_self _
      · exact Nat.lt_succ_of_lt (ih.handedOut other handle counts)
    · intro first second handle counts same
      rw [live] at counts same
      split at counts <;> split at same
      · simp_all
      · cases counts
        exact False.elim (fresh _ _ same rfl)
      · cases same
        exact False.elim (fresh _ _ counts rfl)
      · exact ih.exclusive first second handle counts same
    · intro other handle deadline armedFor counts armed
      rw [live] at counts
      rw [timers, Timers.armed?_arm] at armed
      split at counts
      · cases counts
        simp_all
      · rw [if_neg (fresh _ _ counts)] at armed
        exact ih.matching other handle deadline armedFor counts armed
  | @release middle after closing handles _ _ _ timers gone kept ih =>
    have still : ∀ event handle, after.live event = some handle →
        middle.live event = some handle := by
      intro event handle counts
      by_cases ended : closing event
      · simp [gone event ended] at counts
      · rwa [kept event ended] at counts
    refine ⟨timers ▸ ih.timers.cancelAll handles, ?_, ?_, ?_⟩
    · intro event handle counts
      rw [timers, Timers.next_cancelAll]
      exact ih.handedOut event handle (still event handle counts)
    · intro first second handle counts same
      exact ih.exclusive first second handle (still _ _ counts) (still _ _ same)
    · intro event handle deadline other counts armed
      rw [timers, Timers.armed?_cancelAll] at armed
      split at armed
      · cases armed
      · exact ih.matching event handle deadline other (still _ _ counts) armed

theorem ExactFor.changes {kind : Event → Prop} (exact : roster.ExactFor kind)
    (changes : Changes scope roster after) : after.ExactFor kind := by
  induction changes with
  | refl => exact exact
  | @engage middle after event delay _ _ idle timers live ih =>
    intro handle deadline other ofKind armed
    rw [timers, Timers.armed?_arm] at armed
    rw [live]
    split at armed
    · rename_i same
      cases armed
      rw [if_pos rfl, same]
    · have counts := ih handle deadline other ofKind armed
      have different : other ≠ event := by
        intro same
        subst same
        simp [idle] at counts
      rwa [if_neg different]
  | @release middle after closing handles _ _ complete timers _ kept ih =>
    intro handle deadline event ofKind armed
    rw [timers, Timers.armed?_cancelAll] at armed
    split at armed
    · cases armed
    · rename_i spared
      have counts := ih handle deadline event ofKind armed
      have outside : ¬ closing event := fun ended =>
        spared ((complete handle).mpr ⟨event, ended, counts⟩)
      rwa [kept event outside]

/-- Changes leave a sound service sound, whatever counts. -/
theorem Changes.sound_timers (changes : Changes scope roster after) (sound : roster.timers.Sound) :
    after.timers.Sound := by
  induction changes with
  | refl => exact sound
  | engage event delay _ _ _ timers _ ih => exact timers ▸ ih.arm delay event
  | release _ handles _ _ _ timers _ _ ih => exact timers ▸ ih.cancelAll handles

/-- What counts after the changes counted before, or was handed out meanwhile. -/
theorem Changes.live_cases (changes : Changes scope roster after) {event : Event} {handle : Handle}
    (counts : after.live event = some handle) :
    roster.live event = some handle ∨ roster.timers.next.number ≤ handle.number := by
  induction changes with
  | refl => exact .inl counts
  | engage _ _ before _ _ _ live ih =>
    rw [live] at counts
    split at counts
    · cases counts
      exact .inr before.next_le
    · exact ih counts
  | release closing _ _ _ _ _ gone kept ih =>
    by_cases ended : closing event
    · simp [gone event ended] at counts
    · rw [kept event ended] at counts
      exact ih counts

/-- What is armed after the changes was armed before, or was handed out meanwhile. -/
theorem Changes.armed_cases (changes : Changes scope roster after) {handle : Handle}
    {entry : Nanos × Event} (armed : after.timers.armed? handle = some entry) :
    roster.timers.armed? handle = some entry ∨ roster.timers.next.number ≤ handle.number := by
  induction changes with
  | refl => exact .inl armed
  | engage _ _ before _ _ timers _ ih =>
    rw [timers, Timers.armed?_arm] at armed
    split at armed
    · rename_i same
      exact .inr (same ▸ before.next_le)
    · exact ih armed
  | release _ _ _ _ _ timers _ _ ih =>
    rw [timers, Timers.armed?_cancelAll] at armed
    split at armed
    · cases armed
    · exact ih armed

/-- A handle that counts for the same event before and after was left alone, and a new one is armed. -/
theorem Changes.armed_of_live (changes : Changes scope roster after) (sound : roster.Sound)
    {event : Event} {handle : Handle} (counts : after.live event = some handle) :
    (roster.live event = some handle ∧
        after.timers.armed? handle = roster.timers.armed? handle) ∨
      ∃ deadline, after.timers.armed? handle = some (deadline, event) := by
  induction changes with
  | refl => exact .inl ⟨counts, rfl⟩
  | @engage middle after armedFor delay before _ _ timers live ih =>
    rw [live] at counts
    rw [timers, Timers.armed?_arm]
    split at counts
    · rename_i same
      cases counts
      exact .inr ⟨_, by rw [if_pos rfl, same]⟩
    · have different : handle ≠ middle.timers.next := by
        intro same
        subst same
        exact Nat.lt_irrefl _ ((sound.changes before).handedOut event _ counts)
      rw [if_neg different]
      exact ih counts
  | @release middle after closing handles before _ complete timers gone kept ih =>
    by_cases ended : closing event
    · simp [gone event ended] at counts
    · rw [kept event ended] at counts
      have spared : handle ∉ handles := by
        intro member
        obtain ⟨other, overOther, same⟩ := (complete handle).mp member
        have alike := (sound.changes before).exclusive other event handle same counts
        exact ended (alike ▸ overOther)
      rw [timers, Timers.armed?_cancelAll, if_neg spared]
      exact ih counts

/-- Changes to a roster are changes to a larger one that agrees with it in their scope. -/
theorem Changes.graft {inner innerAfter outer outerAfter : Roster}
    (changes : Changes scope inner innerAfter) (timers : outer.timers = inner.timers)
    (inside : ∀ event, scope event → outer.live event = inner.live event)
    (timersAfter : outerAfter.timers = innerAfter.timers)
    (insideAfter : ∀ event, scope event → outerAfter.live event = innerAfter.live event)
    (outside : ∀ event, ¬ scope event → outerAfter.live event = outer.live event) :
    Changes scope outer outerAfter := by
  classical
  induction changes generalizing outerAfter with
  | refl =>
    refine .of_eq (timersAfter.trans timers.symm) ?_
    intro event
    by_cases inScope : scope event
    · rw [insideAfter event inScope, inside event inScope]
    · exact outside event inScope
  | @engage middle after event delay _ inScope idle armed live ih =>
    -- The larger roster at the middle: changed in the scope, as it was outside.
    let joined : Roster :=
      ⟨middle.timers, fun event => if scope event then middle.live event else outer.live event⟩
    have before : Changes scope outer joined :=
      ih rfl (fun event inScope => if_pos inScope) fun event outScope => if_neg outScope
    refine .engage event delay before inScope ((if_pos inScope).trans idle) (timersAfter.trans armed) ?_
    intro other
    by_cases otherInScope : scope other
    · rw [insideAfter other otherInScope, live]
      simp [joined, otherInScope]
    · have different : other ≠ event := by
        intro same
        subst same
        exact otherInScope inScope
      rw [outside other otherInScope]
      simp [joined, otherInScope, different]
  | @release middle after closing handles _ inScope complete disarmed gone kept ih =>
    let joined : Roster :=
      ⟨middle.timers, fun event => if scope event then middle.live event else outer.live event⟩
    have before : Changes scope outer joined :=
      ih rfl (fun event inScope => if_pos inScope) fun event outScope => if_neg outScope
    refine .release closing handles before inScope ?_ (timersAfter.trans disarmed) ?_ ?_
    · intro handle
      rw [complete]
      constructor <;>
      · rintro ⟨event, ended, counts⟩
        exact ⟨event, ended, by simpa [joined, inScope event ended] using counts⟩
    · intro event ended
      rw [insideAfter event (inScope event ended), gone event ended]
    · intro event spared
      by_cases eventInScope : scope event
      · rw [insideAfter event eventInScope, kept event spared]
        simp [joined, eventInScope]
      · rw [outside event eventInScope]
        simp [joined, eventInScope]

/-- A timer for an event outside the scope stays armed as it was, and none comes up. -/
theorem Changes.armed_outside (changes : Changes scope roster after) (sound : roster.Sound)
    {event : Event} (outside : ¬ scope event) (handle : Handle) (deadline : Nanos) :
    after.timers.armed? handle = some (deadline, event) ↔
      roster.timers.armed? handle = some (deadline, event) := by
  induction changes with
  | refl => rfl
  | @engage middle after armedFor delay before inScope _ timers _ ih =>
    rw [← ih, timers, Timers.armed?_arm]
    split
    · rename_i new
      constructor
      · rintro ⟨⟩
        exact absurd inScope outside
      · -- The new handle was not armed before.
        intro armed
        have below := (sound.changes before).timers.handedOut_of_armed armed
        exact absurd (new ▸ below) (Nat.lt_irrefl _)
    · rfl
  | @release middle after closing handles before inScope complete timers _ _ ih =>
    rw [← ih, timers, Timers.armed?_cancelAll]
    split
    · rename_i disarmed
      simp only [reduceCtorEq, false_iff]
      intro armed
      obtain ⟨ending, ended, counts⟩ := (complete handle).mp disarmed
      obtain rfl := (sound.changes before).matching ending handle deadline event counts armed
      exact outside (inScope event ended)
    · rfl

/-- Firing timers takes no handle away from an event. -/
theorem Sound.fired (sound : roster.Sound) {firings : List (Firing Event)}
    (fired : roster.timers.Fired firings after.timers)
    (live : ∀ event, after.live event = roster.live event) : after.Sound where
  timers := fired.sound
  handedOut event handle counts := by
    rw [fired.next]
    exact sound.handedOut event handle (live event ▸ counts)
  exclusive first second handle counts same := by
    rw [live] at counts same
    exact sound.exclusive first second handle counts same
  matching event handle deadline other counts armed := by
    rw [fired.remaining] at armed
    split at armed
    · cases armed
    · exact sound.matching event handle deadline other (live event ▸ counts) armed

/-- A timer that is armed on behalf of nobody takes no handle away. -/
theorem Sound.armed (sound : roster.Sound) {delay : Nanos} {event : Event}
    (timers : after.timers = (roster.timers.arm delay event).2)
    (live : ∀ other, after.live other = roster.live other) : after.Sound where
  timers := timers ▸ sound.timers.arm delay event
  handedOut other handle counts := by
    rw [timers]
    exact Nat.lt_succ_of_lt (sound.handedOut other handle (live other ▸ counts))
  exclusive first second handle counts same := by
    rw [live] at counts same
    exact sound.exclusive first second handle counts same
  matching other handle deadline armedFor counts armed := by
    rw [live] at counts
    rw [timers, Timers.armed?_arm_of_lt (sound.handedOut other handle counts)] at armed
    exact sound.matching other handle deadline armedFor counts armed

/-- An event may end while its timer is left as it is. -/
theorem Sound.ended (sound : roster.Sound) {event : Event} (timers : after.timers = roster.timers)
    (ended : ∀ other, after.live other = if other = event then none else roster.live other) :
    after.Sound := by
  have still : ∀ other handle, after.live other = some handle → roster.live other = some handle := by
    intro other handle counts
    rw [ended] at counts
    split at counts
    · cases counts
    · exact counts
  constructor
  · exact timers ▸ sound.timers
  · intro other handle counts
    rw [timers]
    exact sound.handedOut other handle (still other handle counts)
  · intro first second handle counts same
    exact sound.exclusive first second handle (still _ _ counts) (still _ _ same)
  · intro other handle deadline armedFor counts armed
    rw [timers] at armed
    exact sound.matching other handle deadline armedFor (still _ _ counts) armed

/-- What counts later counted before or has a handle that was handed out since. -/
structure Follows (after roster : Roster) : Prop where
  sound : after.Sound
  next_le : roster.timers.next.number ≤ after.timers.next.number
  live_cases : ∀ event handle, after.live event = some handle →
    roster.live event = some handle ∨ roster.timers.next.number ≤ handle.number

theorem Follows.refl (sound : roster.Sound) : roster.Follows roster :=
  ⟨sound, Nat.le_refl _, fun _ _ counts => .inl counts⟩

theorem Follows.trans (second : after.Follows middle) (first : middle.Follows roster) :
    after.Follows roster where
  sound := second.sound
  next_le := Nat.le_trans first.next_le second.next_le
  live_cases event handle counts := by
    rcases second.live_cases event handle counts with before | new
    · exact first.live_cases event handle before
    · exact .inr (Nat.le_trans first.next_le new)

theorem Changes.follows (changes : Changes scope roster after) (sound : roster.Sound) :
    after.Follows roster :=
  ⟨sound.changes changes, changes.next_le, fun _ _ counts => changes.live_cases counts⟩

theorem Sound.follows_fired (sound : roster.Sound) {firings : List (Firing Event)}
    (fired : roster.timers.Fired firings after.timers)
    (live : ∀ event, after.live event = roster.live event) : after.Follows roster where
  sound := sound.fired fired live
  next_le := Nat.le_of_eq (congrArg Handle.number fired.next.symm)
  live_cases event _ counts := .inl (live event ▸ counts)

theorem Sound.follows_ended (sound : roster.Sound) {event : Event}
    (timers : after.timers = roster.timers)
    (ended : ∀ other, after.live other = if other = event then none else roster.live other) :
    after.Follows roster where
  sound := sound.ended timers ended
  next_le := Nat.le_of_eq (congrArg (·.next.number) timers.symm)
  live_cases other handle counts := by
    rw [ended] at counts
    split at counts
    · cases counts
    · exact .inl counts

/-- What one act of a host does to a roster, by the firings that it takes out and those it delivers. A
delivery that counts ends its event, and more may follow from that. -/
inductive Effect (roster : Roster) : List (Firing Event) → List (Firing Event) → Roster → Prop where
  | changed {after : Roster} {scope : Event → Prop} (changes : Changes scope roster after) :
      Effect roster [] [] after
  | fired {after : Roster} {firings : List (Firing Event)}
      (fired : roster.timers.Fired firings after.timers)
      (live : ∀ event, after.live event = roster.live event) : Effect roster firings [] after
  | ignored {firing : Firing Event} (stale : roster.live firing.event ≠ some firing.handle) :
      Effect roster [] [firing] roster
  | consumed {ended after : Roster} {firing : Firing Event} {scope : Event → Prop}
      (counts : roster.live firing.event = some firing.handle)
      (timers : ended.timers = roster.timers)
      (live : ∀ event, ended.live event = if event = firing.event then none else roster.live event)
      (changes : Changes scope ended after) : Effect roster [] [firing] after

theorem Effect.sound_timers {firings deliveries : List (Firing Event)}
    (effect : roster.Effect firings deliveries after) (sound : roster.timers.Sound) :
    after.timers.Sound := by
  cases effect with
  | changed changes => exact changes.sound_timers sound
  | fired fired => exact fired.sound
  | ignored => exact sound
  | consumed _ timers _ changes => exact changes.sound_timers (timers ▸ sound)

theorem Effect.armed_cases {firings deliveries : List (Firing Event)}
    (effect : roster.Effect firings deliveries after) {handle : Handle} {entry : Nanos × Event}
    (armed : after.timers.armed? handle = some entry) :
    roster.timers.armed? handle = some entry ∨ roster.timers.next.number ≤ handle.number := by
  cases effect with
  | changed changes => exact changes.armed_cases armed
  | fired fired =>
    rw [fired.remaining] at armed
    split at armed
    · cases armed
    · exact .inl armed
  | ignored => exact .inl armed
  | consumed _ timers _ changes => exact timers ▸ changes.armed_cases armed

theorem Effect.follows {firings deliveries : List (Firing Event)}
    (effect : roster.Effect firings deliveries after) (sound : roster.Sound) :
    after.Follows roster := by
  cases effect with
  | changed changes => exact changes.follows sound
  | fired fired live => exact sound.follows_fired fired live
  | ignored => exact .refl sound
  | consumed counts timers live changes =>
    have first := sound.follows_ended timers live
    exact (changes.follows first.sound).trans first

end Roster

end Overhear
