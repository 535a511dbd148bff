import Mathlib.Data.List.Nodup
import Overhear.Proofs.Roster

/-! Where every timer that counts is: still armed, or popped by the host and on its way. The host may
deliver what it popped in any order, late or repeatedly. -/
namespace Overhear.Roster

variable {scope : Event → Prop} {roster after : Roster} {popped delivered : List (Firing Event)}

/-- What the host popped so far is no longer armed, and what counts is armed or not yet delivered. -/
structure Balance (roster : Roster) (popped delivered : List (Firing Event)) : Prop where
  sound : roster.Sound
  spent : ∀ firing ∈ popped, firing.handle.number < roster.timers.next.number ∧
    roster.timers.armed? firing.handle = none
  once : ∀ first ∈ popped, ∀ second ∈ popped, first.handle = second.handle → first = second
  known : ∀ firing ∈ delivered, firing ∈ popped
  accounted : ∀ event handle, roster.live event = some handle →
    (∃ deadline, roster.timers.armed? handle = some (deadline, event)) ∨
      ((⟨handle, event⟩ : Firing Event) ∈ popped ∧ (⟨handle, event⟩ : Firing Event) ∉ delivered)

/-- A service of which no timer counts owes nothing. -/
theorem Balance.start (sound : roster.timers.Sound) (idle : ∀ event, roster.live event = none) :
    roster.Balance [] [] where
  sound := {
    timers := sound
    handedOut := by simp [idle]
    exclusive := by simp [idle]
    matching := by simp [idle] }
  spent := by simp
  once := by simp
  known := by simp
  accounted := by simp [idle]

theorem Balance.changes (balance : roster.Balance popped delivered)
    (changes : Changes scope roster after) : after.Balance popped delivered where
  sound := balance.sound.changes changes
  spent firing member := by
    obtain ⟨below, disarmed⟩ := balance.spent firing member
    refine ⟨Nat.lt_of_lt_of_le below changes.next_le, ?_⟩
    apply Option.eq_none_iff_forall_ne_some.mpr
    intro entry armed
    rcases changes.armed_cases armed with before | above
    · simp [disarmed] at before
    · exact Nat.not_lt_of_le above below
  once := balance.once
  known := balance.known
  accounted event handle counts := by
    rcases changes.armed_of_live balance.sound counts with ⟨before, same⟩ | armed
    · rw [same]
      exact balance.accounted event handle before
    · exact .inl armed

/-- Popping moves timers from armed to on their way. -/
theorem Balance.fired (balance : roster.Balance popped delivered) {firings : List (Firing Event)}
    (fired : roster.timers.Fired firings after.timers)
    (live : ∀ event, after.live event = roster.live event) :
    after.Balance (firings ++ popped) delivered where
  sound := balance.sound.fired fired live
  spent firing member := by
    rw [fired.next, fired.remaining]
    rcases List.mem_append.mp member with new | old
    · obtain ⟨deadline, armed⟩ := fired.armed firing new
      exact ⟨balance.sound.timers.handedOut_of_armed armed,
        if_pos (List.mem_map.mpr ⟨firing, new, rfl⟩)⟩
    · obtain ⟨below, disarmed⟩ := balance.spent firing old
      exact ⟨below, by simp [disarmed]⟩
  once := by
    -- An old firing and a new one differ: the handle of the new one was still armed.
    have apart : ∀ old ∈ popped, ∀ new ∈ firings, old.handle ≠ new.handle := by
      intro old oldMember new newMember same
      obtain ⟨deadline, armed⟩ := fired.armed new newMember
      simp [← same, (balance.spent old oldMember).2] at armed
    intro first firstMember second secondMember same
    rcases List.mem_append.mp firstMember with new | old <;>
      rcases List.mem_append.mp secondMember with new' | old'
    · exact List.inj_on_of_nodup_map fired.distinct new new' same
    · exact False.elim (apart second old' first new same.symm)
    · exact False.elim (apart first old second new' same)
    · exact balance.once first old second old' same
  known firing member := List.mem_append_right _ (balance.known firing member)
  accounted event handle counts := by
    rw [live] at counts
    rcases balance.accounted event handle counts with ⟨deadline, armed⟩ | ⟨left, waiting⟩
    · by_cases taken : handle ∈ firings.map Firing.handle
      · obtain ⟨firing, member, rfl⟩ := List.mem_map.mp taken
        obtain ⟨due, armedFiring⟩ := fired.armed firing member
        have sameEvent : firing.event = event :=
          balance.sound.matching event _ due firing.event counts armedFiring
        refine .inr ⟨List.mem_append_left _ (sameEvent ▸ member), ?_⟩
        intro done
        simp [(balance.spent _ (balance.known _ done)).2] at armed
      · refine .inl ⟨deadline, ?_⟩
        rw [fired.remaining, if_neg taken, armed]
    · exact .inr ⟨List.mem_append_right _ left, waiting⟩

/-- Delivering a firing that does not count changes what is on its way for no event that counts. -/
theorem Balance.ignored (balance : roster.Balance popped delivered) {firing : Firing Event}
    (member : firing ∈ popped) (stale : roster.live firing.event ≠ some firing.handle) :
    roster.Balance popped (firing :: delivered) where
  sound := balance.sound
  spent := balance.spent
  once := balance.once
  known other delivery := by
    rcases List.mem_cons.mp delivery with now | before
    · exact now ▸ member
    · exact balance.known other before
  accounted event handle counts := by
    rcases balance.accounted event handle counts with armed | ⟨left, waiting⟩
    · exact .inl armed
    · refine .inr ⟨left, ?_⟩
      simp only [List.mem_cons, not_or]
      refine ⟨?_, waiting⟩
      intro same
      subst same
      exact stale counts

/-- Delivering a firing that counts ends its event. -/
theorem Balance.consumed (balance : roster.Balance popped delivered) {firing : Firing Event}
    (member : firing ∈ popped) (live : roster.live firing.event = some firing.handle)
    (timers : after.timers = roster.timers)
    (ended : ∀ event, after.live event =
      if event = firing.event then none else roster.live event) :
    after.Balance popped (firing :: delivered) := by
  have still : ∀ event handle, after.live event = some handle →
      event ≠ firing.event ∧ roster.live event = some handle := by
    intro event handle counts
    rw [ended] at counts
    split at counts
    · cases counts
    · exact ⟨‹_›, counts⟩
  constructor
  · exact balance.sound.ended timers ended
  · rw [timers]
    exact balance.spent
  · exact balance.once
  · intro other delivery
    rcases List.mem_cons.mp delivery with now | before
    · exact now ▸ member
    · exact balance.known other before
  · intro event handle counts
    obtain ⟨different, counts⟩ := still event handle counts
    rw [timers]
    rcases balance.accounted event handle counts with armed | ⟨left, waiting⟩
    · exact .inl armed
    · refine .inr ⟨left, ?_⟩
      simp only [List.mem_cons, not_or]
      refine ⟨?_, waiting⟩
      intro same
      subst same
      exact different rfl

/-- The balance follows every act of a host that delivers only what it popped. -/
theorem Balance.effect (balance : roster.Balance popped delivered)
    {firings deliveries : List (Firing Event)}
    (effect : roster.Effect firings deliveries after) (honest : ∀ firing ∈ deliveries, firing ∈ popped) :
    after.Balance (firings ++ popped) (deliveries ++ delivered) := by
  cases effect with
  | changed changes => exact balance.changes changes
  | fired fired live => exact balance.fired fired live
  | @ignored firing stale => exact balance.ignored (honest firing (.head _)) stale
  | @consumed ended _ firing _ counts timers live changes =>
    exact (balance.consumed (honest firing (.head _)) counts timers live).changes changes

theorem ExactFor.fired {kind : Event → Prop} (exact : roster.ExactFor kind)
    {firings : List (Firing Event)} (fired : roster.timers.Fired firings after.timers)
    (live : ∀ event, after.live event = roster.live event) : after.ExactFor kind := by
  intro handle deadline event ofKind armed
  rw [fired.remaining] at armed
  split at armed
  · cases armed
  · rw [live]
    exact exact handle deadline event ofKind armed

/-- An event may end once its timer is not armed any more. -/
theorem ExactFor.ended {kind : Event → Prop} (exact : roster.ExactFor kind) {firing : Firing Event}
    (disarmed : roster.timers.armed? firing.handle = none)
    (counted : roster.live firing.event = some firing.handle) (timers : after.timers = roster.timers)
    (ended : ∀ event, after.live event =
      if event = firing.event then none else roster.live event) : after.ExactFor kind := by
  intro handle deadline event ofKind armed
  rw [timers] at armed
  have counts := exact handle deadline event ofKind armed
  rw [ended, if_neg, counts]
  intro same
  subst same
  rw [counted] at counts
  cases counts
  simp [disarmed] at armed

theorem ExactFor.effect {kind : Event → Prop} (exact : roster.ExactFor kind)
    (balance : roster.Balance popped delivered) {firings deliveries : List (Firing Event)}
    (effect : roster.Effect firings deliveries after) (honest : ∀ firing ∈ deliveries, firing ∈ popped) :
    after.ExactFor kind := by
  cases effect with
  | changed changes => exact exact.changes changes
  | fired fired live => exact exact.fired fired live
  | ignored => exact exact
  | @consumed ended _ firing _ counts timers live changes =>
    have disarmed := (balance.spent firing (honest firing (.head _))).2
    exact (exact.ended disarmed counts timers live).changes changes

/-- A balance in which every armed timer counts. -/
structure Ledger (roster : Roster) (popped delivered : List (Firing Event)) : Prop
    extends Balance roster popped delivered where
  exact : roster.Exact

/-- A service that never armed a timer owes nothing. -/
theorem Ledger.start (timers : roster.timers = {}) (idle : ∀ event, roster.live event = none) :
    roster.Ledger [] [] where
  toBalance := .start (timers ▸ .empty) idle
  exact := by
    intro handle deadline event armed
    simp [timers, Timers.armed?] at armed

/-- The accounts follow every act of a host that delivers only what it popped. -/
theorem Ledger.effect (ledger : roster.Ledger popped delivered)
    {firings deliveries : List (Firing Event)}
    (effect : roster.Effect firings deliveries after) (honest : ∀ firing ∈ deliveries, firing ∈ popped) :
    after.Ledger (firings ++ popped) (deliveries ++ delivered) where
  toBalance := ledger.toBalance.effect effect honest
  exact := by
    have exact : roster.ExactFor fun _ => True :=
      fun handle deadline event _ armed => ledger.exact handle deadline event armed
    have kept := exact.effect ledger.toBalance effect honest
    exact fun handle deadline event armed => kept handle deadline event trivial armed

end Overhear.Roster
