import Mathlib.Data.Prod.Lex
import Overhear.Host.Clock

/-! The loop by which a host delivers timers, one after another while any is due. It ends when a rank falls
with every turn. -/
namespace Overhear.TimerDriven

variable {σ ρ : Type} [TimerDriven σ ρ] {limit : Nanos} {state after : σ} {delivery : Delivery ρ}

theorem fireDue_eq_some :
    fireDue limit state = some (delivery, after) ↔ ∃ firing rest,
      (timers state).popDue limit = some (firing, rest) ∧
        deliver (setTimers state rest) firing = (delivery, after) := by
  simp [fireDue, Option.bind_eq_some_iff]

theorem fireDue_eq_none_iff : fireDue limit state = none ↔ (timers state).popDue limit = none := by
  cases popped : (timers state).popDue limit <;> simp [fireDue, popped]

/-- The turns of a loop, from the state that it starts in to the one in which nothing more is due. -/
inductive Loop (limit : Nanos) : σ → List (Delivery ρ) → σ → Prop where
  | done {state : σ} (rests : fireDue limit state = none) : Loop limit state [] state
  | turn {state middle final : σ} {delivery : Delivery ρ} {deliveries : List (Delivery ρ)}
      (due : fireDue limit state = some (delivery, middle))
      (later : Loop limit middle deliveries final) :
      Loop limit state (delivery :: deliveries) final

theorem Loop.rests {final : σ} {deliveries : List (Delivery ρ)}
    (loop : Loop limit state deliveries final) : fireDue limit final = none := by
  induction loop with
  | done rests => exact rests
  | turn _ _ ih => exact ih

/-- A drain that may take as many turns as the loop has is the whole loop. -/
theorem Loop.drain {final : σ} {deliveries : List (Delivery ρ)}
    (loop : Loop limit state deliveries final) (most : Nat) (enough : deliveries.length ≤ most) :
    drain limit most state = (deliveries, final) := by
  induction loop generalizing most with
  | done rests => cases most <;> simp [TimerDriven.drain, rests]
  | turn due _ ih =>
    obtain ⟨fewer, rfl⟩ := Nat.exists_eq_add_of_le' (Nat.le_trans (Nat.le_add_left 1 _) enough)
    simp only [TimerDriven.drain, due, ih fewer (Nat.le_of_succ_le_succ enough)]

/-- A loop ends when a pair of numbers falls with every turn from states that the loop can be in. -/
theorem exists_loop {keeps : σ → Prop} (rank : σ → Nat × Nat)
    (falls : ∀ state delivery after, keeps state → fireDue limit state = some (delivery, after) →
      keeps after ∧ Prod.Lex (· < ·) (· < ·) (rank after) (rank state))
    (kept : keeps state) : ∃ deliveries final, Loop limit state deliveries final ∧ keeps final := by
  induction state using (InvImage.wf rank (Nat.lt_wfRel.wf.prod_lex Nat.lt_wfRel.wf)).induction with
  | _ state ih =>
    cases due : fireDue limit state with
    | none => exact ⟨[], state, .done due, kept⟩
    | some result =>
      obtain ⟨delivery, middle⟩ := result
      obtain ⟨keptMiddle, below⟩ := falls state delivery middle kept due
      obtain ⟨deliveries, final, loop, keptFinal⟩ := ih middle below keptMiddle
      exact ⟨delivery :: deliveries, final, .turn due loop, keptFinal⟩

end Overhear.TimerDriven
