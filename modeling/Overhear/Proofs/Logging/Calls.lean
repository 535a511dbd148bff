import Overhear.Logging.Identity

/-! What is done on a thread with the guards of its scope, by their numbers, and what each call leaves of the
guards: a new one gets the next number, and one that left stays gone. -/
namespace Overhear.Logging

/-- One thing that is done with the guards of a thread. -/
inductive Call where
  | enter (node : String) (instanceId : InstanceId)
  | nameStrategy (guard : Nat) (strategy : String)
  | leave (guard : Nat)
deriving DecidableEq, Repr

theorem getElem?_concat {β : Type} (items : List β) (last : β) (number : Nat) :
    (items ++ [last])[number]? = if number = items.length then some last else items[number]? := by
  rcases Nat.lt_trichotomy number items.length with below | rfl | above
  · rw [List.getElem?_append_left below, if_neg (Nat.ne_of_lt below)]
  · rw [List.getElem?_concat_length, if_pos rfl]
  · have beyond : (items ++ [last]).length ≤ number := by
      rw [List.length_append]
      exact above
    rw [List.getElem?_eq_none beyond, if_neg (Nat.ne_of_gt above), List.getElem?_eq_none (Nat.le_of_lt above)]

namespace Scope

def call (scope : Scope) : Call → Scope
  | .enter node instanceId => scope.enter node instanceId
  | .nameStrategy guard strategy => scope.nameStrategyBy guard strategy
  | .leave guard => scope.leave guard

def after (scope : Scope) (calls : List Call) : Scope := calls.foldl Scope.call scope

/-- The guard was handed out and left. -/
def HasLeft (scope : Scope) (number : Nat) : Prop := scope.guards[number]? = some none

instance (scope : Scope) (number : Nat) : Decidable (scope.HasLeft number) := decEq scope.guards[number]? _

variable {scope : Scope} {guard : Guard} {number : Nat}

theorem guard?_eq_some_iff : scope.guard? number = some guard ↔ scope.guards[number]? = some (some guard) :=
  Option.join_eq_some_iff

theorem lt_of_guard?_eq_some (live : scope.guard? number = some guard) : number < scope.guards.length :=
  (List.getElem?_eq_some_iff.mp (guard?_eq_some_iff.mp live)).1

/-- The next number is that of the new guard, which saves the identity that was set. -/
theorem guard?_enter (scope : Scope) (node : String) (instanceId : InstanceId) (number : Nat) :
    (scope.enter node instanceId).guard? number =
      if number = scope.guards.length then some ⟨scope.current⟩ else scope.guard? number := by
  rw [guard?, enter, getElem?_concat]
  split <;> rfl

@[simp] theorem length_guards_enter (scope : Scope) (node : String) (instanceId : InstanceId) :
    (scope.enter node instanceId).guards.length = scope.guards.length + 1 := List.length_append

@[simp] theorem guards_nameStrategyBy (scope : Scope) (number : Nat) (strategy : String) :
    (scope.nameStrategyBy number strategy).guards = scope.guards := by
  unfold nameStrategyBy
  split <;> rfl

@[simp] theorem guard?_nameStrategyBy (scope : Scope) (number : Nat) (strategy : String) (other : Nat) :
    (scope.nameStrategyBy number strategy).guard? other = scope.guard? other := by
  rw [guard?, guards_nameStrategyBy]
  rfl

theorem current_nameStrategyBy (live : scope.guard? number = some guard) (strategy : String) :
    (scope.nameStrategyBy number strategy).current =
      scope.current.map ({ · with strategy := some strategy }) := by
  rw [nameStrategyBy, live, Option.isSome_some, if_pos rfl]
  rfl

theorem leave_of_gone (gone : scope.guard? number = none) : scope.leave number = scope := by
  simp only [leave, gone]

theorem leave_of_live (live : scope.guard? number = some guard) :
    scope.leave number = { current := guard.previous, guards := scope.guards.set number none } := by
  simp only [leave, live]

@[simp] theorem length_guards_leave (scope : Scope) (number : Nat) :
    (scope.leave number).guards.length = scope.guards.length := by
  unfold leave
  split
  · rfl
  · exact List.length_set

theorem guard?_leave (scope : Scope) (number other : Nat) :
    (scope.leave number).guard? other = if other = number then none else scope.guard? other := by
  cases live : scope.guard? number with
  | none =>
    rw [leave_of_gone live]
    split
    · rename_i same
      rw [same, live]
    · rfl
  | some guard =>
    rw [leave_of_live live, guard?, List.getElem?_set]
    split
    · rename_i same
      rw [if_pos same.symm, if_pos (lt_of_guard?_eq_some live)]
      rfl
    · rename_i different
      rw [if_neg (Ne.symm different)]
      rfl

/-- A guard has left when it left before or leaves now. -/
theorem hasLeft_leave (live : scope.guard? number = some guard) (other : Nat) :
    (scope.leave number).HasLeft other ↔ other = number ∨ scope.HasLeft other := by
  rw [leave_of_live live, HasLeft, List.getElem?_set]
  by_cases same : other = number
  · rw [if_pos same.symm, if_pos (lt_of_guard?_eq_some live)]
    exact iff_of_true rfl (.inl same)
  · rw [if_neg (Ne.symm same), HasLeft, or_iff_right same]

end Scope

end Overhear.Logging
