import Overhear.Proofs.Logging.Nesting

/-! Guards that leave in any order. Each restores what it saved, also when the guard that this is of has left. So
the identity of a guard that left comes back when a guard leaves that was entered within it and outlived it,
and only then. Nested guards never do that. -/
namespace Overhear.Logging

/-- The node and the instance that an identity is of. -/
def Identity.label (identity : Identity) : String × InstanceId := (identity.node, identity.instanceId)

/-- A scope with what it does not store: the guard whose identity is set, and for each guard the one that it
was entered within and the node that it was entered for. -/
structure Trail extends Scope where
  holder : Option Nat := none
  around : List (Option Nat) := []
  entered : List (String × InstanceId) := []

namespace Trail

/-- The guard that another one was entered within, if any. -/
def around? (trail : Trail) (number : Nat) : Option Nat := (trail.around[number]?).join

def call (trail : Trail) (call : Call) : Trail :=
  let scope := trail.toScope.call call
  match call with
  | .enter node instanceId =>
      { toScope := scope
        holder := some trail.guards.length
        around := trail.around ++ [trail.holder]
        entered := trail.entered ++ [(node, instanceId)] }
  | .nameStrategy _ _ => { trail with toScope := scope }
  | .leave number =>
      { trail with
        toScope := scope
        holder := if (trail.guard? number).isSome then trail.around? number else trail.holder }

def after (trail : Trail) (calls : List Call) : Trail := calls.foldl Trail.call trail

/-- The identity that is set, if any, is that of a guard that has not left. -/
def Clear (trail : Trail) : Prop := ∀ number ∈ trail.holder, ¬ trail.HasLeft number

/-- The guard is live, and the one that it was entered within has left. -/
def Outlasts (trail : Trail) (number : Nat) : Prop :=
  (trail.guard? number).isSome ∧ ∃ outer ∈ trail.around? number, trail.HasLeft outer

/-- No guard leaves by the call that outlasts the one it was entered within. -/
def Orderly (trail : Trail) : Call → Prop
  | .leave number => ¬ trail.Outlasts number
  | _ => True

/-- Every guard that leaves by the calls does so before the one that it was entered within. -/
def InOrder (trail : Trail) : List Call → Prop
  | [] => True
  | call :: later => trail.Orderly call ∧ (trail.call call).InOrder later

instance (trail : Trail) (number : Nat) : Decidable (trail.Outlasts number) :=
  inferInstanceAs (Decidable (_ ∧ ∃ outer ∈ trail.around? number, trail.HasLeft outer))

instance (trail : Trail) : (call : Call) → Decidable (trail.Orderly call)
  | .leave number => inferInstanceAs (Decidable (¬ trail.Outlasts number))
  | .enter _ _ | .nameStrategy _ _ => .isTrue trivial

instance decidableInOrder (trail : Trail) : (calls : List Call) → Decidable (trail.InOrder calls)
  | [] => .isTrue trivial
  | call :: later =>
    have := decidableInOrder (trail.call call) later
    inferInstanceAs (Decidable (trail.Orderly call ∧ _))

variable {trail : Trail} {calls : List Call}

/-- The scope does not look at the trail. -/
theorem toScope_call (trail : Trail) (call : Call) : (trail.call call).toScope = trail.toScope.call call := by
  cases call <;> rfl

theorem toScope_after (trail : Trail) (calls : List Call) :
    (trail.after calls).toScope = trail.toScope.after calls := by
  induction calls generalizing trail with
  | nil => rfl
  | cons call later ih =>
    refine (ih (trail.call call)).trans ?_
    rw [toScope_call]
    rfl

/-- The identity that is set is of the holder, and the one that a guard saved is of the guard around it. -/
structure Tells (trail : Trail) : Prop where
  around_length : trail.around.length = trail.guards.length
  entered_length : trail.entered.length = trail.guards.length
  holder_lt : ∀ number, trail.holder = some number → number < trail.guards.length
  around_lt : ∀ number outer, trail.around? number = some outer → outer < number
  current : trail.current.map Identity.label = trail.holder.bind (trail.entered[·]?)
  saved : ∀ number guard, trail.guard? number = some guard →
    guard.previous.map Identity.label = (trail.around? number).bind (trail.entered[·]?)

theorem tells_start : Tells {} := by
  constructor <;> simp [around?, Scope.guard?]

theorem around?_enter (lengths : trail.around.length = trail.guards.length) (node : String)
    (instanceId : InstanceId) (number : Nat) :
    (trail.call (.enter node instanceId)).around? number =
      if number = trail.guards.length then trail.holder else trail.around? number := by
  have appended : (trail.call (.enter node instanceId)).around = trail.around ++ [trail.holder] := rfl
  rw [around?, appended, getElem?_concat, lengths]
  split <;> rfl

/-- A new guard changes nothing about what the older ones were entered for. -/
theorem Tells.entered_enter (tells : trail.Tells) (node : String) (instanceId : InstanceId)
    {number? : Option Nat} (older : ∀ number, number? = some number → number < trail.guards.length) :
    number?.bind ((trail.call (.enter node instanceId)).entered[·]?) = number?.bind (trail.entered[·]?) := by
  cases number? with
  | none => rfl
  | some number =>
    have below : number < trail.entered.length := tells.entered_length ▸ older number rfl
    exact List.getElem?_append_left below

theorem Tells.enter (tells : trail.Tells) (node : String) (instanceId : InstanceId) :
    (trail.call (.enter node instanceId)).Tells := by
  have grown : (trail.call (.enter node instanceId)).guards.length = trail.guards.length + 1 :=
    Scope.length_guards_enter ..
  constructor
  · rw [grown, ← tells.around_length]
    exact List.length_append
  · rw [grown, ← tells.entered_length]
    exact List.length_append
  · intro number held
    rw [grown]
    exact (Option.some.inj held) ▸ Nat.lt_succ_self _
  · intro number outer within
    rw [around?_enter tells.around_length] at within
    split at within
    · rename_i new
      exact new ▸ tells.holder_lt outer within
    · exact tells.around_lt number outer within
  · change some (node, instanceId) = (trail.entered ++ [(node, instanceId)])[trail.guards.length]?
    rw [← tells.entered_length, List.getElem?_concat_length]
  · intro number guard live
    rw [toScope_call] at live
    have live := (Scope.guard?_enter ..).symm.trans live
    rw [around?_enter tells.around_length]
    split at live
    · rename_i new
      cases live
      rw [if_pos new]
      -- What the new guard saved was set until now, so it is the holder's.
      exact tells.current.trans (tells.entered_enter _ _ tells.holder_lt).symm
    · rename_i old
      have known : ∀ outer, trail.around? number = some outer → outer < trail.guards.length :=
        fun outer within => Nat.lt_trans (tells.around_lt number outer within) (Scope.lt_of_guard?_eq_some live)
      rw [if_neg old]
      exact (tells.saved number guard live).trans (tells.entered_enter _ _ known).symm

theorem label_nameStrategyBy (scope : Scope) (number : Nat) (strategy : String) :
    (scope.nameStrategyBy number strategy).current.map Identity.label = scope.current.map Identity.label := by
  unfold Scope.nameStrategyBy
  split
  · exact Option.map_map ..
  · rfl

theorem call_leave_of_gone {number : Nat} (gone : trail.guard? number = none) :
    trail.call (.leave number) = trail := by
  simp only [Trail.call, Scope.call, Scope.leave_of_gone gone, gone, Option.isSome_none, Bool.false_eq_true,
    if_false]

theorem call_leave_of_live {number : Nat} {guard : Guard} (live : trail.guard? number = some guard) :
    trail.call (.leave number) =
      { trail with toScope := trail.toScope.leave number, holder := trail.around? number } := by
  simp only [Trail.call, Scope.call, live, Option.isSome_some, if_true]

theorem Tells.call (tells : trail.Tells) (made : Call) : (trail.call made).Tells := by
  cases made with
  | enter node instanceId => exact tells.enter node instanceId
  | nameStrategy number strategy =>
    have guards := Scope.guards_nameStrategyBy trail.toScope number strategy
    have length := (congrArg List.length guards).symm
    exact
      { around_length := tells.around_length.trans length
        entered_length := tells.entered_length.trans length
        holder_lt := fun other held => Nat.lt_of_lt_of_eq (tells.holder_lt other held) length
        around_lt := tells.around_lt
        current := (label_nameStrategyBy trail.toScope number strategy).trans tells.current
        saved := fun other guard live =>
          tells.saved other guard ((Scope.guard?_nameStrategyBy ..).symm.trans live) }
  | leave number =>
    cases live : trail.guard? number with
    | none => exact (call_leave_of_gone live).symm ▸ tells
    | some guard =>
      have length := (Scope.length_guards_leave trail.toScope number).symm
      rw [call_leave_of_live live]
      refine ⟨tells.around_length.trans length, tells.entered_length.trans length, ?_, tells.around_lt, ?_, ?_⟩
      · intro outer within
        exact Nat.lt_of_lt_of_eq (Nat.lt_trans (tells.around_lt number outer within)
          (Scope.lt_of_guard?_eq_some live)) length
      · dsimp only
        rw [Scope.leave_of_live live]
        exact tells.saved number guard live
      · intro other saved still
        rw [Scope.guard?_leave] at still
        split at still
        · cases still
        · exact tells.saved other saved still

theorem Tells.after (tells : trail.Tells) (calls : List Call) : (trail.after calls).Tells := by
  induction calls generalizing trail with
  | nil => exact tells
  | cons call later ih => exact ih (tells.call call)

/-- It is by a guard which outlasts the one around it that the identity of one that left comes back. -/
theorem clear_call_iff {call : Call} (tells : trail.Tells) (clear : trail.Clear) :
    (trail.call call).Clear ↔ trail.Orderly call := by
  cases call with
  | enter node instanceId =>
    refine iff_of_true (fun number held left => ?_) trivial
    obtain rfl : trail.guards.length = number := Option.some.inj held
    have entered : (trail.guards ++ [some ⟨trail.current⟩])[trail.guards.length]? = some none := left
    rw [List.getElem?_concat_length] at entered
    cases entered
  | nameStrategy number strategy =>
    refine iff_of_true (fun holder held left => clear holder held ?_) trivial
    have guards := Scope.guards_nameStrategyBy trail.toScope number strategy
    exact (congrArg (·[holder]?) guards).symm.trans left
  | leave number =>
    cases live : trail.guard? number with
    | none =>
      rw [call_leave_of_gone live]
      refine iff_of_true clear fun outlasts => ?_
      rw [Outlasts, live] at outlasts
      cases outlasts.1
    | some guard =>
      rw [call_leave_of_live live]
      constructor
      · rintro clear ⟨-, outer, within, left⟩
        exact clear outer within ((Scope.hasLeft_leave live outer).mpr (.inr left))
      · intro orderly outer within left
        rcases (Scope.hasLeft_leave live outer).mp left with same | left
        -- The guard around is older, so it is not the one that leaves now.
        · exact absurd same (Nat.ne_of_lt (tells.around_lt number outer within))
        · exact orderly ⟨Option.isSome_of_eq_some live, outer, within, left⟩

/-- The identity of a guard that left is never set exactly when the guards leave in order. -/
theorem clear_after_iff (tells : trail.Tells) (clear : trail.Clear) :
    (∀ early, early <+: calls → (trail.after early).Clear) ↔ trail.InOrder calls := by
  induction calls generalizing trail with
  | nil =>
    refine iff_of_true (fun early none => ?_) trivial
    rw [List.prefix_nil.mp none]
    exact clear
  | cons call later ih =>
    constructor
    · intro always
      have first : (trail.call call).Clear := always [call] ⟨later, rfl⟩
      refine ⟨(clear_call_iff tells clear).mp first, (ih (tells.call call) first).mp fun early leading => ?_⟩
      exact always (call :: early) (List.cons_prefix_cons.mpr ⟨rfl, leading⟩)
    · rintro ⟨orderly, inOrder⟩ early leading
      rcases List.prefix_cons_iff.mp leading with rfl | ⟨rest, rfl, within⟩
      · exact clear
      · have first := (clear_call_iff tells clear).mpr orderly
        exact (ih (tells.call call) first).mpr inOrder rest within

theorem Tells.current_eq_none (tells : trail.Tells) (clear : trail.Clear)
    (allLeft : ∀ number < trail.guards.length, trail.HasLeft number) : trail.current = none := by
  have free : trail.holder = none := by
    refine Option.eq_none_iff_forall_ne_some.mpr fun number held => ?_
    exact clear number held (allLeft number (tells.holder_lt number held))
  have unlabelled := tells.current
  rw [free] at unlabelled
  exact Option.map_eq_none_iff.mp unlabelled

end Trail

/-- Whatever is done with the guards of a thread that starts without an identity: if each that leaves does so
before the one that it was entered within, the identity of a guard that left is never set, and none is once all
have left. Otherwise one comes back. -/
theorem left_identity_returns_iff (calls : List Call) :
    let trail := Trail.after {} calls
    trail.toScope = Scope.after {} calls ∧
      trail.current.map Identity.label = trail.holder.bind (trail.entered[·]?) ∧
      ((∀ early, early <+: calls → (Trail.after {} early).Clear) ↔ Trail.InOrder {} calls) ∧
      (Trail.InOrder {} calls → (∀ number < trail.guards.length, trail.HasLeft number) →
        trail.current = none) := by
  intro trail
  have tells : trail.Tells := Trail.tells_start.after calls
  have always : (∀ early, early <+: calls → (Trail.after {} early).Clear) ↔ Trail.InOrder {} calls :=
    Trail.clear_after_iff Trail.tells_start (fun _ held => nomatch held)
  refine ⟨Trail.toScope_after {} calls, tells.current, always, fun inOrder allLeft => ?_⟩
  exact tells.current_eq_none (always.mpr inOrder calls (List.prefix_refl calls)) allLeft

/-- A guard that never leaves brings none back, also when the one that it was entered within has left. -/
theorem left_identity_stays_away :
    let abandoned : List Call := [.enter "A" ⟨[1]⟩, .enter "B" ⟨[2]⟩, .leave 0, .enter "C" ⟨[3]⟩, .leave 2]
    let nested : List Call := [.enter "A" ⟨[1]⟩, .enter "B" ⟨[2]⟩, .nameStrategy 1 "clf", .leave 1, .leave 0]
    (∀ early, early <+: abandoned → (Trail.after {} early).Clear) ∧
      (Trail.after {} nested).guards = [none, none] ∧ (Trail.after {} nested).current = none := by
  intro abandoned nested
  have leaves := left_identity_returns_iff nested
  exact ⟨(left_identity_returns_iff abandoned).2.2.1.mpr (by decide), by decide,
    leaves.2.2.2 (by decide) (by decide)⟩

/-- The inner guard outlives the outer one, whose identity is set again though both have left. -/
theorem left_identity_comes_back :
    let scope := Scope.after {} [.enter "A" ⟨[1]⟩, .enter "B" ⟨[2]⟩, .leave 0, .leave 1]
    scope.guards = [none, none] ∧ scope.current = some ⟨"A", none, ⟨[1]⟩⟩ := by
  decide

open Nest

namespace Trail

variable {trail : Trail} {calls : List Call} {nest next : Nest} {call : Call}

/-- A trail is as nested guards leave it. -/
structure Mirrors (nest : Nest) (trail : Trail) : Prop where
  follows : Follows none nest trail.toScope
  around_length : trail.around.length = trail.guards.length
  holder : trail.holder = nest.live.head?.map Frame.guard
  chained : ∀ frame lower, frame :: lower <:+ nest.live →
    trail.around? frame.guard = lower.head?.map Frame.guard

theorem Mirrors.orderly (mirrors : Mirrors nest trail) (step : Step nest call next) : trail.Orderly call := by
  cases step with
  | enter | nameStrategy => trivial
  | @leave guard identity rest innermost =>
    rintro ⟨-, outer, within, left⟩
    have saved := mirrors.follows.saved
    have chained := mirrors.chained
    rw [innermost] at saved chained
    rw [chained _ _ (List.suffix_refl _)] at within
    cases rest with
    | nil => cases within
    | cons frame lower =>
      cases within
      have live := Scope.guard?_eq_some_iff.mp (saved frame lower (List.suffix_cons ..))
      cases left.symm.trans live

theorem Mirrors.step (mirrors : Mirrors nest trail) (step : Step nest call next) :
    Mirrors next (trail.call call) := by
  have follows := mirrors.follows.step _ step
  rw [← toScope_call] at follows
  have ⟨before, lengths, holder, chained⟩ := mirrors
  cases step with
  | enter node instanceId =>
    refine ⟨follows, ?_, congrArg some before.next.symm, fun frame lower part => ?_⟩
    · exact List.length_append.trans ((congrArg (· + 1) lengths).trans (Scope.length_guards_enter ..).symm)
    · refine (around?_enter lengths ..).trans ?_
      rcases List.suffix_cons_iff.mp part with same | older
      · obtain ⟨rfl, rfl⟩ := List.cons.inj same
        exact (if_pos before.next).trans holder
      · have below := before.guard_lt (older.subset (.head _))
        exact (if_neg (Nat.ne_of_lt below)).trans (chained frame lower older)
  | @nameStrategy guard identity rest strategy innermost =>
    rw [innermost] at holder chained
    have top := chained _ _ (List.suffix_refl _)
    have guards := Scope.guards_nameStrategyBy trail.toScope guard strategy
    refine ⟨follows, lengths.trans (congrArg List.length guards).symm, holder, fun frame lower part => ?_⟩
    rcases List.suffix_cons_iff.mp part with same | older
    · obtain ⟨rfl, rfl⟩ := List.cons.inj same
      exact top
    · exact chained frame lower (older.trans (List.suffix_cons ..))
  | leave innermost =>
    have saved := before.saved
    rw [innermost] at saved chained
    have left := call_leave_of_live (saved _ _ (List.suffix_refl _))
    rw [left] at follows ⊢
    refine ⟨follows, lengths.trans (Scope.length_guards_leave ..).symm, chained _ _ (List.suffix_refl _), ?_⟩
    exact fun frame lower part => chained frame lower (part.trans (List.suffix_cons ..))

theorem Mirrors.inOrder (mirrors : Mirrors nest trail) (nested : Run nest calls next) : trail.InOrder calls := by
  induction nested generalizing trail with
  | nil => trivial
  | cons first rest ih => exact ⟨mirrors.orderly first, ih (mirrors.step first)⟩

end Trail

/-- Guards that are nested leave in order. -/
theorem Nest.Run.inOrder {nest : Nest} {calls : List Call} (nested : Run ⟨0, []⟩ calls nest) :
    Trail.InOrder {} calls :=
  Trail.Mirrors.inOrder ⟨follows_start {}, rfl, rfl, fun _ _ part => nomatch List.suffix_nil.mp part⟩ nested

end Overhear.Logging
