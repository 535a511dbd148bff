import Overhear.Proofs.Logging.Calls

/-! Guards that are used as scopes: only the innermost live guard names a strategy or leaves. No stack of them is
stored anywhere, but the identities that the live guards saved make one up, and each guard that leaves restores
exactly what was set before it was entered. -/
namespace Overhear.Logging

/-- A live guard with what it stands for: its node and instance, and the strategy last named through it. -/
structure Frame where
  guard : Nat
  identity : Identity
deriving DecidableEq, Repr

/-- The live guards, the innermost first, and the number of the next one. -/
structure Nest where
  next : Nat
  live : List Frame := []
deriving DecidableEq, Repr

namespace Nest

/-- The identity of the innermost live guard, or what was set outside of all. -/
def innermost (outside : Option Identity) : List Frame → Option Identity
  | [] => outside
  | frame :: _ => some frame.identity

/-- A call that is properly nested: it enters a new guard or is made on the innermost live one. -/
inductive Step (nest : Nest) : Call → Nest → Prop where
  | enter (node : String) (instanceId : InstanceId) :
      Step nest (.enter node instanceId)
        ⟨nest.next + 1, ⟨nest.next, ⟨node, none, instanceId⟩⟩ :: nest.live⟩
  | nameStrategy {guard identity lower} (strategy : String) (innermost : nest.live = ⟨guard, identity⟩ :: lower) :
      Step nest (.nameStrategy guard strategy)
        { nest with live := ⟨guard, { identity with strategy := some strategy }⟩ :: lower }
  | leave {guard identity lower} (innermost : nest.live = ⟨guard, identity⟩ :: lower) :
      Step nest (.leave guard) { nest with live := lower }

/-- A properly nested sequence of calls. -/
inductive Run : Nest → List Call → Nest → Prop where
  | nil {nest} : Run nest [] nest
  | cons {nest middle last call calls} (first : Step nest call middle) (rest : Run middle calls last) :
      Run nest (call :: calls) last

variable {nest next middle last : Nest} {call : Call} {calls later : List Call} {scope : Scope}
  {outside : Option Identity} {guard : Nat} {base : List Frame} {node : String} {instanceId : InstanceId}

theorem Run.split (run : Run nest (calls ++ later) last) :
    ∃ middle, Run nest calls middle ∧ Run middle later last := by
  induction calls generalizing nest with
  | nil => exact ⟨nest, .nil, run⟩
  | cons call rest ih =>
    cases run with
    | cons first run =>
      obtain ⟨middle, before, after⟩ := ih run
      exact ⟨middle, .cons first before, after⟩

/-- What every step keeps, every run keeps. -/
theorem Run.keeps {holds : Nest → Scope → Prop}
    (step : ∀ {nest call next} scope, Step nest call next → holds nest scope → holds next (scope.call call))
    (run : Run nest calls last) (start : holds nest scope) : holds last (scope.after calls) := by
  induction run generalizing scope with
  | nil => exact start
  | cons first rest ih => exact ih (step scope first start)

/-- Each live guard saved the identity of the one around it, and the outermost what was set outside. -/
def Saved (scope : Scope) (outside : Option Identity) (live : List Frame) : Prop :=
  ∀ frame lower, frame :: lower <:+ live → scope.guard? frame.guard = some ⟨innermost outside lower⟩

/-- A scope is as its nested guards tell. -/
structure Follows (outside : Option Identity) (nest : Nest) (scope : Scope) : Prop where
  next : nest.next = scope.guards.length
  current : scope.current = innermost outside nest.live
  saved : Saved scope outside nest.live
  entered : (nest.next :: nest.live.map Frame.guard).Pairwise (· > ·)

theorem Follows.guard_lt (follows : Follows outside nest scope) {frame : Frame} (listed : frame ∈ nest.live) :
    frame.guard < scope.guards.length :=
  Nat.lt_of_lt_of_eq ((List.pairwise_cons.mp follows.entered).1 _ (List.mem_map_of_mem listed)) follows.next

theorem Follows.step (scope : Scope) (step : Step nest call next) (follows : Follows outside nest scope) :
    Follows outside next (scope.call call) := by
  have ⟨number, current, saved, entered⟩ := follows
  obtain ⟨earlier, ordered⟩ := List.pairwise_cons.mp entered
  cases step with
  | enter node instanceId =>
    refine ⟨?_, rfl, fun frame lower part => ?_, List.pairwise_cons.mpr ⟨?_, entered⟩⟩
    · exact (congrArg (· + 1) number).trans (Scope.length_guards_enter ..).symm
    · rcases List.suffix_cons_iff.mp part with same | older
      · obtain ⟨rfl, rfl⟩ := List.cons.inj same
        exact (Scope.guard?_enter ..).trans ((if_pos number).trans (by rw [current]))
      · have below := follows.guard_lt (older.subset (.head _))
        exact (Scope.guard?_enter ..).trans ((if_neg (Nat.ne_of_lt below)).trans (saved frame lower older))
    · intro other member
      rcases List.mem_cons.mp member with same | listed
      · exact same ▸ Nat.lt_succ_self _
      · exact Nat.lt_succ_of_lt (earlier other listed)
  | @nameStrategy guard identity rest strategy innermost =>
    -- The name goes to the identity that is set, which is that of the innermost guard.
    rw [innermost] at current saved entered
    have guards := Scope.guards_nameStrategyBy scope guard strategy
    have live := saved _ _ (List.suffix_refl _)
    refine ⟨number.trans (congrArg List.length guards).symm, ?_, fun frame lower part => ?_, entered⟩
    · exact (Scope.current_nameStrategyBy live strategy).trans (by rw [current]; rfl)
    · refine (Scope.guard?_nameStrategyBy ..).trans ?_
      rcases List.suffix_cons_iff.mp part with same | older
      · obtain ⟨rfl, rfl⟩ := List.cons.inj same
        exact live
      · exact saved frame lower (older.trans (List.suffix_cons ..))
  | @leave guard identity rest innermost =>
    rw [innermost] at saved entered ordered
    obtain ⟨inner, -⟩ := List.pairwise_cons.mp ordered
    refine ⟨number.trans (Scope.length_guards_leave ..).symm, ?_, fun frame lower part => ?_, ?_⟩
    · exact congrArg Scope.current (Scope.leave_of_live (saved _ _ (List.suffix_refl _)))
    · have later : frame.guard < guard := inner _ (List.mem_map_of_mem (part.subset (.head _)))
      refine (Scope.guard?_leave ..).trans ((if_neg (Nat.ne_of_lt later)).trans ?_)
      exact saved frame lower (part.trans (List.suffix_cons ..))
    · exact entered.sublist (.cons_cons _ (List.sublist_cons_self ..))

theorem follows_start (scope : Scope) : Follows scope.current ⟨scope.guards.length, []⟩ scope :=
  ⟨rfl, rfl, fun _ _ part => (nomatch List.suffix_nil.mp part), List.pairwise_singleton ..⟩

/-- As long as the guard is live, the guards around it are as they were. -/
def Covers (guard : Nat) (base : List Frame) (nest : Nest) : Prop :=
  guard < nest.next ∧ ∀ frame lower, frame :: lower <:+ nest.live → frame.guard = guard → lower = base

theorem Covers.step (step : Step nest call next) (covers : Covers guard base nest) : Covers guard base next := by
  obtain ⟨earlier, below⟩ := covers
  cases step with
  | enter node instanceId =>
    refine ⟨Nat.lt_succ_of_lt earlier, fun frame lower part same => ?_⟩
    rcases List.suffix_cons_iff.mp part with new | older
    · obtain ⟨rfl, -⟩ := List.cons.inj new
      exact absurd same.symm (Nat.ne_of_lt earlier)
    · exact below frame lower older same
  | @nameStrategy top identity rest strategy innermost =>
    rw [innermost] at below
    refine ⟨earlier, fun frame lower part same => ?_⟩
    rcases List.suffix_cons_iff.mp part with first | older
    · obtain ⟨rfl, rfl⟩ := List.cons.inj first
      exact below _ _ (List.suffix_refl _) same
    · exact below frame lower (older.trans (List.suffix_cons ..)) same
  | leave innermost =>
    rw [innermost] at below
    exact ⟨earlier, fun frame lower part => below frame lower (part.trans (List.suffix_cons ..))⟩

/-- A guard that was just entered lies on all the others. -/
theorem Follows.covers (follows : Follows outside nest scope) (first : Step nest (.enter node instanceId) next) :
    Covers nest.next nest.live next := by
  cases first with
  | enter =>
    refine ⟨Nat.lt_succ_self _, fun frame lower part same => ?_⟩
    rcases List.suffix_cons_iff.mp part with new | older
    · exact (List.cons.inj new).2
    · have below := follows.guard_lt (older.subset (.head _))
      exact absurd (same.trans follows.next) (Nat.ne_of_lt below)

theorem Run.covers (run : Run nest calls last) (covers : Covers guard base nest) : Covers guard base last := by
  induction run with
  | nil => exact covers
  | cons first rest ih => exact ih (covers.step first)

/-- When a guard leaves that was the innermost, those are live that were live before it was entered. -/
theorem live_of_leave (follows : Follows outside nest scope) (entered : Step nest (.enter node instanceId) middle)
    (inside : Run middle calls next) (own : nest.next = guard) (left : Step next (.leave guard) last) :
    last.live = nest.live := by
  have covers := inside.covers (follows.covers entered)
  cases left with
  | leave innermost => exact covers.2 _ _ ⟨[], innermost.symm⟩ own.symm

end Nest

open Nest

/-- Whatever is set and whatever guards there are at the start, properly nested guards keep the identity of the
innermost live one set, with the strategy last named through it. When a guard leaves, exactly that is set again
which was set before it was entered. -/
theorem nested_guards_restore (start : Scope) {calls : List Call} {nest : Nest}
    (nested : Run ⟨start.guards.length, []⟩ calls nest) :
    (start.after calls).current = innermost start.current nest.live ∧
      ∀ before node instanceId inside later,
        let guard := (start.after before).guards.length
        calls = before ++ .enter node instanceId :: inside ++ .leave guard :: later →
          (start.after (before ++ .enter node instanceId :: inside ++ [.leave guard])).current =
            (start.after before).current := by
  refine ⟨(nested.keeps Follows.step (follows_start start)).current, ?_⟩
  intro before node instanceId inside later guard same
  -- The run is cut where the guard is entered and where it leaves.
  rw [same, List.append_assoc] at nested
  obtain ⟨nest, untilEntered, nested⟩ := nested.split
  obtain _ | ⟨entered, nested⟩ := nested
  obtain ⟨next, untilLeft, nested⟩ := nested.split
  obtain _ | ⟨left, -⟩ := nested
  have follows := untilEntered.keeps Follows.step (follows_start start)
  have followsInside := untilLeft.keeps Follows.step (follows.step _ entered)
  have followsLeft := followsInside.step _ left
  have live := live_of_leave follows entered untilLeft follows.next left
  have after : start.after (before ++ .enter node instanceId :: inside ++ [.leave guard]) =
      (((start.after before).call (.enter node instanceId)).after inside).call (.leave guard) := by
    simp only [Scope.after, List.foldl_append, List.foldl_cons, List.foldl_nil]
  rw [after, followsLeft.current, live, follows.current]

/-- A guard is entered and leaves within another one, both under an identity that was set before them. The
strategy named through the outer guard is set again. -/
theorem nested_guards_restore_strategy :
    let start : Scope := { current := some ⟨"host", some "idle", ⟨[]⟩⟩, guards := [some ⟨none⟩] }
    let before : List Call := [.enter "relay-1" ⟨[1]⟩, .nameStrategy 1 "clf"]
    let inside : List Call := [.nameStrategy 2 "vndn", .enter "relay-3" ⟨[3]⟩, .leave 3]
    let calls := before ++ .enter "relay-2" ⟨[2]⟩ :: inside ++ [.leave 2]
    let outer : Identity := ⟨"relay-1", some "clf", ⟨[1]⟩⟩
    Run ⟨1, []⟩ calls ⟨4, [⟨1, outer⟩]⟩ ∧ (start.after calls).current = some outer ∧
      (start.after calls).current = (start.after before).current := by
  intro start before inside calls outer
  have nested : Run ⟨1, []⟩ calls ⟨4, [⟨1, outer⟩]⟩ :=
    .cons (.enter ..) (.cons (.nameStrategy "clf" rfl) (.cons (.enter ..) (.cons (.nameStrategy "vndn" rfl)
      (.cons (.enter ..) (.cons (.leave rfl) (.cons (.leave rfl) .nil))))))
  have restores := nested_guards_restore start nested
  exact ⟨nested, restores.1, restores.2 before "relay-2" ⟨[2]⟩ inside [] rfl⟩

end Overhear.Logging
