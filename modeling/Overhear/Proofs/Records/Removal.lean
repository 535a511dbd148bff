import Overhear.Proofs.Records

/-! The removal of expired records. A sweep takes out exactly the subtrees in which nothing lives any more,
the deepest names first, and a second sweep at the same time finds nothing left to take. -/
namespace Overhear.Records

variable (records : Records) (now : Nanos)

/-- There is a record of the name, and its deadline is still to come. -/
def Alive (name : Name) : Prop := ∃ deadline, records.deadline? name = some deadline ∧ now < deadline

/-- A longer name comes first, and of names of one length the one that is first in the order of names. -/
def Precedes (first second : Name) : Prop :=
  second.length < first.length ∨ second.length = first.length ∧ compare first second = .lt

/-- What is alive at or below a name keeps it from being dead. -/
theorem dead_iff (name : Name) :
    records.Dead now name ↔ ∀ below : Name, name.covers below = true → ¬ records.Alive now below := by
  constructor
  · rintro dead below covered ⟨deadline, known, later⟩
    exact Nat.not_le_of_lt later (dead below covered deadline known)
  · intro lifeless below covered deadline known
    exact Nat.le_of_not_lt fun later => lifeless below covered ⟨deadline, known, later⟩

/-- The records whose deadline has passed, in name order. -/
def due : List Name :=
  records.deadlines.toList.filterMap fun (name, deadline) => if deadline ≤ now then some name else none

theorem due_inOrder : (records.due now).Pairwise fun first second => compare first second = .lt := by
  rw [due, List.pairwise_filterMap]
  have ordered := Std.ExtTreeMap.ordered_keys_toList (t := records.deadlines)
  refine ordered.imp fun {first second} before => ?_
  intro name found other otherFound
  obtain ⟨-, sameFirst⟩ := Option.ite_none_right_eq_some.mp found
  obtain ⟨-, sameSecond⟩ := Option.ite_none_right_eq_some.mp otherFound
  rwa [← Option.some.inj sameFirst, ← Option.some.inj sameSecond]

/-- The sort by depth leaves the names of one depth in the order in which they stood. -/
theorem filter_length_expired (depth : Nat) :
    (records.expired now).filter (·.length == depth) = (records.due now).filter (·.length == depth) := by
  have level : ((records.due now).filter (·.length == depth)).Pairwise
      fun first second : Name => decide (second.length ≤ first.length) = true := by
    refine List.pairwise_of_forall_mem_list fun first firstMember second secondMember => ?_
    have firstDepth := beq_iff_eq.mp (List.mem_filter.mp firstMember).2
    have secondDepth := beq_iff_eq.mp (List.mem_filter.mp secondMember).2
    exact decide_eq_true (Nat.le_of_eq (secondDepth.trans firstDepth.symm))
  have kept : ((records.due now).filter (·.length == depth)).Sublist (records.expired now) := by
    refine List.sublist_mergeSort ?_ ?_ level List.filter_sublist
    · intro a b c first second
      simp only [decide_eq_true_eq] at first second ⊢
      exact Nat.le_trans second first
    · intro a b
      simp only [Bool.or_eq_true, decide_eq_true_eq]
      exact Nat.le_total b.length a.length
  have filtered := kept.filter (·.length == depth)
  simp only [List.filter_filter, Bool.and_self] at filtered
  have perm : (records.expired now).Perm (records.due now) := List.mergeSort_perm _ _
  exact (filtered.eq_of_length (perm.filter _).length_eq.symm).symm

theorem expired_inOrder : (records.expired now).Pairwise Precedes := by
  rw [List.pairwise_iff_forall_sublist]
  intro first second together
  have deeper := List.pairwise_iff_forall_sublist.mp (records.deepestFirst_expired now) together
  rcases Nat.lt_or_eq_of_le deeper with shorter | same
  · exact .inl shorter
  · refine .inr ⟨same, ?_⟩
    have level := together.filter (·.length == first.length)
    rw [filter_length_expired] at level
    simp only [List.filter_cons, same, beq_self_eq_true, if_true, List.filter_nil] at level
    exact List.pairwise_iff_forall_sublist.mp (records.due_inOrder now) (level.trans List.filter_sublist)

/-- What is taken out is taken in the order in which the expired records are looked at. -/
theorem foldl_removeLeaf_sublist (names : List Name) (state : List Name × Records) :
    ∃ taken : List Name, taken.Sublist names ∧ (names.foldl removeLeaf state).1 = state.1 ++ taken := by
  induction names generalizing state with
  | nil => exact ⟨[], .slnil, (List.append_nil _).symm⟩
  | cons leaf rest ih =>
    obtain ⟨taken, sublist, same⟩ := ih (removeLeaf state leaf)
    rw [List.foldl_cons, same]
    simp only [removeLeaf]
    split
    · exact ⟨taken, sublist.cons leaf, rfl⟩
    · exact ⟨leaf :: taken, sublist.cons_cons leaf, by simp⟩

theorem takeExpired_inOrder : (records.takeExpired now).1.Pairwise Precedes := by
  obtain ⟨taken, sublist, same⟩ := foldl_removeLeaf_sublist (records.expired now) ([], records)
  rw [takeExpired, same, List.nil_append]
  exact (records.expired_inOrder now).sublist sublist

@[simp] theorem firstLifetime_takeExpired :
    (records.takeExpired now).2.firstLifetime = records.firstLifetime := by
  let Same (state : List Name × Records) : Prop := state.2.firstLifetime = records.firstLifetime
  have step : ∀ state, Same state → ∀ leaf ∈ records.expired now, Same (removeLeaf state leaf) := by
    intro state same leaf _
    simp only [removeLeaf]
    split <;> exact same
  exact List.foldlRecOn (motive := Same) (records.expired now) removeLeaf rfl step

theorem eq_of_deadline? {first second : Records} (lifetime : first.firstLifetime = second.firstLifetime)
    (deadlines : ∀ name, first.deadline? name = second.deadline? name) : first = second := by
  cases first
  cases second
  cases lifetime
  exact congrArg _ (Std.ExtTreeMap.ext_getElem? fun {name} => deadlines name)

/-- What is left after a removal is not dead, for all that was dead was taken. -/
theorem takeExpired_takeExpired :
    (records.takeExpired now).2.takeExpired now = ([], (records.takeExpired now).2) := by
  have nothing : ((records.takeExpired now).2.takeExpired now).1 = [] := by
    rw [List.eq_nil_iff_forall_not_mem]
    intro name again
    obtain ⟨present, dead⟩ := mem_takeExpired_iff.mp again
    rw [deadline?_takeExpired] at present
    split at present
    · cases present
    · rename_i spared
      apply spared
      refine mem_takeExpired_iff.mpr ⟨present, fun below covered deadline known => ?_⟩
      by_cases taken : below ∈ (records.takeExpired now).1
      · exact le_of_mem_takeExpired taken (Name.covers_self below) known
      · refine dead below covered deadline ?_
        rw [deadline?_takeExpired, if_neg taken]
        exact known
  refine Prod.ext nothing (eq_of_deadline? (firstLifetime_takeExpired _ _) fun name => ?_)
  rw [deadline?_takeExpired, nothing, if_neg List.not_mem_nil]

/-- `taken` are the names of the dead records of a table, and the others are `left` as they were. -/
structure Reaped (taken : List Name) (left : Records) : Prop where
  taken_iff : ∀ name, name ∈ taken ↔
    ∃ deadline, records.deadline? name = some deadline ∧ deadline ≤ now ∧
      ∀ below : Name, name.strictlyCovers below = true → ¬ records.Alive now below
  inOrder : taken.Pairwise Precedes
  deadline? : ∀ name, left.deadline? name = if name ∈ taken then none else records.deadline? name
  firstLifetime : left.firstLifetime = records.firstLifetime
  alive_iff : ∀ name, left.Alive now name ↔ records.Alive now name
  again : left.takeExpired now = ([], left)

theorem dead_iff_of_deadline? {name : Name} {deadline : Nanos}
    (known : records.deadline? name = some deadline) :
    records.Dead now name ↔ deadline ≤ now ∧
      ∀ below : Name, name.strictlyCovers below = true → ¬ records.Alive now below := by
  rw [dead_iff]
  constructor
  · intro lifeless
    refine ⟨Nat.le_of_not_lt fun later => ?_, fun below under => ?_⟩
    · exact lifeless name (Name.covers_self name) ⟨deadline, known, later⟩
    · exact lifeless below (Name.covers_iff_eq_or_strictlyCovers.mpr (.inr under))
  · rintro ⟨past, lifeless⟩ below covered alive
    rcases Name.covers_iff_eq_or_strictlyCovers.mp covered with rfl | under
    · obtain ⟨other, found, later⟩ := alive
      cases known.symm.trans found
      exact Nat.not_le_of_lt later past
    · exact lifeless below under alive

theorem alive_takeExpired_iff (name : Name) :
    (records.takeExpired now).2.Alive now name ↔ records.Alive now name := by
  unfold Alive
  rw [deadline?_takeExpired]
  split
  · rename_i taken
    refine iff_of_false (by simp) ?_
    rintro ⟨deadline, known, later⟩
    exact Nat.not_le_of_lt later (le_of_mem_takeExpired taken (Name.covers_self name) known)
  · rfl

/-- Whatever is in a table, a sweep at any time takes out its dead records and nothing else. -/
theorem takeExpired_takes_dead :
    records.Reaped now (records.takeExpired now).1 (records.takeExpired now).2 where
  taken_iff name := by
    rw [mem_takeExpired_iff, Option.isSome_iff_exists]
    constructor
    · rintro ⟨⟨deadline, known⟩, dead⟩
      exact ⟨deadline, known, (records.dead_iff_of_deadline? now known).mp dead⟩
    · rintro ⟨deadline, known, lifeless⟩
      exact ⟨⟨deadline, known⟩, (records.dead_iff_of_deadline? now known).mpr lifeless⟩
  inOrder := records.takeExpired_inOrder now
  deadline? := deadline?_takeExpired records now
  firstLifetime := records.firstLifetime_takeExpired now
  alive_iff := records.alive_takeExpired_iff now
  again := records.takeExpired_takeExpired now

/-- The deepest names go first, and a name stays with all above it as long as one below it lives. -/
example :
    let deadlines : List (Name × Nanos) :=
      [(⟨["a"]⟩, 3), (⟨["a", "b"]⟩, 9), (⟨["c"]⟩, 2), (⟨["c", "d"]⟩, 5)]
    let records : Records := { deadlines := .ofList deadlines }
    (records.takeExpired 5).1 = [⟨["c", "d"]⟩, ⟨["c"]⟩] := by cbv

end Overhear.Records
