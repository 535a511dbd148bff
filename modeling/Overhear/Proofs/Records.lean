import Overhear.Proofs.Name.Order
import Overhear.Records

/-! Deadlines of records. A sweep goes through the expired records deepest first, and takes one out only
when none is left below it. -/
namespace Overhear.Records

variable (records : Records) (now lifetime : Nanos) (name other : Name)

theorem contains_eq_isSome_deadline? : records.contains name = (records.deadline? name).isSome :=
  Std.ExtTreeMap.contains_eq_isSome_getElem?

theorem mem_names : name ∈ records.names ↔ (records.deadline? name).isSome := by
  rw [← contains_eq_isSome_deadline?, names, Std.ExtTreeMap.mem_keys, ← Std.ExtTreeMap.contains_iff_mem]
  rfl

theorem mem_above :
    other ∈ records.above name ↔ other.strictlyCovers name = true ∧ records.contains other = true := by
  rw [above, List.mem_filter, Name.mem_properAncestors]

theorem nodup_upward : (name :: records.above name).Nodup := by
  have whole := Name.ancestors_nodup name
  rw [Name.ancestors_eq] at whole
  exact whole.sublist (List.filter_sublist.cons_cons name)

/-- The search from the parent of a name ends at the first of the records above it. -/
theorem parentOf?_eq_head? : records.parentOf? name = (records.above name).head? := by
  rw [above, List.head?_filter, parentOf?]
  cases parent : name.parent? with
  | none =>
    rw [Name.properAncestors_of_root parent]
    rfl
  | some upper =>
    rw [← Name.ancestors_parent? parent]
    rfl

section

variable {records name} {next : Name}

theorem above_of_parentOf?_none (last : records.parentOf? name = none) : records.above name = [] := by
  rwa [parentOf?_eq_head?, List.head?_eq_none_iff] at last

/-- The records above a name are the next one and those above that. -/
theorem above_of_parentOf? (found : records.parentOf? name = some next) :
    records.above name = next :: records.above next := by
  rw [parentOf?_eq_head?] at found
  have member := (mem_above records name next).mp (List.mem_of_mem_head? found)
  obtain ⟨longer, split, under⟩ := Name.properAncestors_split member.1
  rw [above, split, List.filter_append, List.filter_cons_of_pos member.2] at found ⊢
  have nothing : longer.filter records.contains = [] := by
    cases between : longer.filter records.contains with
    | nil => rfl
    | cons first rest =>
      rw [between] at found
      cases found
      have listed : next ∈ longer := (List.mem_filter.mp (between ▸ List.mem_cons_self)).1
      have self := under next listed
      rw [Name.not_strictlyCovers_self] at self
      cases self
  rw [nothing]
  rfl

theorem length_of_parentOf? (found : records.parentOf? name = some next) :
    next.length < name.length := by
  have member : next ∈ records.above name := by
    rw [above_of_parentOf? found]
    exact .head _
  exact (Name.strictlyCovers_iff.mp ((mem_above records name next).mp member).1).2

end

theorem firstLifetime_create : (records.create now name).firstLifetime = records.firstLifetime := by
  unfold create
  split <;> rfl

theorem deadline?_create :
    (records.create now name).deadline? other =
      if other = name ∧ records.deadline? name = none then some (now + records.firstLifetime)
      else records.deadline? other := by
  unfold create
  rw [contains_eq_isSome_deadline?]
  by_cases absent : records.deadline? name = none
  · rw [absent]
    by_cases same : other = name
    · simp [same, deadline?]
    · simp [same, Ne.symm same, deadline?, Std.ExtTreeMap.getElem?_insert]
  · rw [if_pos (Option.isSome_iff_ne_none.mpr absent), if_neg (absent ·.2)]

theorem deadline?_extend :
    (records.extend now name lifetime).deadline? other =
      if other = name then (records.deadline? name).map (max · (now + lifetime))
      else records.deadline? other := by
  by_cases same : other = name
  · simp [same, extend, deadline?]
  · simp [same, Ne.symm same, extend, deadline?, Std.ExtTreeMap.getElem?_modify]

@[simp] theorem contains_create :
    (records.create now name).contains other = (decide (other = name) || records.contains other) := by
  simp only [contains_eq_isSome_deadline?, deadline?_create]
  by_cases same : other = name
  · subst same
    cases records.deadline? other <;> simp
  · simp [same]

@[simp] theorem contains_extend :
    (records.extend now name lifetime).contains other = records.contains other := by
  simp only [contains_eq_isSome_deadline?, deadline?_extend]
  by_cases same : other = name <;> simp [same]

theorem mem_expired :
    name ∈ records.expired now ↔ ∃ deadline, records.deadline? name = some deadline ∧ deadline ≤ now := by
  simp only [expired, deadline?, List.mem_mergeSort, List.mem_filterMap, Prod.exists,
    Std.ExtTreeMap.mem_toList_iff_getElem?_eq_some, Option.ite_none_right_eq_some, Option.some.injEq]
  constructor
  · rintro ⟨_, deadline, known, late, rfl⟩
    exact ⟨deadline, known, late⟩
  · rintro ⟨deadline, known, late⟩
    exact ⟨name, deadline, known, late, rfl⟩

theorem deepestFirst_expired :
    (records.expired now).Pairwise fun first second => second.length ≤ first.length := by
  have sorted : (records.expired now).Pairwise fun first second =>
      decide (second.length ≤ first.length) = true := by
    unfold expired
    apply List.pairwise_mergeSort
    · intro a b c first second
      simp only [decide_eq_true_eq] at first second ⊢
      exact Nat.le_trans second first
    · intro a b
      simp only [Bool.or_eq_true, decide_eq_true_eq]
      exact Nat.le_total b.length a.length
  simpa only [decide_eq_true_eq] using sorted

/-- The deadlines of all records at or below a name have passed. -/
def Dead (records : Records) (now : Nanos) (name : Name) : Prop :=
  ∀ below : Name, name.covers below = true → ∀ deadline,
    records.deadline? below = some deadline → deadline ≤ now

/-- A sweep on its way: what it took out, and the records that are left. -/
structure Taking (records : Records) (now : Nanos) (state : List Name × Records) : Prop where
  spared : ∀ name ∉ state.1, state.2.deadline? name = records.deadline? name
  gone : ∀ name ∈ state.1, state.2.deadline? name = none
  known : ∀ name ∈ state.1, (records.deadline? name).isSome
  dead : ∀ name ∈ state.1, records.Dead now name

theorem hasDescendantIn_names :
    Name.hasDescendantIn records.names name = true ↔
      ∃ below, name.strictlyCovers below = true ∧ (records.deadline? below).isSome := by
  have order : records.names.Pairwise fun a b => compare a b = .lt := Std.ExtTreeMap.ordered_keys
  rw [Name.hasDescendantIn_iff order]
  simp only [mem_names, and_comm]

theorem deadline?_erase :
    ({ records with deadlines := records.deadlines.erase name } : Records).deadline? other =
      if other = name then none else records.deadline? other := by
  simp only [deadline?, Std.ExtTreeMap.getElem?_erase, Std.compare_eq_iff_eq]
  simp only [eq_comm]

variable {records now} {state : List Name × Records} {leaf : Name}

/-- Nothing is left below the leaf, so whatever was there has been taken out before. -/
theorem Taking.dead_of_childless (taking : records.Taking now state)
    (expired : leaf ∈ records.expired now)
    (childless : ¬ Name.hasDescendantIn state.2.names leaf = true) : records.Dead now leaf := by
  intro below covered deadline dated
  rcases Name.covers_iff_eq_or_strictlyCovers.mp covered with same | under
  · obtain ⟨due, known, late⟩ := (records.mem_expired now leaf).mp expired
    rw [same, dated] at known
    cases known
    exact late
  · have taken : below ∈ state.1 := by
      by_contra unlisted
      apply childless
      rw [hasDescendantIn_names]
      refine ⟨below, under, ?_⟩
      rw [taking.spared below unlisted, dated]
      rfl
    exact taking.dead below taken below (Name.covers_self below) deadline dated

/-- All that was below a dead leaf is dead itself and deeper, so it has been taken out before. -/
theorem Taking.childless_of_dead (taking : records.Taking now state) (dead : records.Dead now leaf)
    (deeper : ∀ below ∈ records.expired now, leaf.length < below.length → records.Dead now below →
      below ∈ state.1) : ¬ Name.hasDescendantIn state.2.names leaf = true := by
  rw [hasDescendantIn_names]
  intro ⟨below, under, left⟩
  have unlisted : below ∉ state.1 := by
    intro listed
    simp [taking.gone below listed] at left
  rw [taking.spared below unlisted] at left
  obtain ⟨deadline, known⟩ := Option.isSome_iff_exists.mp left
  have covered : leaf.covers below = true := Name.covers_iff_eq_or_strictlyCovers.mpr (.inr under)
  have expired : below ∈ records.expired now :=
    (records.mem_expired now below).mpr ⟨deadline, known, dead below covered deadline known⟩
  have deadBelow : records.Dead now below :=
    fun other coveredOther => dead other (Name.covers_trans covered coveredOther)
  exact unlisted (deeper below expired (Name.strictlyCovers_iff.mp under).2 deadBelow)

theorem mem_removeLeaf_of_mem {name : Name} (taken : name ∈ state.1) (leaf : Name) :
    name ∈ (Records.removeLeaf state leaf).1 := by
  simp only [Records.removeLeaf]
  split
  · exact taken
  · exact List.mem_append_left _ taken

theorem mem_removeLeaf_of_childless (childless : ¬ Name.hasDescendantIn state.2.names leaf = true) :
    leaf ∈ (Records.removeLeaf state leaf).1 := by
  simp only [Records.removeLeaf, if_neg childless]
  exact List.mem_append_right _ (.head _)

theorem Taking.removeLeaf (taking : records.Taking now state)
    (expired : leaf ∈ records.expired now) : records.Taking now (Records.removeLeaf state leaf) := by
  simp only [Records.removeLeaf]
  split
  · exact taking
  · rename_i childless
    constructor
    · intro name unlisted
      rw [List.mem_append, List.mem_singleton, not_or] at unlisted
      rw [deadline?_erase, if_neg unlisted.2]
      exact taking.spared name unlisted.1
    · intro name listed
      rw [deadline?_erase]
      split
      · rfl
      · rename_i other
        rcases List.mem_append.mp listed with before | new
        · exact taking.gone name before
        · exact absurd (List.mem_singleton.mp new) other
    · intro name listed
      rcases List.mem_append.mp listed with before | new
      · exact taking.known name before
      · obtain ⟨due, known, -⟩ := (records.mem_expired now leaf).mp expired
        rw [List.mem_singleton.mp new, known]
        rfl
    · intro name listed
      rcases List.mem_append.mp listed with before | new
      · exact taking.dead name before
      · rw [List.mem_singleton.mp new]
        exact taking.dead_of_childless expired childless

theorem taking_nothing (records : Records) (now : Nanos) : records.Taking now ([], records) := by
  constructor <;> simp

theorem taking_takeExpired (records : Records) (now : Nanos) :
    records.Taking now (records.takeExpired now) := by
  apply List.foldlRecOn (motive := records.Taking now) _ _ (taking_nothing records now)
  intro state taking leaf member
  exact taking.removeLeaf member

/-- The rest of a sweep that has taken out all that is dead so far takes out all that is dead. -/
theorem Taking.mem_foldl_removeLeaf {done rest : List Name} (taking : records.Taking now state)
    (whole : records.expired now = done ++ rest)
    (taken : ∀ name ∈ done, records.Dead now name → name ∈ state.1) :
    ∀ name ∈ records.expired now, records.Dead now name →
      name ∈ (rest.foldl Records.removeLeaf state).1 := by
  induction rest generalizing done state with
  | nil =>
    rw [whole, List.append_nil]
    exact taken
  | cons leaf rest ih =>
    have member : leaf ∈ records.expired now := by
      rw [whole]
      exact List.mem_append_right _ (.head _)
    refine ih (taking.removeLeaf member) (whole.trans (List.append_cons done leaf rest)) ?_
    intro name listed dead
    rcases List.mem_append.mp listed with before | last
    · exact mem_removeLeaf_of_mem (taken name before dead) leaf
    · have same : name = leaf := List.mem_singleton.mp last
      subst same
      apply mem_removeLeaf_of_childless
      apply taking.childless_of_dead dead
      intro below expired longer deadBelow
      -- What is deeper than the leaf comes before it.
      have order := records.deepestFirst_expired now
      rw [whole] at expired order
      rcases List.mem_append.mp expired with before | later
      · exact taken below before deadBelow
      · have shallow := (List.pairwise_append.mp order).2.1
        rcases List.mem_cons.mp later with same | behind
        · subst same
          exact absurd longer (Nat.lt_irrefl _)
        · exact absurd ((List.pairwise_cons.mp shallow).1 below behind) (Nat.not_le_of_lt longer)

/-- A sweep takes out a record exactly when all records at or below it have expired. -/
theorem mem_takeExpired_iff {name : Name} :
    name ∈ (records.takeExpired now).1 ↔
      (records.deadline? name).isSome ∧ records.Dead now name := by
  constructor
  · intro taken
    have taking := taking_takeExpired records now
    exact ⟨taking.known name taken, taking.dead name taken⟩
  · intro ⟨present, dead⟩
    obtain ⟨deadline, known⟩ := Option.isSome_iff_exists.mp present
    have expired : name ∈ records.expired now := (records.mem_expired now name).mpr
      ⟨deadline, known, dead name (Name.covers_self name) deadline known⟩
    have whole : records.expired now = [] ++ records.expired now := rfl
    exact (taking_nothing records now).mem_foldl_removeLeaf whole (by simp) name expired dead

/-- Where a sweep takes a record out, the deadlines of all records at or below it have passed. -/
theorem le_of_mem_takeExpired {name below : Name} {deadline : Nanos}
    (taken : name ∈ (records.takeExpired now).1) (covered : name.covers below = true)
    (known : records.deadline? below = some deadline) : deadline ≤ now :=
  (taking_takeExpired records now).dead name taken below covered deadline known

theorem deadline?_takeExpired (records : Records) (now : Nanos) (name : Name) :
    (records.takeExpired now).2.deadline? name =
      if name ∈ (records.takeExpired now).1 then none else records.deadline? name := by
  have taking := taking_takeExpired records now
  split
  · exact taking.gone name ‹_›
  · exact taking.spared name ‹_›

/-- A record is still there after a sweep, or it is among those taken out. -/
theorem mem_takeExpired (records : Records) (now : Nanos) (name : Name)
    (present : records.contains name = true) :
    name ∈ (records.takeExpired now).1 ∨ (records.takeExpired now).2.contains name = true := by
  rw [contains_eq_isSome_deadline?] at present ⊢
  rw [deadline?_takeExpired]
  by_cases taken : name ∈ (records.takeExpired now).1
  · exact .inl taken
  · exact .inr (by rwa [if_neg taken])

end Overhear.Records
