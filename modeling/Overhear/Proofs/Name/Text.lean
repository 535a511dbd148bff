import Mathlib.Data.List.DropRight
import Overhear.Name

/-! Names and their texts. Reading takes exactly the texts of clean names, with blanks around them, so a name
is read back from its text unless the text ends in a blank; no two clean names share a text. -/
namespace Overhear

namespace Text

variable {text path part rest : List Char} {parts : List (List Char)}

theorem segments_of_unslashed (unslashed : '/' ∉ part) : segments part = [part] := by
  induction part with
  | nil => rfl
  | cons c others ih =>
    obtain ⟨other, unslashed⟩ := not_or.mp (List.mem_cons.not.mp unslashed)
    rw [segments, if_neg (Ne.symm other), ih unslashed]

theorem segments_slash (unslashed : '/' ∉ part) :
    segments (part ++ '/' :: rest) = part :: segments rest := by
  induction part with
  | nil => simp [segments]
  | cons c others ih =>
    obtain ⟨other, unslashed⟩ := not_or.mp (List.mem_cons.not.mp unslashed)
    rw [List.cons_append, segments, if_neg (Ne.symm other), ih unslashed]

theorem unslashed_of_mem_segments (member : part ∈ segments text) : '/' ∉ part := by
  induction text generalizing part with
  | nil =>
    obtain rfl : part = [] := by simpa [segments] using member
    exact List.not_mem_nil
  | cons c others ih =>
    unfold segments at member
    split at member
    · rcases List.mem_cons.mp member with rfl | member
      · exact List.not_mem_nil
      · exact ih member
    · rename_i other
      split at member
      · rename_i none
        exact absurd none (segments_ne_nil others)
      · rename_i first tail split
        rw [split] at ih
        rcases List.mem_cons.mp member with rfl | member
        · exact fun slash => (List.mem_cons.mp slash).elim (fun same => other same.symm) (ih (.head _))
        · exact ih (.tail _ member)

/-- Nothing but the slashes between them is lost from the stretches of a text. -/
theorem flatMap_segments (path : List Char) : (segments path).flatMap ('/' :: ·) = '/' :: path := by
  induction path with
  | nil => rfl
  | cons c others ih =>
    unfold segments
    split
    · rename_i slash
      rw [List.flatMap_cons, ih, slash]
      rfl
    · split
      · rename_i none
        exact absurd none (segments_ne_nil others)
      · rename_i first tail split
        rw [split, List.flatMap_cons, List.cons_append, List.cons.injEq] at ih
        rw [List.flatMap_cons, List.cons_append, List.cons_append, ih.2]

theorem segments_flatMap (unslashed : ∀ part ∈ parts, '/' ∉ part)
    (written : parts.flatMap ('/' :: ·) = '/' :: path) : segments path = parts := by
  induction parts generalizing path with
  | nil => cases written
  | cons first others ih =>
    rw [List.flatMap_cons, List.cons_append, List.cons.injEq] at written
    obtain ⟨-, rfl⟩ := written
    have firstUnslashed := unslashed first (.head _)
    cases others with
    | nil => rw [List.flatMap_nil, List.append_nil, segments_of_unslashed firstUnslashed]
    | cons second tail =>
      have again : (second :: tail).flatMap ('/' :: ·) =
          '/' :: (second ++ tail.flatMap ('/' :: ·)) := rfl
      rw [again, segments_slash firstUnslashed,
        ih (fun part member => unslashed part (.tail _ member)) again]

theorem trim_slash (path : List Char) : trim ('/' :: path) = ('/' :: path).rdropWhile isBlank := by
  rw [trim, List.dropWhile_cons_of_neg (by simp [isBlank_slash]), List.rdropWhile]

end Text

namespace Name

variable {name first second : Name}

/-- No component is empty or has a slash in it. -/
def Clean (name : Name) : Prop :=
  ∀ component ∈ name.components, component.toList ≠ [] ∧ '/' ∉ component.toList

/-- The text of the name ends in a blank. -/
def EndsBlank (name : Name) : Prop :=
  ∃ last, name.last? = some last ∧ ∃ c, last.toList.getLast? = some c ∧ Text.isBlank c = true

theorem toChars_of_ne_nil (nonempty : name.components ≠ []) :
    name.toChars = (name.components.map String.toList).flatMap ('/' :: ·) := by
  unfold toChars
  split
  · rename_i none
    exact absurd none nonempty
  · rw [List.flatMap_map]

theorem exists_toChars (name : Name) : ∃ path, name.toChars = '/' :: path := by
  cases components : name.components with
  | nil => exact ⟨[], by rw [toChars, components]⟩
  | cons component others =>
    exact ⟨_, toChars_of_ne_nil (by simp [components]) |>.trans (by rw [components]; rfl)⟩

theorem Clean.toChars_eq_slash_iff (clean : name.Clean) : name.toChars = ['/'] ↔ name = root := by
  refine ⟨fun written => ?_, fun same => same ▸ rfl⟩
  cases components : name.components with
  | nil => exact congrArg Name.mk components
  | cons component others =>
    rw [toChars_of_ne_nil (by simp [components]), components, List.map_cons, List.flatMap_cons,
      List.cons_append, List.cons.injEq, List.append_eq_nil_iff] at written
    exact absurd written.2.1 (clean component (by simp [components])).1

/-- The text of a clean name below the root tells its components. -/
theorem Clean.toChars_eq_iff {path : List Char} (clean : name.Clean) (below : path ≠ []) :
    name.toChars = '/' :: path ↔ Text.segments path = name.components.map String.toList := by
  by_cases root : name.components = []
  · refine iff_of_false (fun written => ?_) fun read => ?_
    · rw [toChars, root] at written
      exact below (List.cons.inj written).2.symm
    · rw [root] at read
      exact Text.segments_ne_nil path read
  · rw [toChars_of_ne_nil root]
    constructor
    · refine Text.segments_flatMap fun part member => ?_
      obtain ⟨component, present, rfl⟩ := List.mem_map.mp member
      exact (clean component present).2
    · intro read
      rw [← read, Text.flatMap_segments]

theorem clean_of_segments {path : List Char} (full : (Text.segments path).any List.isEmpty = false) :
    Clean ⟨(Text.segments path).map String.ofList⟩ := by
  intro component member
  obtain ⟨part, present, rfl⟩ := List.mem_map.mp member
  rw [String.toList_ofList]
  refine ⟨fun none => ?_, Text.unslashed_of_mem_segments present⟩
  have filled := List.any_eq_false.mp full part present
  simp [none] at filled

/-- Reading gives a name exactly for the text of a clean name with blanks around it. -/
theorem parse_eq_ok_iff (text : String) (name : Name) :
    parse text = .ok name ↔ name.Clean ∧ name.toChars = Text.trim text.toList := by
  unfold parse
  generalize Text.trim text.toList = trimmed
  dsimp only
  split
  · constructor
    · intro read
      obtain rfl := Except.ok.inj read
      exact ⟨nofun, rfl⟩
    · rintro ⟨clean, written⟩
      rw [clean.toChars_eq_slash_iff.mp written]
  · rename_i path notRoot
    have below : path ≠ [] := fun none => notRoot (none ▸ rfl)
    cases full : (Text.segments path).any List.isEmpty with
    | true =>
      rw [if_pos rfl]
      refine iff_of_false nofun fun ⟨clean, written⟩ => ?_
      rw [(clean.toChars_eq_iff below).mp written] at full
      obtain ⟨part, member, none⟩ := List.any_eq_true.mp full
      obtain ⟨component, present, rfl⟩ := List.mem_map.mp member
      exact (clean component present).1 (List.isEmpty_iff.mp none)
    | false =>
      rw [if_neg Bool.false_ne_true]
      constructor
      · intro read
        obtain rfl := Except.ok.inj read
        have clean := clean_of_segments full
        exact ⟨clean, (clean.toChars_eq_iff below).mpr (by simp [Function.comp_def])⟩
      · rintro ⟨clean, written⟩
        rw [(clean.toChars_eq_iff below).mp written]
        simp [Function.comp_def]
  · rename_i notPath
    refine iff_of_false nofun fun named => ?_
    have written := named.2
    obtain ⟨path, slashed⟩ := name.exists_toChars
    exact notPath path (written.symm.trans slashed)

theorem Clean.eq_of_toChars (clean : first.Clean) (other : second.Clean)
    (same : first.toChars = second.toChars) : first = second := by
  obtain ⟨path, written⟩ := first.exists_toChars
  by_cases below : path = []
  · subst below
    rw [clean.toChars_eq_slash_iff.mp written, other.toChars_eq_slash_iff.mp (same ▸ written)]
  · have components := ((clean.toChars_eq_iff below).mp written).symm.trans
      ((other.toChars_eq_iff below).mp (same ▸ written))
    exact congrArg Name.mk (List.map_injective_iff.mpr (fun _ _ => String.toList_inj.mp) components)

/-- Where there are components, the text ends as the last of them does. -/
theorem getLast?_toChars (name : Name) :
    name.toChars.getLast? = (name.last?.bind (·.toList.getLast?)).or (some '/') := by
  rcases List.eq_nil_or_concat name.components with none | ⟨init, last, split⟩
  · simp [toChars, last?, none]
  · rw [toChars_of_ne_nil (by simp [split])]
    simp [split, last?, List.getLast?_append, List.getLast?_cons]

/-- Only the last component decides, as a slash is no blank. -/
theorem endsBlank_iff (name : Name) :
    name.EndsBlank ↔ ∃ c, name.toChars.getLast? = some c ∧ Text.isBlank c = true := by
  rw [getLast?_toChars]
  constructor
  · rintro ⟨last, present, c, ends, blank⟩
    exact ⟨c, by rw [present, Option.bind_some, ends, Option.some_or], blank⟩
  · rintro ⟨c, ends, blank⟩
    rcases Option.or_eq_some_iff.mp ends with ends | ⟨-, slash⟩
    · obtain ⟨last, present, ends⟩ := Option.bind_eq_some_iff.mp ends
      exact ⟨last, present, c, ends, blank⟩
    · obtain rfl := Option.some.inj slash
      exact absurd blank (by simp [Text.isBlank_slash])

/-- Trimming takes something from the text of a name only where that ends in a blank. -/
theorem trim_toChars_iff (name : Name) :
    Text.trim name.toChars = name.toChars ↔ ¬ name.EndsBlank := by
  obtain ⟨path, written⟩ := name.exists_toChars
  rw [endsBlank_iff, written, Text.trim_slash, List.rdropWhile_eq_self_iff]
  constructor
  · rintro kept ⟨c, ends, blank⟩
    have nonempty : '/' :: path ≠ [] := List.cons_ne_nil _ _
    obtain rfl := Option.some.inj ((List.getLast?_eq_some_getLast nonempty).symm.trans ends)
    exact kept nonempty blank
  · exact fun unblank nonempty blank => unblank ⟨_, List.getLast?_eq_some_getLast nonempty, blank⟩

/-- The names that reading and the checked constructors give. -/
inductive Built : Name → Prop where
  | read {text : String} {name : Name} (answered : parse text = .ok name) : Built name
  | listed {components : List String} {name : Name} (answered : ofComponents components = .ok name) :
      Built name
  | child {name longer : Name} {component : String} (built : Built name)
      (answered : name.child component = .ok longer) : Built longer
  | parent {name above : Name} (built : Built name) (answered : name.parent? = some above) : Built above
  | shortened {name : Name} (built : Built name) (count : Nat) : Built (name.take count)
  | forStatistics {name : Name} (built : Built name) : Built name.statistics

theorem Clean.take (clean : name.Clean) (count : Nat) : (name.take count).Clean :=
  fun component member => clean component (List.mem_of_mem_take member)

theorem Clean.child {longer : Name} {component : String} (clean : name.Clean)
    (answered : name.child component = .ok longer) : longer.Clean := by
  unfold Name.child at answered
  split at answered
  · cases answered
  · rename_i filled
    split at answered
    · cases answered
    · rename_i unslashed
      obtain rfl := Except.ok.inj answered
      intro other member
      rcases List.mem_append.mp member with member | member
      · exact clean other member
      · obtain rfl := List.mem_singleton.mp member
        exact ⟨by simpa using filled, by simpa using unslashed⟩

theorem clean_root : root.Clean := nofun

theorem clean_of_ofComponents {components : List String}
    (answered : ofComponents components = .ok name) : name.Clean := by
  suffices grown : ∀ {start : Name}, start.Clean →
      components.foldlM (fun name component =>
        if component.isEmpty then .error (.emptyComponent name.text) else name.child component) start =
          .ok name → name.Clean from grown clean_root answered
  clear answered
  induction components with
  | nil =>
    intro start clean grown
    obtain rfl := Except.ok.inj grown
    exact clean
  | cons component others ih =>
    intro start clean grown
    rw [List.foldlM_cons] at grown
    split at grown
    · cases grown
    · cases longer : start.child component with
      | error _ => rw [longer] at grown; cases grown
      | ok longer =>
        rw [longer] at grown
        exact ih (clean.child ‹_›) grown

theorem Built.clean (built : name.Built) : name.Clean := by
  induction built with
  | read answered => exact ((parse_eq_ok_iff _ _).mp answered).1
  | listed answered => exact clean_of_ofComponents answered
  | child _ answered clean => exact clean.child answered
  | parent _ answered clean =>
    unfold parent? at answered
    split at answered
    · cases answered
    · obtain rfl := Option.some.inj answered
      exact clean.take _
  | shortened _ count clean => exact clean.take count
  | forStatistics _ clean =>
    unfold statistics parent?
    split
    · exact nofun
    · exact clean.take _

/-- A checked name is read back from its text exactly when that does not end in a blank, and different
checked names have different texts. -/
theorem texts_read_back :
    (∀ name, Built name → (parse name.text = .ok name ↔ ¬ name.EndsBlank)) ∧
    ∀ name other, Built name → Built other → name.text = other.text → name = other := by
  constructor
  · intro name built
    rw [parse_eq_ok_iff, text, String.toList_ofList, ← trim_toChars_iff, eq_comm (b := Text.trim _)]
    exact and_iff_right built.clean
  · intro name other built otherBuilt same
    exact built.clean.eq_of_toChars otherBuilt.clean (String.ofList_inj.mp same)

/-- `/a/b` is read back, from its own text and from that of the longer name it was cut from. -/
theorem texts_read_back_below :
    Built ⟨["a", "b"]⟩ ∧ Built (take ⟨["a", "b", "c "]⟩ 2) ∧ parse (text ⟨["a", "b"]⟩) = .ok ⟨["a", "b"]⟩ ∧
      (⟨["a", "b"]⟩ : Name) = take ⟨["a", "b", "c "]⟩ 2 := by
  have built : Built ⟨["a", "b"]⟩ := .listed (by decide : ofComponents ["a", "b"] = _)
  have cut : Built (take ⟨["a", "b", "c "]⟩ 2) :=
    .shortened (.listed (by decide : ofComponents ["a", "b", "c "] = .ok ⟨["a", "b", "c "]⟩)) 2
  have unblank : ¬ EndsBlank ⟨["a", "b"]⟩ := by
    rintro ⟨last, present, c, ends, blank⟩
    obtain rfl := Option.some.inj present
    obtain rfl := Option.some.inj ends
    exact absurd blank (by decide)
  exact ⟨built, cut, (texts_read_back.1 _ built).mpr unblank, texts_read_back.2 _ _ built cut (by decide)⟩

/-- A component that ends in a blank passes the check, and what is read from the text of the name lacks
the blank. -/
theorem blank_end_not_read_back :
    Built ⟨["a "]⟩ ∧ parse (text ⟨["a "]⟩) = .ok ⟨["a"]⟩ ∧ parse (text ⟨["a "]⟩) ≠ .ok ⟨["a "]⟩ :=
  ⟨.listed (by decide : ofComponents ["a "] = _), by decide, by decide⟩

end Name

end Overhear
