import Overhear.Proofs.Name.Text

/-! The grammar of names. A text is read as a name exactly when, without the blanks at its ends, it is what
that name is written as; any other text is refused for its start or for a component that is empty. -/
namespace Overhear

namespace Text

variable {text before rest : List Char}

/-- `rest` is what is left of a text without the blanks at its two ends. -/
structure Trims (text rest : List Char) : Prop where
  surrounded : ∃ before after, text = before ++ rest ++ after ∧ ∀ c ∈ before ++ after, isBlank c = true
  start : ∀ c, rest.head? = some c → isBlank c = false
  finish : ∀ c, rest.getLast? = some c → isBlank c = false

theorem trim_eq (text : List Char) : trim text = (text.dropWhile isBlank).rdropWhile isBlank := rfl

theorem trims_trim (text : List Char) : Trims text (trim text) where
  surrounded := by
    refine ⟨text.takeWhile isBlank, (text.dropWhile isBlank).rtakeWhile isBlank, ?_, fun c member => ?_⟩
    · rw [trim_eq, List.append_assoc, List.rdropWhile_append_rtakeWhile,
        List.takeWhile_append_dropWhile]
    · exact (List.mem_append.mp member).elim List.mem_takeWhile_imp List.mem_rtakeWhile_imp
  start c first := by
    obtain ⟨others, kept⟩ := List.head?_eq_some_iff.mp first
    obtain ⟨after, whole⟩ := List.rdropWhile_prefix isBlank (text.dropWhile isBlank)
    rw [← trim_eq, kept, List.cons_append] at whole
    simpa [← whole] using List.head?_dropWhile_not isBlank text
  finish c last := by
    have nonempty : trim text ≠ [] := by
      rintro none
      simp [none] at last
    obtain rfl := Option.some.inj ((List.getLast?_eq_some_getLast nonempty).symm.trans last)
    exact Bool.eq_false_iff.mpr (List.rdropWhile_last_not _ _ nonempty)

theorem dropWhile_blanks (blank : ∀ c ∈ before, isBlank c = true)
    (start : ∀ c, rest.head? = some c → isBlank c = false) : (before ++ rest).dropWhile isBlank = rest := by
  rw [List.dropWhile_append_of_pos blank]
  cases rest with
  | nil => rfl
  | cons first others => rw [List.dropWhile_cons_of_neg (by simp [start first rfl])]

/-- Only one text is left. -/
theorem trims_iff : Trims text rest ↔ rest = trim text := by
  refine ⟨fun trims => ?_, fun same => same ▸ trims_trim text⟩
  obtain ⟨before, after, rfl, blank⟩ := trims.surrounded
  have blankBefore : ∀ c ∈ before, isBlank c = true := fun c member => blank c (List.mem_append_left _ member)
  have blankAfter : ∀ c ∈ after, isBlank c = true := fun c member => blank c (List.mem_append_right _ member)
  cases rest with
  | nil =>
    rw [List.append_nil, trim, List.dropWhile_eq_nil_iff.mpr blank]
    rfl
  | cons first others =>
    have start : ∀ c, (first :: others ++ after).head? = some c → isBlank c = false := trims.start
    have finish : ∀ c, (first :: others).reverse.head? = some c → isBlank c = false := by
      simpa only [List.head?_reverse] using trims.finish
    rw [trim, List.append_assoc, dropWhile_blanks blankBefore start, List.reverse_append,
      dropWhile_blanks (by simpa using blankAfter) finish, List.reverse_reverse]

end Text

namespace Name

/-- A text is refused for its start exactly when a slash is missing there. -/
theorem parse_eq_missingLeadingSlash_iff (text : String) :
    parse text = .error (.missingLeadingSlash (String.ofList (Text.trim text.toList))) ↔
      (Text.trim text.toList).head? ≠ some '/' := by
  unfold parse
  generalize Text.trim text.toList = trimmed
  dsimp only
  split
  · exact iff_of_false nofun (not_not_intro rfl)
  · refine iff_of_false ?_ (not_not_intro rfl)
    split <;> nofun
  · rename_i notPath
    refine iff_of_true rfl fun start => ?_
    obtain ⟨path, slashed⟩ := List.head?_eq_some_iff.mp start
    exact notPath path slashed

/-- Whatever is refused is refused with all of it that is left without blanks. -/
theorem eq_of_parse_eq_error {text : String} {error : NameError} (refused : parse text = .error error) :
    error = .missingLeadingSlash (String.ofList (Text.trim text.toList)) ∨
      error = .emptyComponent (String.ofList (Text.trim text.toList)) := by
  unfold parse at refused
  generalize Text.trim text.toList = trimmed at refused
  dsimp only at refused
  split at refused
  · cases refused
  · split at refused
    · exact .inr (Except.error.inj refused).symm
    · cases refused
  · exact .inl (Except.error.inj refused).symm

/-- A text that starts with a slash but is not that of a clean name has an empty component. -/
theorem parse_eq_emptyComponent_iff (text : String) :
    parse text = .error (.emptyComponent (String.ofList (Text.trim text.toList))) ↔
      (Text.trim text.toList).head? = some '/' ∧
        ∀ name : Name, name.Clean → name.toChars ≠ Text.trim text.toList := by
  constructor
  · intro refused
    constructor
    · by_contra start
      have unrooted := (parse_eq_missingLeadingSlash_iff text).mpr start
      rw [refused] at unrooted
      cases unrooted
    · intro name clean written
      rw [(parse_eq_ok_iff text name).mpr ⟨clean, written⟩] at refused
      cases refused
  · rintro ⟨start, unnamed⟩
    cases read : parse text with
    | ok name =>
      obtain ⟨clean, written⟩ := (parse_eq_ok_iff text name).mp read
      exact absurd written (unnamed name clean)
    | error error =>
      rcases eq_of_parse_eq_error read with rfl | rfl
      · exact absurd start ((parse_eq_missingLeadingSlash_iff text).mp read)
      · rfl

/-- Reading takes exactly the texts of clean names, with blanks around them. Any other text is refused,
with what is left of it without the blanks: for a missing slash when there is none at its start, and for
an empty component in all other cases. -/
theorem parse_accepts_grammar (text : String) :
    ∃ rest : String, (∀ other : String, Text.Trims text.toList other.toList ↔ other = rest) ∧
      (∀ name : Name, parse text = .ok name ↔ name.Clean ∧ name.text = rest) ∧
      (parse text = .error (.missingLeadingSlash rest) ↔ rest.toList.head? ≠ some '/') ∧
      (parse text = .error (.emptyComponent rest) ↔
        rest.toList.head? = some '/' ∧ ∀ name : Name, name.Clean → name.text ≠ rest) ∧
      ∀ error, parse text = .error error →
        error = .missingLeadingSlash rest ∨ error = .emptyComponent rest := by
  have written (name : Name) :
      name.text = String.ofList (Text.trim text.toList) ↔ name.toChars = Text.trim text.toList :=
    String.ofList_inj
  refine ⟨String.ofList (Text.trim text.toList), fun other => ?_, fun name => ?_, ?_, ?_,
    fun _ => eq_of_parse_eq_error⟩
  · rw [Text.trims_iff, ← String.toList_inj, String.toList_ofList]
  · rw [written, parse_eq_ok_iff]
  · rw [String.toList_ofList, parse_eq_missingLeadingSlash_iff]
  · simp only [String.toList_ofList, ne_eq, written, parse_eq_emptyComponent_iff]

/-- Blanks are dropped at the ends only. -/
theorem parse_accepts_grammar_blanks :
    Clean ⟨["a ", " b"]⟩ ∧ text ⟨["a ", " b"]⟩ = "/a / b" ∧ parse " \u2003/a / b\n" = .ok ⟨["a ", " b"]⟩ := by
  obtain ⟨rest, trims, named, -⟩ := parse_accepts_grammar " \u2003/a / b\n"
  obtain rfl : "/a / b" = rest := (trims "/a / b").mp (Text.trims_iff.mpr (by decide))
  have clean : Clean ⟨["a ", " b"]⟩ := by
    intro component member
    rcases List.mem_pair.mp member with rfl | rfl <;> decide
  exact ⟨clean, by decide, (named _).mpr ⟨clean, by decide⟩⟩

/-- A second slash in a row and one at the end leave a component empty. -/
example : parse "\t//a" = .error (.emptyComponent "//a") ∧ parse "/a/ " = .error (.emptyComponent "/a/") ∧
    parse " a/b" = .error (.missingLeadingSlash "a/b") := by decide

end Name

end Overhear
