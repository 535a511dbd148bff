import Overhear.Proofs.Name.Text
import Overhear.Strategy.InstanceName

/-! Instance names that are accepted. A name is split at its last version component, so the names that pass
are the strategy's own, alone or with the supported version right after it, and all stand for one name. -/
namespace Overhear.InstanceName

variable {name : Name} {parts : InstanceName} {text : String}

/-- What a name consists of. Without a version component it is all strategy name; else the strategy's name
stands before the last version component, and parameters after it. -/
inductive Splits (name : Name) : InstanceName → Prop where
  | bare (unversioned : ∀ component ∈ name.components, isVersion component = false) :
      Splits name ⟨name, none, []⟩
  | versioned {before after : List String} {component : String} {version : UInt64}
      (split : name.components = before ++ component :: after)
      (decoded : Version.decode component = some version)
      (last : ∀ later ∈ after, isVersion later = false) :
      Splits name ⟨⟨before⟩, some version, after⟩

theorem isVersion_of_decode {component : String} {version : UInt64}
    (decoded : Version.decode component = some version) : isVersion component = true := by
  rw [isVersion, decoded, Option.isSome_some]

theorem Splits.eq_ofName (splits : Splits name parts) : parts = ofName name := by
  cases splits with
  | bare unversioned =>
    have none : name.components.reverse.dropWhile (!isVersion ·) = [] :=
      List.dropWhile_eq_nil_iff.mpr fun component member => by
        simp [unversioned component (List.mem_reverse.mp member)]
    simp only [ofName, none]
  | @versioned before after component version split decoded last =>
    have backward : name.components.reverse = after.reverse ++ component :: before.reverse := by
      simp [split]
    have skipped : ∀ later ∈ after.reverse, (!isVersion later) = true := fun later member => by
      simp [last later (List.mem_reverse.mp member)]
    have versioned := isVersion_of_decode decoded
    have dropped : name.components.reverse.dropWhile (!isVersion ·) = component :: before.reverse := by
      rw [backward, List.dropWhile_append_of_pos skipped]
      simp [versioned]
    have taken : name.components.reverse.takeWhile (!isVersion ·) = after.reverse := by
      rw [backward, List.takeWhile_append_of_pos skipped]
      simp [versioned]
    simp only [ofName, dropped, taken, decoded, List.reverse_reverse]

theorem splits_ofName (name : Name) : Splits name (ofName name) := by
  have whole := List.takeWhile_append_dropWhile (p := (!isVersion ·)) (l := name.components.reverse)
  have stop := List.head?_dropWhile_not (!isVersion ·) name.components.reverse
  unfold ofName
  dsimp only
  split
  · rename_i none
    refine .bare fun component member => ?_
    simpa using List.dropWhile_eq_nil_iff.mp none component (List.mem_reverse.mpr member)
  · rename_i component before found
    rw [found] at whole stop
    obtain ⟨version, decoded⟩ := Option.isSome_iff_exists.mp (show isVersion component = true by simpa using stop)
    rw [decoded]
    refine .versioned ?_ decoded fun later member => ?_
    · refine List.reverse_injective (whole.symm.trans ?_)
      simp
    · simpa using List.mem_takeWhile_imp (List.mem_reverse.mp member)

/-- The answer for a text whose name has these parts. The first thing that is wrong with them counts. -/
inductive Judged (text : String) : InstanceName → Except ForwardingError Name → Prop where
  | otherStrategy {parts : InstanceName} (other : parts.strategy ≠ strategyName) :
      Judged text parts (.error (.configuration (.notThisStrategy text)))
  | parameters {version : Option UInt64} {parameters : List String} (given : parameters ≠ []) :
      Judged text ⟨strategyName, version, parameters⟩ (.error (.configuration .parameters))
  | unsupported {version : UInt64} (other : version ≠ supportedVersion.toUInt64) :
      Judged text ⟨strategyName, some version, []⟩
        (.error (.configuration (.unsupportedVersion version)))
  | supported {version : Option UInt64} (own : ∀ number ∈ version, number = supportedVersion.toUInt64) :
      Judged text ⟨strategyName, version, []⟩ (.ok canonical)

theorem judged_validate (parsed : Name.parse text = .ok name) :
    Judged text (ofName name) (validate text) := by
  have thrown (cause : ForwardingError) : (throw cause : Except ForwardingError Unit) = .error cause := rfl
  unfold validate
  simp only [parsed, Except.mapError, bind, Except.bind]
  generalize ofName name = parts
  obtain ⟨strategy, version, parameters⟩ := parts
  by_cases same : strategy = strategyName
  · subst same
    cases parameters with
    | cons first others => simpa [thrown] using Judged.parameters (List.cons_ne_nil first others)
    | nil =>
      cases version with
      | none => exact .supported nofun
      | some version =>
        by_cases own : version = supportedVersion.toUInt64
        · subst own
          exact .supported fun _ same => (Option.some.inj same).symm
        · simpa [thrown, own] using Judged.unsupported own
  · simpa [thrown, same] using Judged.otherStrategy same

/-- The strategy's name, alone or with a component right after it that gives the supported version. -/
def Supported (name : Name) : Prop :=
  name.components = strategyName.components ∨ ∃ component,
    Version.decode component = some supportedVersion.toUInt64 ∧
      name.components = strategyName.components ++ [component]

theorem isVersion_strategyName : ∀ component ∈ strategyName.components, isVersion component = false := by
  decide

theorem supported_iff : Supported name ↔ ∃ version, Splits name ⟨strategyName, version, []⟩ ∧
    ∀ number ∈ version, number = supportedVersion.toUInt64 := by
  constructor
  · rintro (same | ⟨component, decoded, longer⟩)
    · obtain rfl : name = strategyName := congrArg Name.mk same
      exact ⟨none, .bare isVersion_strategyName, nofun⟩
    · exact ⟨_, .versioned longer decoded nofun, fun _ same => (Option.some.inj same).symm⟩
  · rintro ⟨version, splits, own⟩
    cases splits with
    | bare _ => exact .inl rfl
    | versioned split decoded _ => exact .inr ⟨_, decoded.trans (congrArg some (own _ rfl)), split⟩

/-- No version component stands anywhere but right after the strategy's name, and nothing follows it there. -/
def VersionedLast (name : Name) : Prop :=
  ∀ index component, name.components[index]? = some component → isVersion component = true →
    index = strategyName.length ∧ name.length = index + 1

theorem Supported.versionedLast (supported : Supported name) : VersionedLast name := by
  intro index component found versioned
  have outside : component ∉ strategyName.components := fun member => by
    simp [isVersion_strategyName component member] at versioned
  rcases supported with same | ⟨last, -, longer⟩
  · exact absurd (same ▸ List.mem_of_getElem? found) outside
  · rw [longer] at found
    simp only [Name.length, longer, List.length_append, List.length_singleton]
    rcases Nat.lt_or_ge index strategyName.components.length with before | after
    · rw [List.getElem?_append_left before] at found
      exact absurd (List.mem_of_getElem? found) outside
    · rw [List.getElem?_append_right after, List.getElem?_singleton] at found
      split at found
      · omega
      · cases found

theorem validate_eq_ok_iff (parsed : Name.parse text = .ok name) (answer : Name) :
    validate text = .ok answer ↔ answer = canonical ∧ Supported name := by
  have judged := judged_validate parsed
  rw [supported_iff]
  constructor
  · intro accepted
    have splits := splits_ofName name
    rw [accepted] at judged
    generalize ofName name = parts at judged splits
    cases judged with
    | supported own => exact ⟨rfl, _, splits, own⟩
  · rintro ⟨rfl, version, splits, own⟩
    rw [← splits.eq_ofName] at judged
    generalize validate text = verdict at judged
    cases judged with
    | otherStrategy other => exact absurd rfl other
    | parameters given => exact absurd rfl given
    | unsupported other => exact absurd (own _ rfl) other
    | supported _ => rfl

theorem validate_of_parse_error {cause : NameError} (unread : Name.parse text = .error cause) :
    validate text = .error (.name cause) := by
  simp only [validate, unread, Except.mapError, bind, Except.bind]

/-- A text is accepted exactly when it is a name that consists of the strategy's own, alone or with one more
component that gives the supported version. It then stands for the canonical name, which is accepted
itself. No name is accepted that has a version component at another place or anything after one, and
whatever is wrong with a name that can be read is a fault of the configuration. -/
theorem supported_names_accepted (text : String) :
    (∀ answer, validate text = .ok answer ↔
      answer = canonical ∧ ∃ name, Name.parse text = .ok name ∧ Supported name) ∧
    validate canonical.text = .ok canonical ∧
    (∀ name answer, Name.parse text = .ok name → validate text = .ok answer → VersionedLast name) ∧
    ∀ name error, Name.parse text = .ok name → validate text = .error error →
      ∃ fault, error = .configuration fault := by
  refine ⟨fun answer => ?_, by decide, fun name answer parsed accepted => ?_,
    fun name error parsed refused => ?_⟩
  · cases parsed : Name.parse text with
    | ok name => simp [validate_eq_ok_iff parsed]
    | error cause => simp [validate_of_parse_error parsed]
  · exact ((validate_eq_ok_iff parsed answer).mp accepted).2.versionedLast
  · have judged := judged_validate parsed
    rw [refused] at judged
    generalize ofName name = parts at judged
    cases judged <;> exact ⟨_, rfl⟩

/-- The version may be written with more bytes than it needs. -/
theorem supported_names_accepted_padded :
    validate "/localhost/nfd/strategy/clf/%FD%00%03 " = .ok canonical ∧
      VersionedLast ⟨strategyName.components ++ ["%FD%00%03"]⟩ := by
  have parsed : Name.parse "/localhost/nfd/strategy/clf/%FD%00%03 " =
      .ok ⟨strategyName.components ++ ["%FD%00%03"]⟩ := by decide
  obtain ⟨accepted, -, last, -⟩ := supported_names_accepted "/localhost/nfd/strategy/clf/%FD%00%03 "
  have canonically := (accepted canonical).mpr ⟨rfl, _, parsed, .inr ⟨"%FD%00%03", by decide, rfl⟩⟩
  exact ⟨canonically, last _ _ parsed canonically⟩

/-- A second version component makes the first a part of the strategy's name. -/
example : validate "/localhost/nfd/strategy/clf/%FD%03/%FD%03" =
    .error (.configuration (.notThisStrategy "/localhost/nfd/strategy/clf/%FD%03/%FD%03")) := by
  decide

end Overhear.InstanceName
