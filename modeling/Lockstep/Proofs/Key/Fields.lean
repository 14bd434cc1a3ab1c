import Lockstep.Proofs.Key.FlatForm
import Mathlib.Data.List.TakeWhile
import Mathlib.Data.Set.Function

/-!
# Keys and their fields

A key of the sub-field model is composed of a key and a field (`StateKey.withField`), and validation
splits it again at its first separator. Neither part may hold a separator, so splitting finds the
parts that a key was composed of (`splitField_withField`), and parts that pass their checks compose
a key that is valid.

The converse holds but for one form of keys. An empty field is composed without a separator, while
splitting gives an empty field also where nothing follows the separator. Such a dangling key is
valid and no composed key (`exists_valid_uncomposed`); all other valid keys are composed of their
parts and of no others (`validate_iff_isComposed_iff_not_isDangling`).
-/

namespace Lockstep

theorem separator_notMem_of_checkPart {part : KeyPart} {bs : Bytes}
    (h : checkPart part bs = .ok ()) : separator ∉ bs := by
  intro hmem
  have hbyte := (checkPart_eq_ok_iff.1 h).2 _ hmem
  rw [StateKey.isKeyByte_separator] at hbyte
  cases hbyte

theorem checkKeyField_eq_ok_iff {key field : Bytes} :
    checkKeyField key field = .ok () ↔
      key ≠ [] ∧ checkPart .key key = .ok () ∧ checkPart .field field = .ok () := by
  rw [checkKeyField]
  cases key with
  | nil => simp
  | cons b bs =>
    cases hkey : checkPart .key (b :: bs) with
    | error e => simp [bind, Except.bind]
    | ok u => simp [bind, Except.bind]

namespace StateKey

variable {contract : String} {key field octets : Bytes}

@[simp] theorem contract_withField (contract : String) (key field : Bytes) :
    (withField contract key field).contract = contract := by
  unfold withField
  split <;> rfl

/-! ## Splitting -/

theorem ne_separator_of_notMem (h : separator ∉ key) : ∀ b ∈ key, (b != separator) = true :=
  fun _ hb => bne_iff_ne.2 fun heq => h (heq ▸ hb)

theorem splitField_append (h : separator ∉ key) :
    splitField (key ++ separator :: field) = (key, field) := by
  rw [splitField, List.takeWhile_append_of_pos (ne_separator_of_notMem h),
    List.dropWhile_append_of_pos (ne_separator_of_notMem h)]
  simp

theorem splitField_of_notMem (h : separator ∉ key) : splitField key = (key, []) := by
  rw [splitField, List.takeWhile_eq_self_iff.2 (ne_separator_of_notMem h),
    List.dropWhile_eq_nil_iff.2 (ne_separator_of_notMem h), List.drop_nil]

/-- Splitting finds the parts again. -/
theorem splitField_withField (h : separator ∉ key) :
    splitField (withField contract key field).key = (key, field) := by
  unfold withField
  split
  · rename_i hfield
    rw [List.isEmpty_iff.1 hfield]
    exact splitField_of_notMem h
  · exact splitField_append h

/-- What splits into these parts is composed of them, or ends in the separator. -/
theorem splitField_eq_iff (contract : String) (octets field : Bytes) (h : separator ∉ key) :
    splitField octets = (key, field) ↔
      withField contract key field = ⟨contract, octets⟩ ∨
        field = [] ∧ octets = key ++ [separator] := by
  constructor
  · intro hsplit
    by_cases hmem : separator ∈ octets
    · obtain ⟨before, after, rfl, hbefore⟩ := List.eq_append_cons_of_mem hmem
      rw [splitField_append hbefore] at hsplit
      obtain ⟨rfl, rfl⟩ := Prod.mk.inj hsplit
      cases after with
      | nil => exact .inr ⟨rfl, rfl⟩
      | cons b bs => exact .inl rfl
    · rw [splitField_of_notMem hmem] at hsplit
      obtain ⟨rfl, rfl⟩ := Prod.mk.inj hsplit
      exact .inl rfl
  · rintro (hcomposed | ⟨rfl, rfl⟩)
    · have hparts : splitField (withField contract key field).key = (key, field) :=
        splitField_withField h
      rwa [hcomposed] at hparts
    · exact splitField_append h

/-! ## Validation -/

theorem validate_eq_ok_iff {k : StateKey} :
    k.validate = .ok () ↔ checkContractName k.contract = .ok () ∧
      checkKeyField (splitField k.key).1 (splitField k.key).2 = .ok () := by
  obtain ⟨contract, octets⟩ := k
  rw [validate]
  cases hname : checkContractName contract with
  | error e => simp [bind, Except.bind]
  | ok u =>
    cases octets with
    | nil =>
      simp [splitField, checkKeyField, bind, Except.bind, throw, throwThe, MonadExceptOf.throw]
    | cons b bs => simp [bind, Except.bind]

theorem checkContractName_of_validate {k : StateKey} (h : k.validate = .ok ()) :
    checkContractName k.contract = .ok () :=
  (validate_eq_ok_iff.1 h).1

theorem isRecord_of_validate {k : StateKey} (h : k.validate = .ok ()) : k.isRecord = false := by
  obtain ⟨contract, octets⟩ := k
  have hkey := (checkKeyField_eq_ok_iff.1 (validate_eq_ok_iff.1 h).2).1
  cases octets with
  | nil => exact absurd rfl hkey
  | cons b bs => rfl

theorem separator_notMem_of_checkKeyField (h : checkKeyField key field = .ok ()) :
    separator ∉ key :=
  separator_notMem_of_checkPart (checkKeyField_eq_ok_iff.1 h).2.1

theorem validate_withField (hname : checkContractName contract = .ok ())
    (hchecked : checkKeyField key field = .ok ()) :
    (withField contract key field).validate = .ok () := by
  rw [validate_eq_ok_iff, contract_withField,
    splitField_withField (separator_notMem_of_checkKeyField hchecked)]
  exact ⟨hname, hchecked⟩

/-! ## Composed keys and dangling ones -/

/-- The contract is well-named, and exactly one pair of an accepted key and field composes the
octets. -/
def IsComposed (k : StateKey) : Prop :=
  checkContractName k.contract = .ok () ∧ ∃! p : Bytes × Bytes,
    checkKeyField p.1 p.2 = .ok () ∧ withField k.contract p.1 p.2 = k

/-- The contract is well-named, and the octets are an accepted key with a separator behind it that
no field follows. -/
def IsDangling (k : StateKey) : Prop :=
  checkContractName k.contract = .ok () ∧
    ∃ key, checkKeyField key [] = .ok () ∧ k.key = key ++ [separator]

/-- No composed key ends in the separator. -/
theorem getLast?_withField_ne (h : checkKeyField key field = .ok ()) :
    (withField contract key field).key.getLast? ≠ some separator := by
  obtain ⟨-, hkey, hfield⟩ := checkKeyField_eq_ok_iff.1 h
  intro hlast
  cases field with
  | nil => exact separator_notMem_of_checkPart hkey (List.mem_of_getLast? hlast)
  | cons b bs =>
    have hsuffix : (key ++ separator :: b :: bs).getLast? = (b :: bs).getLast? := by
      rw [List.getLast?_append, List.getLast?_cons_cons, List.getLast?_cons, Option.some_or]
    exact separator_notMem_of_checkPart hfield (List.mem_of_getLast? (hsuffix ▸ hlast))

theorem not_isDangling_withField (h : checkKeyField key field = .ok ()) :
    ¬ (withField contract key field).IsDangling := by
  rintro ⟨-, front, -, hend⟩
  exact getLast?_withField_ne h (by rw [hend, List.getLast?_concat])

theorem IsDangling.not_isComposed {k : StateKey} (h : k.IsDangling) : ¬ k.IsComposed := by
  rintro ⟨-, p, ⟨hchecked, hcomposed⟩, -⟩
  exact not_isDangling_withField hchecked (hcomposed ▸ h)

theorem validate_iff_isComposed_or_isDangling {k : StateKey} :
    k.validate = .ok () ↔ k.IsComposed ∨ k.IsDangling := by
  constructor
  · intro h
    obtain ⟨hname, hchecked⟩ := validate_eq_ok_iff.1 h
    have hsplit := splitField_eq_iff k.contract k.key (splitField k.key).2
      (separator_notMem_of_checkKeyField hchecked)
    rcases hsplit.1 rfl with hcomposed | ⟨hfield, hend⟩
    · refine .inl ⟨hname, splitField k.key, ⟨hchecked, hcomposed⟩, ?_⟩
      rintro ⟨key, field⟩ ⟨hchecked', hcomposed'⟩
      rw [← hcomposed', splitField_withField (separator_notMem_of_checkKeyField hchecked')]
    · exact .inr ⟨hname, _, hfield ▸ hchecked, hend⟩
  · rintro (⟨hname, p, ⟨hchecked, hcomposed⟩, -⟩ | ⟨hname, key, hchecked, hend⟩)
    · exact hcomposed ▸ validate_withField hname hchecked
    · rw [validate_eq_ok_iff, hend,
        splitField_append (separator_notMem_of_checkKeyField hchecked)]
      exact ⟨hname, hchecked⟩

/-- The accepted parts of all contracts. -/
def acceptedParts : Set (String × Bytes × Bytes) :=
  {p | checkContractName p.1 = .ok () ∧ checkKeyField p.2.1 p.2.2 = .ok ()}

theorem injOn_withField :
    Set.InjOn (fun p : String × Bytes × Bytes => withField p.1 p.2.1 p.2.2) acceptedParts := by
  rintro ⟨contract, key, field⟩ ⟨-, hchecked⟩ ⟨contract', key', field'⟩ ⟨-, hchecked'⟩ heq
  have hcontract : contract = contract' := by simpa using congrArg StateKey.contract heq
  have hparts : (key, field) = (key', field') := by
    rw [← splitField_withField (separator_notMem_of_checkKeyField hchecked),
      ← splitField_withField (separator_notMem_of_checkKeyField hchecked')]
    exact congrArg (fun k => splitField k.key) heq
  rw [hcontract, hparts]

/-- Validation accepts exactly the composed keys and the dangling ones. So a key is treated as the
sub-field model has it, valid if and only if composed, exactly when it is not dangling; and
composing pairs the accepted parts, one to one, with the valid keys that are not dangling. -/
theorem validate_iff_isComposed_iff_not_isDangling (k : StateKey) :
    (k.validate = .ok () ↔ k.IsComposed ∨ k.IsDangling) ∧
      ((k.validate = .ok () ↔ k.IsComposed) ↔ ¬ k.IsDangling) ∧
      Set.BijOn (fun p : String × Bytes × Bytes => withField p.1 p.2.1 p.2.2) acceptedParts
        {k' | k'.validate = .ok () ∧ ¬ k'.IsDangling} := by
  refine ⟨validate_iff_isComposed_or_isDangling, ?_, ?_, injOn_withField, ?_⟩
  · rw [validate_iff_isComposed_or_isDangling]
    constructor
    · exact fun hmodel hdangling => hdangling.not_isComposed (hmodel.1 (.inr hdangling))
    · exact fun hnot => or_iff_left hnot
  · rintro ⟨contract, key, field⟩ ⟨hname, hchecked⟩
    exact ⟨validate_withField hname hchecked, not_isDangling_withField hchecked⟩
  · rintro k' ⟨hvalid, hnot⟩
    obtain ⟨hname, p, ⟨hchecked, hcomposed⟩, -⟩ :=
      (validate_iff_isComposed_or_isDangling.1 hvalid).resolve_right hnot
    exact ⟨⟨k'.contract, p⟩, ⟨hname, hchecked⟩, hcomposed⟩

/-- A valid key that is composed of no key and field: nothing follows its separator. -/
theorem exists_valid_uncomposed :
    (StateKey.mk "bank" [0x6b, separator]).validate = .ok () ∧
      ¬ ∃ key field, checkKeyField key field = .ok () ∧
        withField "bank" key field = ⟨"bank", [0x6b, separator]⟩ := by
  refine ⟨by decide, ?_⟩
  rintro ⟨key, field, hchecked, hcomposed⟩
  have hdangling : (StateKey.mk "bank" [0x6b, separator]).IsDangling :=
    ⟨by decide, [0x6b], by decide, rfl⟩
  rw [← hcomposed] at hdangling
  exact not_isDangling_withField hchecked hdangling

end StateKey

end Lockstep
