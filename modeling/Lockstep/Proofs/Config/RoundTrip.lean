import Lockstep.Config.Text
import Lockstep.Proofs.Yaml.Decimals
import Mathlib.Data.List.Nodup

/-!
# Writing and reading configurations

The name of a field names that field only, and a value is read as itself, so every line that is
written sets its field to its value. Reading remembers the fields it has met: what is accepted has
known keys, each of them once (`Config.keys_of_setAll?`). With the reading of lines as a mapping
this gives the round trip (`Config.text_round_trip`).
-/

namespace Lockstep.Config

open Yaml (Node Scalar Line IsWord Token Scan)

/-! ## Fields and values -/

/-- The numbers of a configuration have 64 bits. -/
structure InRange (c : Config) : Prop where
  concurrencyLevel : c.concurrencyLevel < Bytes.range64
  maxCallDepth : c.maxCallDepth < Bytes.range64
  gasLimit : c.gasLimit < Bytes.range64
  scheduleTimeoutMs : c.scheduleTimeoutMs < Bytes.range64
  maxGovernanceRetries : c.maxGovernanceRetries < Bytes.range64

/-- The configuration `base` with the values that `c` has in the listed fields. -/
def withFields (base c : Config) (fields : List Field) : Config where
  concurrencyLevel :=
    if .concurrencyLevel ∈ fields then c.concurrencyLevel else base.concurrencyLevel
  maxCallDepth := if .maxCallDepth ∈ fields then c.maxCallDepth else base.maxCallDepth
  gasLimit := if .gasLimit ∈ fields then c.gasLimit else base.gasLimit
  scheduleTimeoutMs :=
    if .scheduleTimeoutMs ∈ fields then c.scheduleTimeoutMs else base.scheduleTimeoutMs
  conflictPolicy := if .conflictPolicy ∈ fields then c.conflictPolicy else base.conflictPolicy
  maxGovernanceRetries :=
    if .maxGovernanceRetries ∈ fields then c.maxGovernanceRetries else base.maxGovernanceRetries

variable {base b c : Config} {field : Field} {fields seen : List Field}

@[simp] theorem withFields_nil (base c : Config) : base.withFields c [] = base := by
  simp [withFields]

@[simp] theorem withFields_all (base c : Config) : base.withFields c Field.all = c := by
  simp [withFields, Field.all]

theorem withFields_cons (base c : Config) (field : Field) (fields : List Field) :
    (base.withFields c [field]).withFields c fields = base.withFields c (field :: fields) := by
  cases field <;> simp [withFields]

theorem Field.ofName?_name (field : Field) : ofName? field.name = some field := by
  cases field <;> rfl

theorem Field.ofName?_eq_none {name : String} (h : ∀ field : Field, field.name ≠ name) :
    ofName? name = none :=
  List.find?_eq_none.2 fun field _ => by simpa using h field

theorem Field.isWord_name (field : Field) : IsWord field.name := by
  cases field <;> exact .of_all (by decide) (by decide)

theorem Field.length_name (field : Field) : field.name.length ≤ 1024 := by
  cases field <;> decide

theorem isWord_valueText (c : Config) (field : Field) : IsWord (c.valueText field) := by
  cases field with
  | conflictPolicy =>
    rw [valueText]
    cases c.conflictPolicy <;> exact .of_all (by decide) (by decide)
  | _ => exact Yaml.isWord_toString _

/-- The line of a field. -/
def fieldLine (c : Config) (field : Field) : Line where
  key := field.name
  value := c.valueText field
  isWord_key := field.isWord_name
  length_key := field.length_name
  isWord_value := c.isWord_valueText field

theorem block_eq (c : Config) (fields : List Field) :
    c.block fields = Line.block (fields.map c.fieldLine) := by
  rw [block, Line.block, List.map_map]
  rfl

/-- What is written for a field is read as its value. -/
theorem set?_valueText (hc : c.InRange) (base : Config) (field : Field) :
    base.set? field (.scalar ⟨.plain, c.valueText field, none⟩) =
      some (base.withFields c [field]) := by
  cases field with
  | conflictPolicy =>
    have hpolicy : readPolicy? (.scalar ⟨.plain, c.conflictPolicy.text, none⟩) =
        some c.conflictPolicy := by
      cases c.conflictPolicy <;> rfl
    simp [set?, valueText, hpolicy, withFields]
  | concurrencyLevel =>
    simp [set?, valueText, readNumber?, Scalar.natural?_repr hc.concurrencyLevel, withFields]
  | maxCallDepth =>
    simp [set?, valueText, readNumber?, Scalar.natural?_repr hc.maxCallDepth, withFields]
  | gasLimit =>
    simp [set?, valueText, readNumber?, Scalar.natural?_repr hc.gasLimit, withFields]
  | scheduleTimeoutMs =>
    simp [set?, valueText, readNumber?, Scalar.natural?_repr hc.scheduleTimeoutMs, withFields]
  | maxGovernanceRetries =>
    simp [set?, valueText, readNumber?, Scalar.natural?_repr hc.maxGovernanceRetries,
      withFields]

theorem setAll?_cons {key value : Node} {rest : List (Node × Node)} {base' : Config}
    (hkey : fieldOfKey? key = some field) (hnew : field ∉ seen)
    (hset : base.set? field value = some base') :
    base.setAll? seen ((key, value) :: rest) = base'.setAll? (field :: seen) rest := by
  simp [setAll?, hkey, hnew, hset]

/-- Fields that are new and distinct are set to what was written for them. -/
theorem setAll?_fieldLine (hc : c.InRange) (hnodup : fields.Nodup)
    (hseen : ∀ field ∈ fields, field ∉ seen) (base : Config) :
    base.setAll? seen ((fields.map c.fieldLine).map Line.entry) =
      some (base.withFields c fields) := by
  induction fields generalizing base seen with
  | nil => simp [setAll?]
  | cons field fields ih =>
    obtain ⟨hfield, hfields⟩ := List.nodup_cons.1 hnodup
    have hothers : ∀ field' ∈ fields, field' ∉ field :: seen := by
      intro field' h'
      rw [List.mem_cons, not_or]
      refine ⟨?_, hseen field' (by simp [h'])⟩
      rintro rfl
      exact hfield h'
    have hkey : fieldOfKey? (.scalar ⟨.plain, field.name, none⟩) = some field := field.ofName?_name
    have hset := set?_valueText hc base field
    rw [List.map_cons, List.map_cons, Line.entry]
    exact (setAll?_cons hkey (hseen field (by simp)) hset).trans
      ((ih hfields hothers _).trans (by rw [withFields_cons]))

/-- What is read has known keys, none twice and none among those seen before. -/
theorem keys_of_setAll? {entries : List (Node × Node)} (h : base.setAll? seen entries = some b) :
    ∃ fields : List Field, entries.map (fieldOfKey? ·.1) = fields.map some ∧ fields.Nodup ∧
      ∀ field ∈ fields, field ∉ seen := by
  induction entries generalizing base seen with
  | nil => exact ⟨[], rfl, .nil, by simp⟩
  | cons entry rest ih =>
    obtain ⟨key, value⟩ := entry
    simp only [setAll?, Option.bind_eq_bind, Option.bind_eq_some_iff] at h
    obtain ⟨field, hkey, h⟩ := h
    split at h
    · cases h
    · rename_i hseen
      obtain ⟨base', -, h⟩ := Option.bind_eq_some_iff.1 h
      obtain ⟨fields, hkeys, hnodup, hnew⟩ := ih h
      have hfield : field ∉ fields := fun hmem => hnew field hmem (by simp)
      refine ⟨field :: fields, by simp [hkey, hkeys], List.nodup_cons.2 ⟨hfield, hnodup⟩, ?_⟩
      intro field' h'
      obtain rfl | h' := List.mem_cons.1 h'
      · simpa using hseen
      · exact fun hmem => hnew field' h' (by simp [hmem])

/-! ## Texts -/

/-- The text of the mapping that gives the listed fields their values. A block has an entry at
least; the mapping without any is written in brackets. -/
def mappingText (c : Config) (fields : List Field) : String :=
  if fields = [] then "\x7b\x7d\n" else c.block fields

theorem parse?_brackets : Node.parse? "\x7b\x7d\n" = some (.mapping []) := by
  have hscan : Token.scan? "\x7b\x7d\n" = some [.flowMapping, .flowMappingEnd] := by
    have hinput : Yaml.Input.ofString "\x7b\x7d\n" = ⟨{}, ['\x7b', '\x7d', '\n']⟩ := by
      simp [Yaml.Input.ofString]
    rw [Token.scan?, hinput]
    exact (Scan.run_succ rfl rfl rfl).trans ((Scan.run_succ rfl rfl rfl).trans rfl)
  rw [Node.parse?, hscan]
  simp [Node.ofTokens?, Node.read, Node.flowEntries, Node.properties, Node.Stream.drop,
    Node.Stream.mark]

theorem parse?_mappingText (hc : c.InRange) (hnodup : fields.Nodup) (cores : Nat) :
    parse? (c.mappingText fields) cores = some ((onCores cores).withFields c fields) := by
  by_cases hfields : fields = []
  · subst hfields
    rw [parse?, mappingText, if_pos rfl, parse?_brackets, withFields_nil]
    rfl
  · have hlines : fields.map c.fieldLine ≠ [] := by simpa using hfields
    rw [parse?, mappingText, if_neg hfields, block_eq, Node.parse?_block hlines]
    exact setAll?_fieldLine hc hnodup (by simp) _

theorem parse?_render (hc : c.InRange) (cores : Nat) : parse? c.render cores = some c := by
  have hlines : Field.all.map c.fieldLine ≠ [] := by simp [Field.all]
  rw [parse?, render, block_eq, Node.parse?_document hlines]
  refine (setAll?_fieldLine hc (by decide) (by simp) (onCores cores)).trans ?_
  rw [withFields_all]

/-- A mapping is refused if a key of it is unknown or two of them name the same field. -/
theorem parse?_eq_none {text : String} {entries : List (Node × Node)}
    (htext : Node.parse? text = some (.mapping entries))
    (hkeys : ¬ (entries.map (fieldOfKey? ·.1)).Nodup ∨ none ∈ entries.map (fieldOfKey? ·.1))
    (cores : Nat) : parse? text cores = none := by
  rw [Option.eq_none_iff_forall_ne_some]
  intro b hb
  rw [parse?, htext] at hb
  have hset : (onCores cores).setAll? [] entries = some b := hb
  obtain ⟨fields, hfields, hnodup, -⟩ := keys_of_setAll? hset
  rw [hfields] at hkeys
  obtain hkeys | hkeys := hkeys
  · exact hkeys (hnodup.map fun _ _ => Option.some.inj)
  · simp at hkeys

theorem parse?_block_eq_none {lines : List Line}
    (hkeys : ¬ (lines.map Line.key).Nodup ∨ ∃ l ∈ lines, ∀ field : Field, field.name ≠ l.key)
    (cores : Nat) : parse? (Line.block lines) cores = none := by
  have hlines : lines ≠ [] := by
    rintro rfl
    simp at hkeys
  have hfields : (lines.map Line.entry).map (fieldOfKey? ·.1) =
      (lines.map Line.key).map Field.ofName? := by
    simp [Function.comp_def, Line.entry, fieldOfKey?]
  refine parse?_eq_none (Node.parse?_block hlines) ?_ cores
  rw [hfields]
  obtain hkeys | ⟨l, hl, hunknown⟩ := hkeys
  · exact .inl fun hnodup => hkeys (.of_map _ hnodup)
  · right
    rw [← Field.ofName?_eq_none hunknown]
    exact List.mem_map_of_mem (List.mem_map_of_mem hl)

theorem load_of_parse? {file : File} {text : String} (hfile : file.content = some text)
    {cores : Nat} : load file cores = ((parse? text cores).elim (.error .malformed) .ok) := by
  simp only [load, hfile]
  cases parse? text cores <;> rfl

/-- What is written is read back: a saved configuration as it was, and a mapping of some of its
fields, in any order, as the defaults of the machine with those fields replaced. A mapping with an
unknown key or a repeated one is malformed, however it is written. -/
theorem text_round_trip (hc : c.InRange) (cores : Nat) :
    (∀ file : File, file.folderExists = true →
      ∃ text, c.save file = .ok { file with content := some text } ∧
        parse? text cores = some c ∧ load { file with content := some text } cores = .ok c) ∧
    (∀ fields : List Field, fields.Nodup →
      parse? (c.mappingText fields) cores = some ((onCores cores).withFields c fields)) ∧
    (∀ (lines : List Line) (file : File), file.content = some (Line.block lines) →
      (¬ (lines.map Line.key).Nodup ∨ ∃ l ∈ lines, ∀ field : Field, field.name ≠ l.key) →
      load file cores = .error .malformed) ∧
    (∀ (text : String) (entries : List (Node × Node)) (file : File), file.content = some text →
      Node.parse? text = some (.mapping entries) →
      (¬ (entries.map (fieldOfKey? ·.1)).Nodup ∨ none ∈ entries.map (fieldOfKey? ·.1)) →
      load file cores = .error .malformed) := by
  refine ⟨fun file hfolder => ⟨c.render, ?_, parse?_render hc cores, ?_⟩,
    fun fields hnodup => parse?_mappingText hc hnodup cores, ?_, ?_⟩
  · rw [save, if_pos hfolder]
  · rw [load_of_parse? rfl, parse?_render hc cores]
    rfl
  · intro lines file hfile hkeys
    rw [load_of_parse? hfile, parse?_block_eq_none hkeys cores]
    rfl
  · intro text entries file hfile htext hkeys
    rw [load_of_parse? hfile, parse?_eq_none htext hkeys cores]
    rfl

/-- A configuration with numbers at both ends of their range. -/
def widest : Config where
  concurrencyLevel := 0
  maxCallDepth := 18446744073709551615
  gasLimit := 18446744073709551615
  scheduleTimeoutMs := 0
  conflictPolicy := .defer
  maxGovernanceRetries := 18446744073709551615

/-- A line with the name of no field. -/
def strayLine : Line where
  key := "max_depth"
  value := "3"
  isWord_key := .of_all (by decide) (by decide)
  length_key := by decide
  isWord_value := .of_all (by decide) (by decide)

theorem text_round_trip_widest :
    widest.InRange ∧ load ⟨true, some widest.render⟩ 8 = .ok widest ∧
      [Field.conflictPolicy, .gasLimit].Nodup ∧
      parse? "conflict_policy: defer\ngas_limit: 18446744073709551615\n" 8 =
        some { concurrencyLevel := 8, gasLimit := 18446744073709551615, conflictPolicy := .defer } ∧
      load ⟨true, some "max_depth: 3\n"⟩ 8 = .error .malformed ∧
      load ⟨true, some "gas_limit: 0\ngas_limit: 0\n"⟩ 8 = .error .malformed := by
  have hrange : widest.InRange := ⟨by decide, by decide, by decide, by decide, by decide⟩
  obtain ⟨hsave, hfields, hlines, -⟩ := text_round_trip hrange 8
  have hnodup : [Field.conflictPolicy, .gasLimit].Nodup := by decide
  have htext : "conflict_policy: defer\ngas_limit: 18446744073709551615\n" =
      widest.mappingText [.conflictPolicy, .gasLimit] := by decide
  have hstray : "max_depth: 3\n" = Line.block [strayLine] := by decide
  have hrepeated : "gas_limit: 0\ngas_limit: 0\n" =
      Line.block ([.gasLimit, .gasLimit].map { widest with gasLimit := 0 }.fieldLine) := by decide
  refine ⟨hrange, ?_, hnodup, ?_, ?_, ?_⟩
  · obtain ⟨text, hsaved, -, hload⟩ := hsave ⟨true, none⟩ rfl
    cases hsaved
    exact hload
  · rw [htext]
    exact hfields _ hnodup
  · refine hlines [strayLine] _ (congrArg some hstray) (.inr ⟨strayLine, by simp, ?_⟩)
    intro field
    cases field <;> decide
  · exact hlines _ _ (congrArg some hrepeated) (.inl (by decide))

end Lockstep.Config
