import Lockstep.Yaml.Node
import Mathlib.Data.List.TakeWhile

/-!
# Block mappings of words

A text with one `key: value` line per entry, where keys and values are words, is one document: the
mapping of its entries, in their order and with all repetitions (`Node.parse?_block`). The scanner
takes three steps for a line, to the colon, past it and to the next line (`Scan.run_line`), and is
then at the start of a line again, with the tokens of this one found; the rest is an induction over
the lines.
-/

namespace Lockstep.Yaml

/-! ## Words and lines -/

/-- The characters that mean nothing but themselves, wherever they stand. -/
def isWordChar (ch : Char) : Bool := isNameChar ch && ch != '-'

/-- A text that is plain in any place. -/
structure IsWord (text : String) : Prop where
  ne_nil : text.toList ≠ []
  chars : ∀ ch ∈ text.toList, isWordChar ch = true

theorem IsWord.of_all {text : String} (hne : text.toList.isEmpty = false)
    (hall : text.toList.all isWordChar = true) : IsWord text where
  ne_nil := List.isEmpty_eq_false_iff.1 hne
  chars := List.all_eq_true.1 hall

/-- An entry on a line of its own. -/
structure Line where
  key : String
  value : String
  isWord_key : IsWord key
  /-- A colon further right would come too late for the key. -/
  length_key : key.length ≤ 1024
  isWord_value : IsWord value

namespace Line

def text (l : Line) : String := l.key ++ ": " ++ l.value ++ "\n"

def chars (l : Line) : List Char := l.key.toList ++ ':' :: ' ' :: (l.value.toList ++ ['\n'])

def tokens (l : Line) : List Token :=
  [.key, .scalar .plain l.key, .value, .scalar .plain l.value]

def entry (l : Line) : Node × Node :=
  (.scalar ⟨.plain, l.key, none⟩, .scalar ⟨.plain, l.value, none⟩)

@[simp] theorem toList_text (l : Line) : l.text.toList = l.chars := by
  simp [text, chars]

/-- The text of several lines. -/
def block (lines : List Line) : String := String.join (lines.map text)

/-- The tokens of several lines. -/
def blockTokens (lines : List Line) : List Token :=
  .blockMapping :: (lines.flatMap tokens ++ [.blockEnd])

theorem toList_block (lines : List Line) : (block lines).toList = lines.flatMap chars := by
  simp [block, List.flatMap_map]

end Line

section Chars

variable {ch c : Char} {next : Option Char} {margin bound : Nat} {p : Position} {w cs : List Char}

theorem ne_of_isWordChar (h : isWordChar ch = true) (hc : isWordChar c = false) :
    (ch == c) = false := by
  rw [beq_eq_false_iff_ne]
  rintro rfl
  rw [h] at hc
  cases hc

theorem isBreak_of_isWordChar (h : isWordChar ch = true) : isBreak ch = false := by
  simp (disch := decide) only [isBreak, ne_of_isWordChar h, Bool.or_self]

theorem isSpace_of_isWordChar (h : isWordChar ch = true) : isSpace ch = false := by
  simp (disch := decide) only [isSpace, isBlank, isBreak_of_isWordChar h, ne_of_isWordChar h,
    Bool.or_self]

theorem stops_of_isWordChar (h : isWordChar ch = true) : Plain.stops false ch next = false := by
  simp (disch := decide) only [Plain.stops, isSpace_of_isWordChar h, ne_of_isWordChar h,
    Bool.false_and, Bool.or_self]

/-! ## Positions -/

/-- The position `n` characters further on the same line. -/
def Position.right (p : Position) (n : Nat) : Position := ⟨p.index + n, p.line, p.column + n⟩

@[simp] theorem Position.right_right (p : Position) (m n : Nat) :
    (p.right m).right n = p.right (m + n) := by
  simp [right, Nat.add_assoc]

theorem Position.foldl_after (hw : ∀ ch ∈ w, isWordChar ch = true) (p : Position) :
    w.foldl after p = p.right w.length := by
  induction w generalizing p with
  | nil => rfl
  | cons ch w ih =>
    have hbreak := ne_of_isWordChar (hw ch (by simp)) (c := '\n') (by decide)
    rw [List.foldl_cons, ih (fun ch' h => hw ch' (by simp [h]))]
    simp [after, hbreak, right, Nat.add_assoc, Nat.add_comm 1]

theorem Input.skip_word (hw : ∀ ch ∈ w, isWordChar ch = true) :
    (⟨p, w ++ cs⟩ : Input).skip w.length = ⟨p.right w.length, cs⟩ := by
  simp [skip, Position.foldl_after hw]

theorem Input.documentMark?_cons (hdash : ch ≠ '-') (hpoint : ch ≠ '.') :
    (⟨p, ch :: cs⟩ : Input).documentMark? = none := by
  unfold Input.documentMark?
  split
  · rename_i heq
    cases heq
    simp [hdash, hpoint]
  · rfl

theorem Input.documentMark?_of_isWordChar (h : isWordChar ch = true) :
    (⟨p, ch :: cs⟩ : Input).documentMark? = none :=
  documentMark?_cons (beq_eq_false_iff_ne.1 (ne_of_isWordChar h (by decide)))
    (beq_eq_false_iff_ne.1 (ne_of_isWordChar h (by decide)))

/-! ## Plain texts -/

namespace Plain

theorem word_append (hw : ∀ ch ∈ w, isWordChar ch = true)
    (hstops : stops false c cs.head? = true) : word false (w ++ c :: cs) = w := by
  induction w with
  | nil => simp [word, hstops]
  | cons ch w ih =>
    rw [List.cons_append, word, stops_of_isWordChar (hw ch (by simp)),
      ih fun ch' h => hw ch' (by simp [h])]
    rfl

/-- Neither a document nor a comment starts at a word. -/
theorem starts_append (hne : w ≠ []) (hw : ∀ ch ∈ w, isWordChar ch = true) :
    ((⟨p, w ++ cs⟩ : Input).documentMark?.isSome || (⟨p, w ++ cs⟩ : Input).next == some '#') =
      false := by
  obtain ⟨ch, w', rfl⟩ := List.exists_cons_of_ne_nil hne
  have hch := hw ch (by simp)
  have hcomment : ((⟨p, ch :: w' ++ cs⟩ : Input).next == some '#') = false :=
    ne_of_isWordChar hch (by decide)
  rw [hcomment, List.cons_append, Input.documentMark?_of_isWordChar hch]
  rfl

/-- A key ends at its colon. -/
theorem read_key (hne : w ≠ []) (hw : ∀ ch ∈ w, isWordChar ch = true) :
    read false margin (bound + 1) ⟨p, w ++ ':' :: ' ' :: cs⟩ =
      some ⟨w, false, ⟨p.right w.length, ':' :: ' ' :: cs⟩⟩ := by
  have hword : word false (w ++ ':' :: ' ' :: cs) = w := word_append hw rfl
  rw [read, starts_append hne hw]
  simp only [hword, Input.skip_word hw]
  rfl

/-- A value ends with its line, if the next line starts left of the margin. -/
theorem read_value (hne : w ≠ []) (hw : ∀ ch ∈ w, isWordChar ch = true)
    (hcs : cs.takeWhile isSpace = []) :
    read false (margin + 1) (bound + 1) ⟨p, w ++ '\n' :: cs⟩ =
      some ⟨w, true, ⟨(p.right w.length).after '\n', cs⟩⟩ := by
  have hgap : ('\n' :: cs).takeWhile isSpace = ['\n'] := by
    rw [List.takeWhile_cons_of_pos rfl, hcs]
  have hword : word false (w ++ '\n' :: cs) = w := word_append hw rfl
  rw [read, starts_append hne hw]
  simp only [hword, Input.skip_word hw, hgap]
  rfl

end Plain

end Chars

/-! ## The scanner -/

namespace Scan

variable {s s' : Scan} {fuel : Nat} {ch : Char} {cs : List Char}

theorem run_succ (hadvance : s.advance? = some s') {s'' : Scan} (hrest : s'.input.rest = ch :: cs)
    (htoken : s'.token? ch cs.head? = some s'') : run (fuel + 1) s = run fuel s'' := by
  rw [run, hadvance]
  simp only [hrest, htoken]

/-- No block is open, or one at the first column. -/
def AtMargin (s : Scan) : Prop := s.outerKeys = [] ∧ (s.indents = [] ∨ s.indents = [0])

theorem closeBlocks_eq_self (h : s.AtMargin) : s.closeBlocks (s.column < ·) = s := by
  obtain ⟨input, bound, found, indents, key, outerKeys, keyAllowed, quotedEnd⟩ := s
  obtain ⟨-, rfl | rfl⟩ := h <;> simp [closeBlocks]

/-- Where a token starts there is nothing to pass, and no key or block ends. -/
theorem advance?_eq_self (h : s.AtMargin)
    (hgap : passGap false false s.keyAllowed s.input.position s.input.rest =
      (s.input, s.keyAllowed))
    (hkey : freshKey? s.input.position s.key = some s.key) : s.advance? = some s := by
  have houter : s.outerKeys.mapM (freshKey? s.input.position) = some s.outerKeys := by
    rw [h.1]
    rfl
  have hsame : s.dropStaleKeys? = some s := by
    simp [dropStaleKeys?, hkey, houter]
  have hflow : s.inFlow = false := by
    simp [inFlow, h.1]
  rw [advance?, hflow, hgap]
  simp only [hsame, Option.bind_eq_bind, Option.bind_some]
  exact congrArg some (closeBlocks_eq_self h)

theorem passGap_of_isWordChar (h : isWordChar ch = true) (allowed : Bool) (p : Position) :
    passGap false false allowed p (ch :: cs) = (⟨p, ch :: cs⟩, allowed) := by
  simp (disch := decide) [passGap, isBreak_of_isWordChar h, ne_of_isWordChar h]

theorem token?_of_isWordChar (h : isWordChar ch = true) (hrest : s.input.rest = ch :: cs)
    (next : Option Char) : s.token? ch next = s.plainScalar? := by
  have hmark : s.input.documentMark? = none := by
    obtain ⟨⟨p, rest⟩, _⟩ := s
    cases hrest
    exact Input.documentMark?_of_isWordChar h
  simp (disch := decide) only [token?, hmark, ne_of_isWordChar h, Bool.false_and, Bool.or_self,
    Bool.false_eq_true, if_false]
  rfl

theorem token?_colon (hrest : s.input.rest = ':' :: cs) {next : Option Char}
    (hnext : s.startsValue next = true) : s.token? ':' next = s.value? := by
  have hmark : s.input.documentMark? = none := by
    obtain ⟨⟨p, rest⟩, _⟩ := s
    cases hrest
    exact Input.documentMark?_cons (by decide) (by decide)
  simp [token?, hmark, hnext]

variable {p : Position} {bound : Nat} {found : Found} {indents : List Nat}

/-- The state at the start of a line. -/
def atLine (input : Input) (bound : Nat) (found : Found) (indents : List Nat) : Scan :=
  { input, bound, found, indents }

/-- The state at the colon of a line that starts at `p`, behind its key. -/
def atColon (input : Input) (bound : Nat) (found : Found) (indents : List Nat) (p : Position)
    (key : String) : Scan where
  input := input
  bound := bound
  found := found.push (.scalar .plain key)
  indents := indents
  key := some ⟨p, false, found.count⟩
  keyAllowed := false

/-- The state behind the colon of a line. -/
def atValue (input : Input) (bound : Nat) (found : Found) : Scan :=
  { input, bound, found, indents := [0], keyAllowed := false }

/-- The tokens behind the colon of a line, the first line opening the block. -/
def openEntry (found : Found) (indents : List Nat) (key : String) : Found :=
  let opening : List Token := if indents = [] then [.blockMapping, .key] else [.key]
  ((found.push (.scalar .plain key)).insert found.count opening).push .value

theorem toList_openEntry (found : Found) (indents : List Nat) (key : String) :
    (openEntry found indents key).toList =
      found.toList ++ (if indents = [] then [.blockMapping] else []) ++
        [.key, .scalar .plain key, .value] := by
  have hcount : found.count = found.toList.length := by
    simp [Found.toList, found.count_eq]
  rw [openEntry, Found.toList_push, Found.toList_insert, Found.toList_push, hcount,
    List.take_left, List.drop_left]
  split <;> simp

/-- The key of a line is read as any plain text, and its place is noted. -/
theorem run_key (l : Line) (hindents : indents = [] ∨ indents = [0]) :
    run (fuel + 1) (atLine ⟨p, l.key.toList ++ ':' :: ' ' :: cs⟩ (bound + 1) found indents) =
      run fuel (atColon ⟨p.right l.key.length, ':' :: ' ' :: cs⟩ (bound + 1) found indents p
        l.key) := by
  obtain ⟨ch, w, hkey⟩ := List.exists_cons_of_ne_nil l.isWord_key.ne_nil
  have hch := l.isWord_key.chars ch (by simp [hkey])
  have hrest : (atLine ⟨p, l.key.toList ++ ':' :: ' ' :: cs⟩ (bound + 1) found indents).input.rest =
      ch :: (w ++ ':' :: ' ' :: cs) := by
    simp [atLine, hkey]
  refine run_succ (advance?_eq_self ⟨rfl, hindents⟩ ?_ rfl) hrest ?_
  · simp only [atLine, hkey]
    exact passGap_of_isWordChar hch true p
  · rw [token?_of_isWordChar hch hrest]
    simp [plainScalar?, offerKey?, dropKey?, inFlow, atLine, atColon, emit, allowKey,
      Plain.read_key l.isWord_key.ne_nil l.isWord_key.chars, String.length_toList]

/-- At the colon the key is known as one, and the first of the keys opens the block. -/
theorem run_colon (l : Line) (hindents : indents = [] ∨ indents = [0]) (hp : p.column = 0) :
    run (fuel + 1) (atColon ⟨p.right l.key.length, ':' :: ' ' :: cs⟩ bound found indents p
        l.key) =
      run fuel (atValue ⟨p.right (l.key.length + 1), ' ' :: cs⟩ bound
        (openEntry found indents l.key)) := by
  have hfresh : (⟨p, false, found.count⟩ : PossibleKey).isStale (p.right l.key.length) = false := by
    have := l.length_key
    simp [PossibleKey.isStale, Position.right]
    omega
  refine run_succ (advance?_eq_self ⟨rfl, hindents⟩ rfl ?_) rfl ?_
  · simp [atColon, freshKey?, hfresh]
  · -- the column of the key is right of the margin only if no block is open
    rw [token?_colon rfl rfl]
    obtain rfl | rfl := hindents
    · simp [atColon, value?, insertKey, opensAt, inFlow, margin, hp]
      rfl
    · simp [atColon, value?, insertKey, opensAt, inFlow, margin, hp]
      rfl

theorem advance?_blank : (atValue ⟨p, ' ' :: cs⟩ bound found).advance? =
    (atValue ⟨p.right 1, cs⟩ bound found).advance? :=
  rfl

/-- The value of a line is read to the start of the next. -/
theorem run_value (l : Line) (hcs : cs.takeWhile isSpace = []) :
    run (fuel + 1) (atValue ⟨p, ' ' :: (l.value.toList ++ '\n' :: cs)⟩ (bound + 1) found) =
      run fuel (atLine ⟨(p.right (1 + l.value.length)).after '\n', cs⟩ (bound + 1)
        (found.push (.scalar .plain l.value)) [0]) := by
  obtain ⟨ch, w, hvalue⟩ := List.exists_cons_of_ne_nil l.isWord_value.ne_nil
  have hch := l.isWord_value.chars ch (by simp [hvalue])
  have hadvance : (atValue ⟨p, ' ' :: (l.value.toList ++ '\n' :: cs)⟩ (bound + 1) found).advance? =
      some (atValue ⟨p.right 1, l.value.toList ++ '\n' :: cs⟩ (bound + 1) found) := by
    refine advance?_blank.trans (advance?_eq_self ⟨rfl, .inr rfl⟩ ?_ rfl)
    simp only [atValue, hvalue]
    exact passGap_of_isWordChar hch false (p.right 1)
  have hrest : (atValue ⟨p.right 1, l.value.toList ++ '\n' :: cs⟩ (bound + 1) found).input.rest =
      ch :: (w ++ '\n' :: cs) := by
    simp [atValue, hvalue]
  refine run_succ hadvance hrest ?_
  -- the next line starts left of the margin of the open block, so the value does not go on there
  rw [token?_of_isWordChar hch hrest]
  simp [plainScalar?, offerKey?, inFlow, atLine, atValue, emit, allowKey, margin,
    Plain.read_value l.isWord_value.ne_nil l.isWord_value.chars hcs, String.length_toList]

/-- A line takes three steps. -/
theorem run_line (fuel bound : Nat) (found : Found) (l : Line)
    (hindents : indents = [] ∨ indents = [0]) (hp : p.column = 0)
    (hcs : cs.takeWhile isSpace = []) :
    ∃ (p' : Position) (found' : Found), p'.column = 0 ∧
      found'.toList =
        found.toList ++ (if indents = [] then [.blockMapping] else []) ++ l.tokens ∧
      run (fuel + 3) (atLine ⟨p, l.chars ++ cs⟩ (bound + 1) found indents) =
        run fuel (atLine ⟨p', cs⟩ (bound + 1) found' [0]) := by
  have hchars : l.chars ++ cs =
      l.key.toList ++ ':' :: ' ' :: (l.value.toList ++ '\n' :: cs) := by
    simp [Line.chars]
  refine ⟨((p.right (l.key.length + 1)).right (1 + l.value.length)).after '\n',
    (openEntry found indents l.key).push (.scalar .plain l.value), rfl, ?_, ?_⟩
  · rw [Found.toList_push, toList_openEntry]
    simp [Line.tokens]
  · rw [hchars, run_key l hindents, run_colon l hindents hp, run_value l hcs]

/-- At the end of the text the block is closed. -/
theorem run_end : run (fuel + 1) (atLine ⟨p, []⟩ bound found [0]) =
    some (found.toList ++ [.blockEnd]) := by
  have hadvance :
      (atLine ⟨p, []⟩ bound found [0]).advance? = some (atLine ⟨p, []⟩ bound found [0]) :=
    advance?_eq_self ⟨rfl, .inr rfl⟩ rfl rfl
  rw [run, hadvance]
  simp [atLine, closeBlocks, inFlow, dropKey?]

theorem takeWhile_isSpace_lines (lines : List Line) :
    (lines.flatMap Line.chars).takeWhile isSpace = [] := by
  cases lines with
  | nil => rfl
  | cons l lines =>
    obtain ⟨ch, w, hkey⟩ := List.exists_cons_of_ne_nil l.isWord_key.ne_nil
    have hch := l.isWord_key.chars ch (by simp [hkey])
    simp [Line.chars, hkey, isSpace_of_isWordChar hch]

/-- Inside the block every line adds its tokens. -/
theorem run_lines (lines : List Line) (hp : p.column = 0) (hfuel : 3 * lines.length < fuel) :
    run fuel (atLine ⟨p, lines.flatMap Line.chars⟩ (bound + 1) found [0]) =
      some (found.toList ++ lines.flatMap Line.tokens ++ [.blockEnd]) := by
  induction lines generalizing fuel p found with
  | nil =>
    obtain ⟨fuel, rfl⟩ := Nat.exists_eq_add_one.2 (Nat.zero_lt_of_lt hfuel)
    simpa using run_end
  | cons l lines ih =>
    rw [List.length_cons] at hfuel
    obtain ⟨fuel, rfl⟩ : ∃ n, fuel = n + 3 := ⟨fuel - 3, by omega⟩
    obtain ⟨p', found', hp', hfound, hline⟩ := run_line fuel bound found l (.inr rfl) hp
      (takeWhile_isSpace_lines lines)
    rw [List.flatMap_cons, hline, ih hp' (by omega), hfound]
    simp

/-- The first line opens the block, which takes the lines after it. -/
theorem run_block (l : Line) (lines : List Line) (hp : p.column = 0)
    (hfuel : 3 * (l :: lines).length < fuel) :
    run fuel (atLine ⟨p, (l :: lines).flatMap Line.chars⟩ (bound + 1) found []) =
      some (found.toList ++ Line.blockTokens (l :: lines)) := by
  rw [List.length_cons] at hfuel
  obtain ⟨fuel, rfl⟩ : ∃ n, fuel = n + 3 := ⟨fuel - 3, by omega⟩
  obtain ⟨p', found', hp', hfound, hline⟩ := run_line fuel bound found l (.inl rfl) hp
    (takeWhile_isSpace_lines lines)
  rw [List.flatMap_cons, hline, run_lines lines hp' (by omega), hfound]
  simp [Line.blockTokens]

/-- What is passed in front of a token leaves no trace. -/
theorem run_congr (h : s.advance? = s'.advance?) : run fuel s = run fuel s' := by
  cases fuel with
  | zero => rfl
  | succ fuel => rw [run, run, h]

/-- The mark of a document starts a line of its own. -/
theorem run_documentStart :
    run (fuel + 1) { input := ⟨{}, '-' :: '-' :: '-' :: '\n' :: cs⟩, bound } =
      run fuel (atLine ⟨⟨4, 1, 0⟩, cs⟩ bound (({} : Found).push .documentStart) []) := by
  rw [run_succ (advance?_eq_self ⟨rfl, .inl rfl⟩ rfl rfl) rfl rfl]
  exact run_congr rfl

end Scan

/-! ## The whole text -/

theorem Line.length_chars (l : Line) : 3 ≤ l.chars.length := by
  simp [chars]
  omega

theorem Line.length_block (lines : List Line) : 3 * lines.length ≤ (block lines).length := by
  rw [← String.length_toList, toList_block]
  induction lines with
  | nil => exact Nat.le_refl 0
  | cons l lines ih =>
    have := l.length_chars
    rw [List.flatMap_cons, List.length_append, List.length_cons]
    omega

theorem Line.ne_nul_of_mem_block {lines : List Line} {ch : Char}
    (h : ch ∈ (block lines).toList) : (ch != '\x00') = true := by
  have hword {text : String} (htext : IsWord text) (hch : ch ∈ text.toList) :
      (ch != '\x00') = true := by
    rw [bne, ne_of_isWordChar (htext.chars ch hch) (by decide)]
    rfl
  rw [toList_block, List.mem_flatMap] at h
  obtain ⟨l, -, hl⟩ := h
  simp only [chars, List.mem_append, List.mem_cons, List.not_mem_nil, or_false] at hl
  obtain hkey | rfl | rfl | hvalue | rfl := hl
  · exact hword l.isWord_key hkey
  · rfl
  · rfl
  · exact hword l.isWord_value hvalue
  · rfl

theorem Input.ofString_block (lines : List Line) :
    ofString (Line.block lines) = ⟨{}, lines.flatMap Line.chars⟩ := by
  rw [ofString, List.takeWhile_eq_self_iff.2 fun ch => Line.ne_nul_of_mem_block,
    Line.toList_block]

theorem Input.ofString_document (lines : List Line) :
    ofString ("---\n" ++ Line.block lines) =
      ⟨{}, '-' :: '-' :: '-' :: '\n' :: lines.flatMap Line.chars⟩ := by
  have hblock := congrArg rest (ofString_block lines)
  simp only [ofString, String.toList_append] at hblock ⊢
  have hmark : ∀ ch ∈ "---\n".toList, (ch != '\x00') = true := List.all_eq_true.1 (by decide)
  rw [List.takeWhile_append_of_pos hmark, hblock]
  rfl

theorem Token.scan?_block (l : Line) (lines : List Line) :
    scan? (Line.block (l :: lines)) = some (Line.blockTokens (l :: lines)) := by
  have hlength := Line.length_block (l :: lines)
  rw [scan?, Input.ofString_block]
  exact Scan.run_block l lines rfl (by omega)

theorem Token.scan?_document (l : Line) (lines : List Line) :
    scan? ("---\n" ++ Line.block (l :: lines)) =
      some (.documentStart :: Line.blockTokens (l :: lines)) := by
  have hlength := Line.length_block (l :: lines)
  rw [scan?, Input.ofString_document, Scan.run_documentStart]
  refine Scan.run_block l lines rfl ?_
  have hmark : "---\n".length = 4 := rfl
  rw [String.length_append]
  omega

/-! ## The document -/

namespace Node

variable {fuel : Nat} {block bare : Bool}

theorem read_scalar {style : Style} {text : String} {tokens : List Token}
    {marked : List (String × Option Node)} :
    read (fuel + 1) block bare ⟨.scalar style text :: tokens, marked⟩ =
      some (.scalar ⟨style, text, none⟩, ⟨tokens, marked⟩) := by
  simp [read, properties, Stream.drop, Stream.mark]

theorem entries_line (l : Line) {tokens : List Token} {marked : List (String × Option Node)} :
    entries (fuel + 2) ⟨l.tokens ++ tokens, marked⟩ =
      (entries (fuel + 1) ⟨tokens, marked⟩).map fun (others, s) => (l.entry :: others, s) := by
  rw [entries]
  simp [Line.tokens, Line.entry, orMissing, valueOrMissing, endsEntry, Stream.drop, read_scalar]
  cases entries (fuel + 1) ⟨tokens, marked⟩ <;> rfl

theorem entries_lines (lines : List Line) {tokens : List Token}
    {marked : List (String × Option Node)} (hfuel : lines.length + 1 < fuel) :
    entries fuel ⟨lines.flatMap Line.tokens ++ .blockEnd :: tokens, marked⟩ =
      some (lines.map Line.entry, ⟨tokens, marked⟩) := by
  induction lines generalizing fuel with
  | nil =>
    obtain ⟨fuel, rfl⟩ := Nat.exists_eq_add_one.2 (Nat.zero_lt_of_lt hfuel)
    simp [entries, Stream.drop]
  | cons l lines ih =>
    rw [List.length_cons] at hfuel
    obtain ⟨fuel, rfl⟩ : ∃ n, fuel = n + 2 := ⟨fuel - 2, by omega⟩
    rw [List.flatMap_cons, List.append_assoc, entries_line, ih (by omega)]
    rfl

theorem read_blockTokens (lines : List Line) (hfuel : lines.length + 2 < fuel) :
    read fuel true false ⟨Line.blockTokens lines, []⟩ =
      some (.mapping (lines.map Line.entry), ⟨[], []⟩) := by
  obtain ⟨fuel, rfl⟩ := Nat.exists_eq_add_one.2 (Nat.zero_lt_of_lt hfuel)
  have hentries : entries fuel ⟨lines.flatMap Line.tokens ++ [.blockEnd], []⟩ =
      some (lines.map Line.entry, ⟨[], []⟩) := entries_lines lines (by omega)
  simp [read, Line.blockTokens, properties, Stream.drop, Stream.mark, hentries]

theorem length_blockTokens (lines : List Line) :
    lines.length + 2 ≤ (Line.blockTokens lines).length := by
  have htokens : lines.length ≤ (lines.flatMap Line.tokens).length := by
    induction lines with
    | nil => exact Nat.le_refl 0
    | cons l lines ih =>
      have hline : l.tokens.length = 4 := rfl
      rw [List.flatMap_cons, List.length_append, List.length_cons]
      omega
  simpa [Line.blockTokens] using htokens

theorem ofTokens?_blockMapping {tokens : List Token} {node : Node}
    (hread : read (3 * (.blockMapping :: tokens : List Token).length + 3) true false
      ⟨.blockMapping :: tokens, []⟩ = some (node, ⟨[], []⟩)) :
    ofTokens? (.blockMapping :: tokens) = some node := by
  have hkept : (.blockMapping :: tokens : List Token).dropWhile (· == .directive) =
      .blockMapping :: tokens := rfl
  simp only [ofTokens?, hkept, if_true, hread]
  rfl

theorem ofTokens?_documentStart {tokens : List Token} {node : Node}
    (hread : read (3 * (.documentStart :: .blockMapping :: tokens : List Token).length + 3) true
      false ⟨.blockMapping :: tokens, []⟩ = some (node, ⟨[], []⟩)) :
    ofTokens? (.documentStart :: .blockMapping :: tokens) = some node := by
  have hkept : (.documentStart :: .blockMapping :: tokens : List Token).dropWhile
      (· == .directive) = .documentStart :: .blockMapping :: tokens := rfl
  have hthere : orMissing endsDocument
      (read (3 * (.documentStart :: .blockMapping :: tokens : List Token).length + 3) true false)
      ⟨.blockMapping :: tokens, []⟩ = some (node, ⟨[], []⟩) := hread
  simp only [ofTokens?, hkept, hthere]
  rfl

/-- A text of lines is one document, the mapping of their entries. -/
theorem parse?_block {lines : List Line} (hlines : lines ≠ []) :
    parse? (Line.block lines) = some (.mapping (lines.map Line.entry)) := by
  obtain ⟨l, lines, rfl⟩ := List.exists_cons_of_ne_nil hlines
  have hlength := length_blockTokens (l :: lines)
  rw [parse?, Token.scan?_block]
  exact ofTokens?_blockMapping (read_blockTokens (l :: lines) (by
    rw [← Line.blockTokens]
    omega))

/-- The mark of a document changes nothing. -/
theorem parse?_document {lines : List Line} (hlines : lines ≠ []) :
    parse? ("---\n" ++ Line.block lines) = some (.mapping (lines.map Line.entry)) := by
  obtain ⟨l, lines, rfl⟩ := List.exists_cons_of_ne_nil hlines
  have hlength := length_blockTokens (l :: lines)
  rw [parse?, Token.scan?_document]
  exact ofTokens?_documentStart (read_blockTokens (l :: lines) (by
    rw [← Line.blockTokens, List.length_cons (a := Token.documentStart)]
    omega))

end Node

end Lockstep.Yaml
