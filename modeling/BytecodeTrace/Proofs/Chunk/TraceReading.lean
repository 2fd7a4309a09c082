/-
# A trace can be read back

The columns of a trace are only as wide as they have to be, and a line number is left out where a
bar can stand for it.  Nothing is lost by that: a row falls apart into its words, the words are the
offset, the line or the bar, and what was decoded, and a bar repeats the last number before it.

* `TraceRow.read?`: reads the words of a row, and `recoverLines` puts the numbers in for the bars;
* `rows_trace`: of a chunk that calls have built, the rows are read as its statements;
* `recoverLines_lineRead`: the lines that are recovered are those of the statements;
* `trace_determines`: so the trace gives the walk, the code, the lines and the texts of the
  constants.

The values themselves are not determined, since the trace rounds them.
-/
import BytecodeTrace.Proofs.Chunk.Readers
import BytecodeTrace.Proofs.Chunk.Statements
import Mathlib.Data.List.Forall2

namespace BytecodeTrace

/-! ## 1. Reading a trace -/

/-- What is read from a row. -/
structure TraceRow where
  offset : Nat
  /-- The number in the line column; none where a bar stands. -/
  line : Option Nat
  /-- The words behind the line: a mnemonic and, of a constant, its index and its text in quotes. -/
  shown : List (List Char)
deriving DecidableEq, Repr

/-- Reads a row by its words. -/
def TraceRow.read? (row : List Char) : Option TraceRow :=
  match Text.words row with
  | offset :: line :: shown =>
    some ⟨ofDigits offset, if line = ['|'] then none else some (ofDigits line), shown⟩
  | _ => none

/-- The rows of a trace: the lines of the text behind its header. -/
def traceRows (name text : String) : List (List Char) :=
  Text.lines (text.toList.drop (Chunk.traceHeader name).toList.length)

/-- The line of each row: the number that stands in it or, at a bar, the last one before it. -/
def recoverLines (last : Option Nat) : List (Option Nat) → List (Option Nat)
  | [] => []
  | line :: rest => line.or last :: recoverLines (line.or last) rest

/-- The lines that are recovered from the text of a trace. -/
def traceLinesRead (name text : String) : List (Option Nat) :=
  recoverLines none ((traceRows name text).map fun row => (TraceRow.read? row).bind TraceRow.line)

theorem recoverLines_append_singleton (last line : Option Nat) (lines : List (Option Nat)) :
    recoverLines last (lines ++ [line]) =
      recoverLines last lines ++ [line.or ((recoverLines last lines).getLastD last)] := by
  induction lines generalizing last with
  | nil => rfl
  | cons first lines ih =>
    rw [List.cons_append, recoverLines, recoverLines, ih, List.getLastD_cons, List.cons_append]

/-! ## 2. The words of a row -/

theorem isWord_leftpad_digitsOf (n k : Nat) : Text.IsWord ((digitsOf n).leftpad k '0') :=
  ((numberChars_digitsOf n).leftpad k).isWord fun hnil =>
    digitsOf_ne_nil n (List.append_eq_nil_iff.mp hnil).2

theorem isWord_digitsOf (n : Nat) : Text.IsWord (digitsOf n) :=
  (numberChars_digitsOf n).isWord (digitsOf_ne_nil n)

theorem isWord_mnemonic (op : Opcode) : Text.IsWord op.mnemonic.toList := by
  cases op <;> exact .of_any (by decide) (by decide)

/-- The text of a value has no blank. -/
theorem Value.not_blank_of_mem_chars {v : Value} {c : Char} (hc : c ∈ v.chars) :
    Text.isBlank c = false := by
  rw [Bool.eq_false_iff]
  intro hblank
  have hnumber : isNumberChar c = false := by
    rw [Bool.eq_false_iff]
    intro h
    rw [not_blank_of_isNumberChar h] at hblank
    cases hblank
  have hletters : c ∉ ['n', 'a', 'i', 'f'] := by
    intro h
    have hword : Text.IsWord ['n', 'a', 'i', 'f'] := .of_any (by decide) (by decide)
    rw [hword.not_blank c h] at hblank
    cases hblank
  exact v.not_mem_chars hnumber hletters hc

/-- Nor has the text in quotes. -/
theorem Value.isWord_quoted (v : Value) : Text.IsWord ('\'' :: v.chars ++ ['\'']) := by
  refine ⟨List.cons_ne_nil _ _, ?_⟩
  intro c hc
  rw [List.mem_append, List.mem_cons, List.mem_singleton] at hc
  rcases hc with (rfl | hc) | rfl
  · decide
  · exact not_blank_of_mem_chars hc
  · decide

namespace Content

variable (x : Content)

/-- The columns of a row that shows an instruction. -/
def shownWords (i : Instruction) : List (List Char) :=
  match i.constantIndex? with
  | none => [i.opcode.mnemonic.toList]
  | some index => [i.opcode.mnemonic.toList, digitsOf index, x.shownConstant index]

theorem isWord_shownConstant {index : Nat} (h : index < x.constants.length) :
    Text.IsWord (x.shownConstant index) := by
  rw [shownConstant, List.getElem?_eq_getElem h]
  exact Value.isWord_quoted _

/-- A decoded instruction falls apart into its words, if its constant is there. -/
theorem words_shownDecoded {i : Instruction}
    (h : ∀ index ∈ i.constantIndex?, index < x.constants.length) :
    Text.words (x.shownDecoded (.ok i)) = x.shownWords i := by
  simp only [shownDecoded, shownWords]
  cases hindex : i.constantIndex? with
  | none => exact Text.words_lastColumn (isWord_mnemonic i.opcode)
  | some index =>
    have hconstant := x.isWord_shownConstant (h index hindex)
    -- the mnemonic is filled up to its column, so that the blank behind it comes after the filling
    have hfill : ∀ (n : Nat) (s : List Char),
        List.replicate n ' ' ++ ' ' :: s = ' ' :: (List.replicate n ' ' ++ s) := by
      intro n s
      rw [← List.singleton_append, ← List.append_assoc, ← List.replicate_succ',
        List.replicate_succ, List.cons_append]
    have hmnemonic := Text.words_column (isWord_mnemonic i.opcode) 0
    have hdigits := Text.words_column (isWord_digitsOf index)
    simp only [List.replicate_zero, List.nil_append] at hmnemonic
    simp only [List.rightpad, List.leftpad, List.append_assoc, List.cons_append, hfill, hmnemonic,
      Text.words_replicate, hdigits, Text.words_lastColumn hconstant]

/-- What the line column of a row has: a number or, as none, a bar. -/
def lineShown (offset : Nat) (line : Line) : Option Nat :=
  if 0 < offset ∧ x.lines[offset - 1]? = some line then none else some line.toNat

/-- The word in the line column. -/
def lineWord : Option Nat → List Char
  | none => ['|']
  | some n => digitsOf n

/-- The line column is one word. -/
theorem words_shownLine {offset : Nat} {line : Line} (hline : x.lines[offset]? = some line)
    (s : List Char) :
    Text.words (x.shownLine offset ++ s) = lineWord (x.lineShown offset line) :: Text.words s := by
  simp only [shownLine, lineShown, hline]
  by_cases hbar : 0 < offset ∧ x.lines[offset - 1]? = some line
  · have hword : Text.IsWord ['|'] := .of_any (by decide) (by decide)
    rw [if_pos hbar, if_pos hbar]
    exact Text.words_column hword 3 s
  · rw [if_neg hbar, if_neg hbar, List.leftpad, List.append_assoc, List.append_assoc]
    exact Text.words_column (isWord_digitsOf line.toNat) _ s

/-- The word in the line column is read as what it stands for. -/
theorem read_lineWord (shown : Option Nat) :
    (if lineWord shown = ['|'] then none else some (ofDigits (lineWord shown))) = shown := by
  cases shown with
  | none => rfl
  | some n =>
    have hne : lineWord (some n) ≠ ['|'] := by
      intro heq
      have hmem : '|' ∈ lineWord (some n) := by
        rw [heq]
        exact List.mem_singleton_self '|'
      exact absurd (isDigit_of_mem_digitsOf hmem) (by decide)
    rw [if_neg hne, lineWord, ofDigits_digitsOf]

/-- **A row is read as what it shows.** -/
theorem read?_shownRow {offset : Nat} {line : Line} {i : Instruction}
    (hline : x.lines[offset]? = some line)
    (hindex : ∀ index ∈ i.constantIndex?, index < x.constants.length) :
    TraceRow.read? (x.shownRow ⟨offset, .ok i⟩) =
      some ⟨offset, x.lineShown offset line, x.shownWords i⟩ := by
  have hoffset : ∀ s, Text.words ((digitsOf offset).leftpad 4 '0' ++ ' ' :: s) =
      (digitsOf offset).leftpad 4 '0' :: Text.words s := by
    intro s
    exact Text.words_column (isWord_leftpad_digitsOf offset 4) 0 s
  have hvalue : ofDigits ((digitsOf offset).leftpad 4 '0') = offset := by
    rw [List.leftpad, ofDigits_append, ofDigits_replicate_zero, ofDigits_digitsOf, Nat.zero_mul,
      Nat.zero_add]
  have hwords : Text.words (x.shownRow ⟨offset, .ok i⟩) =
      (digitsOf offset).leftpad 4 '0' :: lineWord (x.lineShown offset line) :: x.shownWords i := by
    rw [shownRow, List.append_assoc, List.cons_append, hoffset, x.words_shownLine hline,
      x.words_shownDecoded hindex]
  rw [TraceRow.read?, hwords]
  simp only [hvalue, read_lineWord]

theorem toList_suffix_of_eq_append {s t u : String} (h : s = t ++ u) : u.toList <:+ s.toList := by
  rw [h, String.toList_append]
  exact List.suffix_append ..

/-- What stands in place of an instruction ends with a word. -/
theorem exists_isWord_suffix_shown (e : DecodeError) :
    ∃ w, Text.IsWord w ∧ w <:+ e.shown.toList := by
  cases e with
  | unknownOpcode _ tag =>
    refine ⟨(toString tag.toNat).toList, ?_, toList_suffix_of_eq_append rfl⟩
    rw [toList_toString]
    exact isWord_digitsOf _
  | truncated o op needed available =>
    have hend : " available".toList <:+
        (DecodeError.truncated o op needed available).shown.toList :=
      toList_suffix_of_eq_append rfl
    exact ⟨"available".toList, .of_any (by decide) (by decide), .trans ⟨[' '], by decide⟩ hend⟩
  | offsetOutOfBounds o size =>
    have hend : " out of bounds".toList <:+ (DecodeError.offsetOutOfBounds o size).shown.toList :=
      toList_suffix_of_eq_append rfl
    exact ⟨"bounds".toList, .of_any (by decide) (by decide),
      .trans ⟨" out of ".toList, by decide⟩ hend⟩

/-- So does a constant, there or missing. -/
theorem exists_isWord_suffix_shownConstant (index : Nat) :
    ∃ w, Text.IsWord w ∧ w <:+ x.shownConstant index := by
  rcases Nat.lt_or_ge index x.constants.length with hlt | hge
  · exact ⟨_, x.isWord_shownConstant hlt, List.suffix_refl _⟩
  · rw [(x.shownConstant_eq_missing_iff index).mpr hge]
    exact ⟨"constant>'".toList, .of_any (by decide) (by decide), "'<missing ".toList, by decide⟩

/-- A row does not end with a carriage return, since it ends with a word. -/
theorem getLast?_shownRow_ne (item : WalkItem) : (x.shownRow item).getLast? ≠ some '\r' := by
  obtain ⟨w, hw, hsuffix⟩ : ∃ w, Text.IsWord w ∧ w <:+ x.shownDecoded item.decoded := by
    unfold shownDecoded
    split
    · rename_i i _
      cases i.constantIndex? with
      | none => exact ⟨_, isWord_mnemonic i.opcode, List.suffix_refl _⟩
      | some index =>
        obtain ⟨w, hw, hsuffix⟩ := x.exists_isWord_suffix_shownConstant index
        refine ⟨w, hw, hsuffix.trans ?_⟩
        exact (List.suffix_cons ' ' _).trans (List.suffix_append _ _)
    · exact exists_isWord_suffix_shown _
  obtain ⟨s, hs⟩ := hsuffix.trans (List.suffix_append (_ : List Char) _)
  rw [shownRow, ← hs, List.getLast?_append_of_ne_nil _ hw.ne_nil]
  intro hlast
  have hblank := hw.not_blank '\r' (List.mem_of_getLast? hlast)
  exact absurd hblank (by decide)

end Content

/-- **The lines of a trace are the rows of the items**, whatever they show. -/
theorem traceRows_trace {c : Chunk} (h : c.Coupled) (name : String) :
    traceRows name (c.trace name) = c.walk.map c.content.shownRow := by
  have hrows : ∀ row ∈ c.walk.map c.content.shownRow,
      '\n' ∉ row ∧ row.getLast? ≠ some '\r' := by
    intro row hrow
    obtain ⟨item, -, rfl⟩ := List.mem_map.mp hrow
    exact ⟨c.content.lineFeed_not_mem_shownRow item, c.content.getLast?_shownRow_ne item⟩
  have hflat : (c.walk.flatMap fun item => c.content.shownRow item ++ ['\n']) =
      (c.walk.map c.content.shownRow).flatMap (· ++ ['\n']) := by
    rw [List.flatMap_map]
  rw [traceRows, (Chunk.readAlike_of_coupled h name).trace_eq, Chunk.toList_traceHeader,
    List.drop_left, hflat, Text.lines_flatMap hrows]

/-! ## 3. Contents that show the same -/

namespace Content

/-- Contents that differ at most in constants with the same texts. -/
structure Alike (x y : Content) : Prop where
  code_eq : x.code = y.code
  lines_eq : x.lines = y.lines
  texts_eq : x.constants.map Value.text = y.constants.map Value.text

variable {x y : Content}

/-- A constant is shown by its text. -/
theorem shownConstant_eq_getD (x : Content) (index : Nat) :
    x.shownConstant index =
      ((x.constants.map Value.chars)[index]?.map fun chars => '\'' :: chars ++ ['\'']).getD
        "'<missing constant>'".toList := by
  rw [shownConstant, List.getElem?_map]
  cases x.constants[index]? <;> rfl

/-- Their rows are the same. -/
theorem Alike.shownRow_eq (h : x.Alike y) (item : WalkItem) :
    x.shownRow item = y.shownRow item := by
  have htext : Value.chars = String.toList ∘ Value.text := by
    funext v
    exact String.toList_ofList.symm
  have hchars : x.constants.map Value.chars = y.constants.map Value.chars := by
    rw [htext, ← List.map_map, ← List.map_map, h.texts_eq]
  simp only [shownRow, shownLine, shownDecoded, shownConstant_eq_getD, h.lines_eq, hchars]

theorem Alike.write (h : x.Alike y) (bytes : List UInt8) (line : Line) :
    (x.write bytes line).Alike (y.write bytes line) := by
  refine ⟨?_, ?_, h.texts_eq⟩
  · rw [Content.write, Content.write, h.code_eq]
  · rw [Content.write, Content.write, h.lines_eq]

end Content

namespace Statements

/-- Statements that differ at most in a value with the same text. -/
structure Alike (a b : Listing.Placed) : Prop where
  line_eq : a.line = b.line
  text_eq : (constant? a).map Value.text = (constant? b).map Value.text

/-- Such statements keep contents alike. -/
theorem Alike.add {x y : Content} {a b : Listing.Placed} (h : Alike a b) (hxy : x.Alike y) :
    (x.add a).Alike (y.add b) := by
  obtain ⟨line, statement⟩ := a
  obtain ⟨line', statement'⟩ := b
  obtain ⟨rfl, htext⟩ := h
  cases statement with
  | ret =>
    cases statement' with
    | ret => exact hxy.write _ _
    | constant value' => cases htext
  | constant value =>
    cases statement' with
    | ret => cases htext
    | constant value' =>
      have hvalue : value.text = value'.text := Option.some.inj htext
      have hlength : x.constants.length = y.constants.length := by
        simpa using congrArg List.length hxy.texts_eq
      have hstored : Content.Alike ⟨x.code, x.lines, x.constants ++ [value]⟩
          ⟨y.code, y.lines, y.constants ++ [value']⟩ := by
        refine ⟨hxy.code_eq, hxy.lines_eq, ?_⟩
        simp only [List.map_append, List.map_singleton, hxy.texts_eq, hvalue]
      simp only [Content.add, hlength]
      exact hstored.write _ _

/-- The same over a run of statements. -/
theorem alike_content {p q : Statements} (h : List.Forall₂ Alike p q) :
    (content p).Alike (content q) := by
  suffices hfoldl : ∀ x y : Content, x.Alike y →
      (p.foldl Content.add x).Alike (q.foldl Content.add y) from hfoldl _ _ ⟨rfl, rfl, rfl⟩
  induction h with
  | nil =>
    intro x y hxy
    exact hxy
  | cons h _ ih =>
    intro x y hxy
    exact ih _ _ (h.add hxy)

/-! ## 4. The rows of statements -/

/-- What the line column has behind other statements: nothing but a bar behind the same line. -/
def lineRead (before : Statements) (placed : Listing.Placed) : Option Nat :=
  if before.getLast?.map Listing.Placed.line = some placed.line then none
  else some placed.line.toNat

/-- The words of a statement that comes behind others. -/
def wordsRead (before : Statements) (placed : Listing.Placed) : List (List Char) :=
  match placed.statement with
  | .ret => [Opcode.ret.mnemonic.toList]
  | .constant value =>
    let index := (constants before).length
    [(Instruction.load index).opcode.mnemonic.toList, digitsOf index,
      '\'' :: value.chars ++ ['\'']]

/-- What is read from the row of a statement. -/
def rowRead (p : Statements) (j : Nat) (placed : Listing.Placed) : TraceRow :=
  ⟨offset p j, lineRead (p.take j) placed, wordsRead (p.take j) placed⟩

section Rows

variable {p : Statements} {j : Nat}

/-- An index is that of a constant. -/
theorem lt_of_mem_constantIndex? (hj : j < p.length) :
    ∀ index ∈ (instruction (p.take j) p[j]).constantIndex?,
      index < (content p).constants.length := by
  intro index hindex
  cases hstatement : p[j].statement with
  | ret =>
    simp only [instruction, hstatement] at hindex
    cases hindex
  | constant value =>
    simp only [instruction, hstatement, Instruction.constantIndex?_load] at hindex
    obtain rfl := Option.some.inj hindex
    rw [constants_content]
    exact (List.getElem?_eq_some_iff.mp (getElem?_constants hj hstatement)).1

theorem shownWords_instruction (hj : j < p.length) :
    (content p).shownWords (instruction (p.take j) p[j]) = wordsRead (p.take j) p[j] := by
  cases hstatement : p[j].statement with
  | ret =>
    simp only [Content.shownWords, instruction, wordsRead, hstatement]
    rfl
  | constant value =>
    simp only [Content.shownWords, instruction, wordsRead, hstatement,
      Instruction.constantIndex?_load, Content.shownConstant, constants_content,
      getElem?_constants hj hstatement]

/-- A bar stands where the statement before has the same line. -/
theorem lineShown_offset (hj : j < p.length) :
    (content p).lineShown (offset p j) p[j].line = lineRead (p.take j) p[j] := by
  cases j with
  | zero =>
    have hzero : offset p 0 = 0 := rfl
    simp [Content.lineShown, lineRead, hzero]
  | succ k =>
    have hk : k < p.length := Nat.lt_of_succ_lt hj
    have hlt := offset_lt_succ p hk
    have hbefore : (content p).lines[offset p (k + 1) - 1]? = some p[k].line :=
      getElem?_lines_content p hk (by omega) (by omega)
    have hlast : (p.take (k + 1)).getLast?.map Listing.Placed.line = some p[k].line := by
      rw [List.take_succ_eq_append_getElem hk, List.getLast?_concat, Option.map_some]
    have hoffset : 0 < offset p (k + 1) := by omega
    simp only [Content.lineShown, lineRead, hbefore, hlast, hoffset, true_and]

/-- The line of the first byte of a statement. -/
theorem getElem?_lines_offset (hj : j < p.length) :
    (content p).lines[offset p j]? = some p[j].line :=
  getElem?_lines_content p hj (Nat.le_refl _) (offset_lt_succ p hj)

/-- **The rows of the trace are read as the statements.** -/
theorem rows_trace {c : Chunk} (h : Represents c p) (name : String) :
    (traceRows name (c.trace name)).map TraceRow.read? =
      p.mapIdx fun j placed => some (rowRead p j placed) := by
  have hshown := (shows_of_represents h).map_walk (content p).shownRow
  rw [traceRows_trace h.coupled, h.content_eq, hshown]
  refine List.ext_getElem (by simp) ?_
  intro j hj _
  have hjp : j < p.length := by simpa using hj
  rw [List.getElem_map, List.getElem_mapIdx, List.getElem_mapIdx,
    (content p).read?_shownRow (getElem?_lines_offset hjp) (lt_of_mem_constantIndex? hjp),
    lineShown_offset hjp, shownWords_instruction hjp]
  rfl

theorem map_rows_trace {β : Type} {c : Chunk} (h : Represents c p) (name : String)
    (f : Option TraceRow → β) :
    (traceRows name (c.trace name)).map (fun row => f (TraceRow.read? row)) =
      p.mapIdx fun j placed => f (some (rowRead p j placed)) := by
  have hrows := congrArg (List.map f) (rows_trace h name)
  rw [List.map_map] at hrows
  refine hrows.trans (List.ext_getElem (by simp) ?_)
  intro j hj _
  simp only [List.getElem_map, List.getElem_mapIdx]

end Rows

/-! ## 5. What is read from them -/

/-- **The numbers that bars stand for are found again**: the last number in the column is the line
of the last statement. -/
theorem recoverLines_lineRead (p : Statements) :
    recoverLines none (p.mapIdx fun j placed => lineRead (p.take j) placed) =
      p.map fun placed => some placed.line.toNat := by
  induction p using List.reverseRecOn with
  | nil => rfl
  | append_singleton p x ih =>
    rw [mapIdx_take_append p x lineRead, recoverLines_append_singleton, ih, List.map_append,
      List.map_singleton, List.append_cancel_left_eq]
    congr 1
    by_cases hbar : p.getLast?.map Listing.Placed.line = some x.line
    · obtain ⟨last, hlast, hline⟩ := Option.map_eq_some_iff.mp hbar
      rw [lineRead, if_pos hbar, List.getLastD_eq_getLast?, List.getLast?_map, hlast,
        Option.map_some, hline]
      rfl
    · rw [lineRead, if_neg hbar]
      rfl

section Reading

variable {c d : Chunk} {p q : Statements}

theorem traceLinesRead_trace (h : Represents c p) (name : String) :
    traceLinesRead name (c.trace name) = p.map fun placed => some placed.line.toNat := by
  rw [traceLinesRead, map_rows_trace h name (·.bind TraceRow.line)]
  exact recoverLines_lineRead p

/-- Every item of the walk has the line of its statement. -/
theorem map_lineAt_walk (h : Represents c p) :
    c.walk.map (fun item => c.lineAt item.offset) = p.map fun placed => .ok placed.line := by
  have hshows := shows_of_represents h
  rw [hshows.map_walk]
  refine List.ext_getElem (by simp) ?_
  intro j hj _
  have hjp : j < p.length := by simpa using hj
  rw [List.getElem_mapIdx, List.getElem_map]
  exact hshows.lineAt_eq j hjp _ (Nat.le_refl _) (offset_lt_succ p hjp)

/-- Statements with the same trace differ at most in values with the same texts. -/
theorem alike_of_trace_eq (hc : Represents c p) (hd : Represents d q) {name : String}
    (h : c.trace name = d.trace name) : List.Forall₂ Alike p q := by
  have hrows : (p.mapIdx fun j placed => some (rowRead p j placed)) =
      q.mapIdx fun j placed => some (rowRead q j placed) := by
    rw [← rows_trace hc name, ← rows_trace hd name, h]
  have hlines : (p.map fun placed => some placed.line.toNat) =
      q.map fun placed => some placed.line.toNat := by
    rw [← traceLinesRead_trace hc name, ← traceLinesRead_trace hd name, h]
  have hlength : p.length = q.length := by simpa using congrArg List.length hlines
  refine List.forall₂_iff_get.mpr ⟨hlength, ?_⟩
  intro j hjp hjq
  have hline : p[j].line = q[j].line := by
    have hj := congrArg (·[j]?) hlines
    simp only [List.getElem?_map, List.getElem?_eq_getElem hjp, List.getElem?_eq_getElem hjq,
      Option.map_some, Option.some.injEq] at hj
    exact UInt32.toNat_inj.mp hj
  have hwords : wordsRead (p.take j) p[j] = wordsRead (q.take j) q[j] := by
    have hj := congrArg (·[j]?) hrows
    simp only [List.getElem?_mapIdx, List.getElem?_eq_getElem hjp, List.getElem?_eq_getElem hjq,
      Option.map_some, Option.some.injEq] at hj
    exact congrArg TraceRow.shown hj
  refine ⟨hline, ?_⟩
  show (constant? p[j]).map Value.text = (constant? q[j]).map Value.text
  unfold wordsRead at hwords
  unfold constant?
  -- a return has one word, a constant three
  have hcount := congrArg List.length hwords
  cases hp : p[j].statement with
  | ret =>
    cases hq : q[j].statement with
    | ret => rfl
    | constant w =>
      simp only [hp, hq, List.length_cons, List.length_nil] at hcount
      omega
  | constant v =>
    cases hq : q[j].statement with
    | ret =>
      simp only [hp, hq, List.length_cons, List.length_nil] at hcount
      omega
    | constant w =>
      simp only [hp, hq, List.cons.injEq, and_true] at hwords
      -- the texts are between the quotes
      have hchars := List.append_cancel_right (List.cons.inj hwords.2.2).2
      simp only [Option.map_some, Value.text, hchars]

/-- Chunks with contents alike have the same trace. -/
theorem trace_eq_of_alike (hc : c.Coupled) (hd : d.Coupled) (h : c.content.Alike d.content)
    (name : String) : c.trace name = d.trace name := by
  have hwalk : c.walk = d.walk := congrArg (walkFrom · 0) (Array.toList_inj.mp h.code_eq)
  have hc := (Chunk.readAlike_of_coupled hc name).trace_eq
  have hd := (Chunk.readAlike_of_coupled hd name).trace_eq
  refine String.toList_inj.mp ?_
  simp only [hc, hd, hwalk, h.shownRow_eq]

end Reading
end Statements

/-! ## 6. The trace determines the program -/

namespace Chunk

/-- The chunk that calls build. -/
def built (calls : List Call) : Chunk := (empty.performAll calls).state

/-- What is read from the trace of a chunk, row by row. -/
structure TraceReads (c : Chunk) (name : String) : Prop where
  /-- The rows are the items of the walk, at their offsets. -/
  offsets_eq : (traceRows name (c.trace name)).map (fun row =>
      (TraceRow.read? row).map TraceRow.offset) = c.walk.map fun item => some item.offset
  /-- The lines that are recovered are those that the chunk has for them. -/
  lines_eq : ∃ lines : List Line, c.walk.map (fun item => c.lineAt item.offset) = lines.map .ok ∧
    traceLinesRead name (c.trace name) = lines.map fun line => some line.toNat
  /-- The first row has a number in its line column. -/
  first_line : ∀ row ∈ (traceRows name (c.trace name)).head?, ∃ line : Line,
    (TraceRow.read? row).bind TraceRow.line = some line.toNat

theorem traceReads_of_represents {c : Chunk} {p : Statements} (h : Statements.Represents c p)
    (name : String) : c.TraceReads name := by
  have hrows := Statements.rows_trace h name
  refine ⟨?_, ⟨p.map Listing.Placed.line, ?_, ?_⟩, ?_⟩
  · rw [Statements.map_rows_trace h name (·.map TraceRow.offset),
      (Statements.shows_of_represents h).map_walk]
    rfl
  · rw [Statements.map_lineAt_walk h, List.map_map]
    rfl
  · rw [Statements.traceLinesRead_trace h, List.map_map]
    rfl
  · intro row hrow
    obtain ⟨rest, hcons⟩ : ∃ rest, traceRows name (c.trace name) = row :: rest :=
      ⟨_, List.eq_cons_of_mem_head? hrow⟩
    cases p with
    | nil =>
      rw [hcons] at hrows
      cases hrows
    | cons placed p =>
      rw [hcons, List.map_cons, List.mapIdx_cons] at hrows
      rw [(List.cons.inj hrows).1]
      exact ⟨placed.line, rfl⟩

/-- **The trace determines the program.**  Chunks that calls have built have the same trace under a
name if and only if their walks, their code, the lines of their bytes and the texts of their
constants are the same.  What a row leaves out is found in the rows before it: the lines of all
instructions are recovered from the text alone, and the first row always shows a number. -/
theorem trace_determines (calls₁ calls₂ : List Call) (name : String) :
    ((built calls₁).trace name = (built calls₂).trace name ↔
      (built calls₁).walk = (built calls₂).walk ∧
        (built calls₁).code.items = (built calls₂).code.items ∧
        (built calls₁).lines.toList = (built calls₂).lines.toList ∧
        (built calls₁).constants.toList.map Value.text =
          (built calls₂).constants.toList.map Value.text) ∧
      (built calls₁).TraceReads name := by
  have h₁ := (Statements.represents_empty.performAll calls₁).2
  have h₂ := (Statements.represents_empty.performAll calls₂).2
  refine ⟨⟨?_, ?_⟩, traceReads_of_represents h₁ name⟩
  · intro htrace
    have hcontent : (built calls₁).content.Alike (built calls₂).content := by
      rw [built, built, h₁.content_eq, h₂.content_eq]
      exact Statements.alike_content (Statements.alike_of_trace_eq h₁ h₂ htrace)
    have hcode : (built calls₁).code.items = (built calls₂).code.items :=
      Array.toList_inj.mp hcontent.code_eq
    exact ⟨congrArg (walkFrom · 0) hcode, hcode, hcontent.lines_eq, hcontent.texts_eq⟩
  · rintro ⟨-, hcode, hlines, htexts⟩
    exact Statements.trace_eq_of_alike h₁.coupled h₂.coupled
      ⟨congrArg Array.toList hcode, hlines, htexts⟩ name

end Chunk
end BytecodeTrace
