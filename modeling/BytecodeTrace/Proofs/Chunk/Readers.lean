/-
# The three readers of a chunk

A walk, a trace and a list of rows each read the whole chunk, and each has its own rule for where to
go on.  Here the trace and the rows are both said in terms of the walk:

* `shownRow`: the trace line of an item, from the content of the chunk alone;
* `listedRow`: the row of an item, likewise;
* `traceLines_eq`: the trace goes through the items of the walk, and shows each as `shownRow`;
* `edited_readAlike`: all of it for every chunk, whatever bytes it holds.

The line of a byte is looked up in the list of lines, so a row depends on how the runs of the line
table lie only through that list.  That is where `Chunk.Coupled` comes in: there is a line for every
byte, and a trace never leaves the code before it ends.
-/
import BytecodeTrace.Chunk.Row
import BytecodeTrace.Chunk.Trace
import BytecodeTrace.Proofs.Chunk.Edit
import BytecodeTrace.Proofs.Chunk.Tiling
import BytecodeTrace.Proofs.Number.Digits

namespace BytecodeTrace

/-! ## 1. Rows from the content -/

/-- What stands in a trace in place of an instruction. -/
def DecodeError.shown : DecodeError → String
  | .unknownOpcode _ tag => s!"unknown instruction {tag.toNat}"
  | .truncated _ op needed available =>
    s!"truncated {op.mnemonic}: needs {needed} operand bytes, {available} available"
  | .offsetOutOfBounds offset _ => s!"offset {offset} out of bounds"

namespace Content

/-- The line column: the line of the byte, or a bar if the byte before it has the same one. -/
def shownLine (x : Content) (offset : Nat) : List Char :=
  match x.lines[offset]? with
  | none => []
  | some line =>
    if 0 < offset ∧ x.lines[offset - 1]? = some line then [' ', ' ', ' ', '|', ' ']
    else (digitsOf line.toNat).leftpad 4 ' ' ++ [' ']

/-- The value of a constant in quotes, or that there is none. -/
def shownConstant (x : Content) (index : Nat) : List Char :=
  match x.constants[index]? with
  | some value => '\'' :: value.chars ++ ['\'']
  | none => "'<missing constant>'".toList

/-- What was decoded. -/
def shownDecoded (x : Content) : Except DecodeError Instruction → List Char
  | .ok i =>
    match i.constantIndex? with
    | none => i.opcode.mnemonic.toList
    | some index =>
      i.opcode.mnemonic.toList.rightpad 16 ' ' ++ ' ' :: (digitsOf index).leftpad 4 ' ' ++
        ' ' :: x.shownConstant index
  | .error e => e.shown.toList

/-- The trace line of an item, without the line feed: its offset, its line, what was decoded. -/
def shownRow (x : Content) (item : WalkItem) : List Char :=
  (digitsOf item.offset).leftpad 4 '0' ++ ' ' :: x.shownLine item.offset ++
    x.shownDecoded item.decoded

/-- The row of an item. -/
def listedRow (x : Content) (item : WalkItem) : Row :=
  { offset := item.offset
    line := x.lines[item.offset]?
    content :=
      match item.decoded with
      | .ok i => .instruction i (i.constantIndex?.bind fun index => x.constants[index]?)
      | .error e => .fault e.message }

end Content

/-! ## 2. One line of a trace -/

namespace Chunk

variable {c : Chunk} {offset : Nat}

theorem toList_text_right (fill : Char) (n : Nat) :
    (Text.Column.text ⟨4, .right, none, fill⟩ (toString n)).toList =
      (digitsOf n).leftpad 4 fill := by
  rw [Text.Column.text, String.toList_ofList, toList_toString]
  rfl

theorem toList_lineColumn (h : c.Coupled) {line : Line}
    (hline : c.lines.line? offset = some line) :
    (c.lineColumn offset line).toList = c.content.shownLine offset := by
  rw [line?_eq_content h] at hline
  simp only [lineColumn, Content.shownLine, line?_eq_content h, hline]
  split
  · rfl
  · rw [String.toList_append, TraceColumn.line, toList_text_right]
    rfl

theorem toString_string (s : String) : toString s = s := rfl

/-- Every byte of the code has a line. -/
theorem exists_line?_eq_some (h : c.Coupled) (hlt : offset < c.size) :
    ∃ line, c.lines.line? offset = some line := by
  rw [line?_eq_content h]
  exact ⟨_, List.getElem?_eq_getElem (by rw [length_content_lines h]; exact hlt)⟩

/-- The line of an instruction that loads a constant. -/
theorem toList_constantLine (c : Chunk) (columns : String) (offset : Nat) (op : Opcode)
    (index : Nat) :
    (c.constantLine columns offset op index).text.toList =
      columns.toList ++ (op.mnemonic.toList.rightpad 16 ' ' ++ ' ' ::
        (digitsOf index).leftpad 4 ' ' ++ ' ' :: c.content.shownConstant index) ++ ['\n'] := by
  have hmnemonic : (TraceColumn.mnemonic.text op.mnemonic).toList =
      op.mnemonic.toList.rightpad 16 ' ' := by
    rw [Text.Column.text, String.toList_ofList]
    rfl
  have hindex : (TraceColumn.index.text (toString index)).toList =
      (digitsOf index).leftpad 4 ' ' := toList_text_right ' ' index
  have hblank : " ".toList = [' '] := rfl
  have hquote : "'".toList = ['\''] := rfl
  have hend : "'\n".toList = ['\'', '\n'] := rfl
  have hmissing : "'<missing constant>'\n".toList = "'<missing constant>'".toList ++ ['\n'] := rfl
  simp only [constantLine, constant_eq, Content.shownConstant]
  cases c.content.constants[index]? with
  | none =>
    simp only [String.toList_append, hmnemonic, hindex, hblank, hmissing, List.append_assoc,
      List.cons_append, List.nil_append]
  | some value =>
    simp only [String.toList_append, toString_string, Value.text, String.toList_ofList, hmnemonic,
      hindex, hblank, hquote, hend, List.append_assoc, List.cons_append, List.nil_append]

/-- **A trace line shows the item that is decoded at its offset**, and the trace goes on where the
span of that item ends. -/
theorem traceLine_eq (h : c.Coupled) (hlt : offset < c.size) :
    (c.traceLine offset).text.toList =
        c.content.shownRow ⟨offset, c.decodeAt offset⟩ ++ ['\n'] ∧
      (c.traceLine offset).next =
        offset + WalkItem.span ⟨offset, c.decodeAt offset⟩ c.size := by
  obtain ⟨line, hline⟩ := exists_line?_eq_some h hlt
  have hoffset : (TraceColumn.offset.text (toString offset)).toList =
      (digitsOf offset).leftpad 4 '0' := toList_text_right '0' offset
  have hblank : " ".toList = [' '] := rfl
  have hcolumns : (TraceColumn.offset.text (toString offset) ++ " " ++
      c.lineColumn offset line).toList =
        (digitsOf offset).leftpad 4 '0' ++ ' ' :: c.content.shownLine offset := by
    rw [String.toList_append, String.toList_append, hoffset, toList_lineColumn h hline, hblank,
      List.append_assoc]
    rfl
  simp only [traceLine, hline, Content.shownRow]
  rcases Instruction.decode_cases hlt with ⟨tag, _, _, hd⟩ | ⟨op, _, _, hd⟩ | ⟨i, _, _, hd⟩
  · have hbody : (s!"unknown instruction {tag.toNat}\n").toList =
        (DecodeError.unknownOpcode offset tag).shown.toList ++ ['\n'] := by
      rw [String.toList_append]
      rfl
    rw [decodeAt, hd]
    refine ⟨?_, rfl⟩
    rw [String.toList_append, hcolumns, hbody, ← List.append_assoc]
    rfl
  · have havailable : toString " available\n" = " available" ++ "\n" := by decide
    have hbody : ∀ needed available : Nat,
        (s!"truncated {op.mnemonic}: needs {needed} operand bytes, {available} available\n"
          ).toList = (DecodeError.truncated offset op needed available).shown.toList ++ ['\n'] := by
      intro needed available
      rw [havailable, ← String.append_assoc, String.toList_append]
      rfl
    rw [decodeAt, hd]
    refine ⟨?_, (Nat.add_sub_cancel' (Nat.le_of_lt hlt)).symm⟩
    rw [String.toList_append, hcolumns, hbody, ← List.append_assoc]
    rfl
  · rw [decodeAt, hd]
    cases i with
    | ret =>
      have hbody : (s!"{Opcode.ret.mnemonic}\n").toList =
          c.content.shownDecoded (.ok .ret) ++ ['\n'] := rfl
      refine ⟨?_, rfl⟩
      rw [String.toList_append, hcolumns, hbody, ← List.append_assoc]
    | constant index =>
      refine ⟨?_, next_constantLine ..⟩
      rw [toList_constantLine, hcolumns]
      rfl
    | constantLong index =>
      refine ⟨?_, next_constantLine ..⟩
      rw [toList_constantLine, hcolumns]
      rfl

/-- **The trace and the walk go through the same items**, from any offset on. -/
theorem traceLines_eq (h : c.Coupled) (offset : Nat) :
    (c.traceLines offset).map (fun line => line.text.toList) =
      (walkFrom c.code.items offset).map fun item => c.content.shownRow item ++ ['\n'] := by
  induction hm : c.size - offset using Nat.strongRecOn generalizing offset with
  | ind m ih =>
    rcases Nat.lt_or_ge offset c.size with hlt | hge
    · obtain ⟨htext, hnext⟩ := traceLine_eq h hlt
      have hpos := @WalkItem.span_pos ⟨offset, c.decodeAt offset⟩ c.size hlt
      rw [traceLines, dif_pos hlt, walkFrom_of_lt hlt, List.map_cons, List.map_cons, htext, hnext]
      exact congrArg _ (ih _ (by omega) _ rfl)
    · rw [traceLines, dif_neg (Nat.not_lt.mpr hge), walkFrom_of_le hge]
      rfl

end Chunk

/-! ## 3. What stands in a row -/

section Characters

variable {ch : Char}

theorem not_mem_leftpad_digitsOf (n k : Nat) {fill : Char} (hfill : ch ≠ fill)
    (h : ch.isDigit = false) : ch ∉ (digitsOf n).leftpad k fill := by
  intro hmem
  rcases List.mem_append.mp hmem with hmem | hmem
  · exact hfill (List.eq_of_mem_replicate hmem)
  · rw [isDigit_of_mem_digitsOf hmem] at h
    cases h

/-- The text of a value has the characters of numbers, and the letters of `nan` and `inf`. -/
theorem Value.not_mem_chars (v : Value) (h : isNumberChar ch = false)
    (hletters : ch ∉ ['n', 'a', 'i', 'f']) : ch ∉ v.chars := by
  have hnumber : ∀ s : List Char, NumberChars s → ch ∉ s := by
    intro s hs hmem
    rw [hs ch hmem] at h
    cases h
  have hunsigned : ch ∉ v.unsignedText := by
    unfold unsignedText
    split
    · simp_all
    · split
      · exact hnumber _ (numberChars_replicate_zero 1)
      · exact hnumber _ (numberChars_fractionText _)
  have hminus : ch ≠ '-' := by
    intro e
    rw [e] at h
    cases h
  unfold chars
  split
  · simp_all
  · split
    · exact List.not_mem_cons_of_ne_of_not_mem hminus hunsigned
    · exact hunsigned

end Characters

namespace Content

variable (x : Content)

/-- The line column shows a bar exactly when the byte before has the same line. -/
theorem mem_shownLine_iff {offset : Nat} (h : offset < x.lines.length) :
    '|' ∈ x.shownLine offset ↔ 0 < offset ∧ x.lines[offset - 1]? = x.lines[offset]? := by
  have hdigits : ∀ n, '|' ∉ (digitsOf n).leftpad 4 ' ' ++ [' '] := by
    intro n hmem
    rcases List.mem_append.mp hmem with hmem | hmem
    · exact not_mem_leftpad_digitsOf n 4 (by decide) (by decide) hmem
    · exact absurd hmem (by decide)
  simp only [shownLine, List.getElem?_eq_getElem h]
  split
  · rename_i hsame
    constructor
    · intro _
      exact hsame
    · intro _
      decide
  · rename_i hother
    constructor
    · intro hmem
      exact absurd hmem (hdigits _)
    · intro hsame
      exact absurd hsame hother

/-- A constant is shown as missing exactly when the pool does not have it. -/
theorem shownConstant_eq_missing_iff (index : Nat) :
    x.shownConstant index = "'<missing constant>'".toList ↔ x.constants.length ≤ index := by
  unfold shownConstant
  split
  · rename_i value hvalue
    have hlt : index < x.constants.length := (List.getElem?_eq_some_iff.mp hvalue).1
    have hvalue : '<' ∉ value.chars := value.not_mem_chars (by decide) (by decide)
    constructor
    · intro heq
      have hmem : '<' ∈ '\'' :: value.chars ++ ['\''] := heq ▸ by decide
      exact absurd (by simpa using hmem) hvalue
    · intro hle
      exact absurd hlt (Nat.not_lt.mpr hle)
  · rename_i hnone
    constructor
    · intro _
      exact List.getElem?_eq_none_iff.mp hnone
    · intro _
      rfl

/-! The rows have no line feed in them, so that each is one line of the text. -/

theorem lineFeed_not_mem_digitsOf (n : Nat) : '\n' ∉ digitsOf n := by
  intro hmem
  cases (isDigit_of_mem_digitsOf hmem).symm.trans (by decide : Char.isDigit '\n' = false)

theorem lineFeed_not_mem_mnemonic (op : Opcode) : '\n' ∉ op.mnemonic.toList := by
  cases op <;> decide

theorem not_mem_toList_append {ch : Char} {s t : String} (hs : ch ∉ s.toList)
    (ht : ch ∉ t.toList) : ch ∉ (s ++ t).toList := by
  rw [String.toList_append, List.mem_append]
  exact not_or.mpr ⟨hs, ht⟩

theorem lineFeed_not_mem_shown (e : DecodeError) : '\n' ∉ e.shown.toList := by
  have hdigits : ∀ n : Nat, '\n' ∉ (toString n).toList := by
    intro n
    rw [toList_toString]
    exact lineFeed_not_mem_digitsOf n
  cases e with
  | unknownOpcode _ tag =>
    have htext : '\n' ∉ "unknown instruction ".toList := by decide
    exact not_mem_toList_append htext (hdigits _)
  | truncated _ op needed available =>
    have hstart : '\n' ∉ "truncated ".toList := by decide
    have hneeds : '\n' ∉ ": needs ".toList := by decide
    have hbytes : '\n' ∉ " operand bytes, ".toList := by decide
    have hend : '\n' ∉ " available".toList := by decide
    have hname := not_mem_toList_append hstart (lineFeed_not_mem_mnemonic op)
    have hneeded := not_mem_toList_append (not_mem_toList_append hname hneeds) (hdigits needed)
    exact not_mem_toList_append
      (not_mem_toList_append (not_mem_toList_append hneeded hbytes) (hdigits available)) hend
  | offsetOutOfBounds offset _ =>
    have hstart : '\n' ∉ "offset ".toList := by decide
    have hend : '\n' ∉ " out of bounds".toList := by decide
    exact not_mem_toList_append (not_mem_toList_append hstart (hdigits offset)) hend

theorem lineFeed_not_mem_shownLine (offset : Nat) : '\n' ∉ x.shownLine offset := by
  unfold shownLine
  split
  · exact List.not_mem_nil
  · split
    · decide
    · simp [lineFeed_not_mem_digitsOf]

theorem lineFeed_not_mem_shownConstant (index : Nat) : '\n' ∉ x.shownConstant index := by
  unfold shownConstant
  split
  · rename_i value _
    have hvalue : '\n' ∉ value.chars := value.not_mem_chars (by decide) (by decide)
    simp [hvalue]
  · decide

theorem lineFeed_not_mem_shownDecoded (decoded : Except DecodeError Instruction) :
    '\n' ∉ x.shownDecoded decoded := by
  unfold shownDecoded
  split
  · split
    · exact lineFeed_not_mem_mnemonic _
    · simp [lineFeed_not_mem_digitsOf, lineFeed_not_mem_mnemonic, lineFeed_not_mem_shownConstant]
  · exact lineFeed_not_mem_shown _

/-- A row stands on one line. -/
theorem lineFeed_not_mem_shownRow (item : WalkItem) : '\n' ∉ x.shownRow item := by
  simp [shownRow, lineFeed_not_mem_digitsOf, lineFeed_not_mem_shownLine,
    lineFeed_not_mem_shownDecoded]

end Content

/-! ## 4. The three readers -/

namespace Chunk

/-- What the three readers of a chunk show, under a name: all go through the items of the walk. -/
structure ReadAlike (c : Chunk) (name : String) : Prop where
  /-- There is a line for every byte of the code, and the same one for every reader. -/
  lineAt_eq : ∀ offset < c.size, ∃ line, c.lineAt offset = .ok line ∧
    c.content.lines[offset]? = some line
  /-- The pool answers every reader alike. -/
  constant_eq : ∀ index, (c.constant index).toOption = c.content.constants[index]?
  /-- The items lie in the code. -/
  offset_lt : ∀ item ∈ c.walk, item.offset < c.size
  /-- The trace is a header and one row per item. -/
  trace_eq : (c.trace name).toList = "== ".toList ++ name.toList ++ " ==\n".toList ++
    c.walk.flatMap fun item => c.content.shownRow item ++ ['\n']
  /-- The rows of a trace are its lines. -/
  row_line : ∀ item ∈ c.walk, '\n' ∉ c.content.shownRow item
  /-- A row has a bar in its line column exactly when the byte before has the same line. -/
  bar_iff : ∀ item ∈ c.walk, ('|' ∈ c.content.shownLine item.offset ↔
    0 < item.offset ∧ c.lineAt (item.offset - 1) = c.lineAt item.offset)
  /-- A constant is missing in a row exactly when the pool has no such index. -/
  missing_iff : ∀ index, c.content.shownConstant index = "'<missing constant>'".toList ↔
    c.constants.size ≤ index
  /-- The rows as data are one per item too. -/
  rows_eq : c.rows = c.walk.map c.content.listedRow

theorem toList_traceHeader (name : String) :
    (traceHeader name).toList = "== ".toList ++ name.toList ++ " ==\n".toList := by
  rw [traceHeader, String.toList_append, String.toList_append]
  rfl

theorem toOption_constant (c : Chunk) (index : Nat) :
    (c.constant index).toOption = c.content.constants[index]? := by
  rw [constant_eq]
  split
  · rw [‹c.content.constants[index]? = _›]
    rfl
  · rw [‹c.content.constants[index]? = _›]
    rfl

/-- The readers agree on a chunk whose lines count its bytes. -/
theorem readAlike_of_coupled {c : Chunk} (h : c.Coupled) (name : String) : c.ReadAlike name := by
  have hlt : ∀ item ∈ c.walk, item.offset < c.size := by
    intro item hitem
    exact (decoded_of_mem_walkFrom hitem).2.1
  have hline : ∀ offset, c.lines.line? offset = c.content.lines[offset]? := line?_eq_content h
  have hlength : c.content.lines.length = c.size := length_content_lines h
  refine ⟨?_, toOption_constant c, hlt, ?_, ?_, ?_, ?_, ?_⟩
  · intro offset hoffset
    have hget : c.content.lines[offset]? = some c.content.lines[offset] :=
      List.getElem?_eq_getElem (hlength.symm ▸ hoffset)
    refine ⟨_, ?_, hget⟩
    rw [lineAt, hline, hget]
  · have hrows : ((c.traceLines 0).map TraceLine.text).flatMap String.toList =
        c.walk.flatMap fun item => c.content.shownRow item ++ ['\n'] := by
      rw [List.flatMap_map, List.flatMap_def, traceLines_eq h, List.flatMap_def]
      rfl
    rw [trace, String.toList_join, List.flatMap_cons, toList_traceHeader, hrows]
  · intro item _
    exact c.content.lineFeed_not_mem_shownRow item
  · intro item hitem
    have hoffset : item.offset < c.content.lines.length := hlength.symm ▸ hlt item hitem
    have hbefore : item.offset - 1 < c.content.lines.length :=
      Nat.lt_of_le_of_lt (Nat.sub_le ..) hoffset
    rw [Content.mem_shownLine_iff _ hoffset, lineAt, lineAt, hline, hline,
      List.getElem?_eq_getElem hoffset, List.getElem?_eq_getElem hbefore]
    simp only [Option.some.injEq, Except.ok.injEq]
  · intro index
    rw [Content.shownConstant_eq_missing_iff, ← constants_size_eq_length]
  · refine List.map_congr_left ?_
    intro item _
    rw [row, Content.listedRow, hline]
    cases item.decoded with
    | ok i => simp only [toOption_constant]
    | error e => rfl

/-- **The readers agree on every chunk.**  Whatever was done to it, unknown tags, truncated operands
and indices without a constant included, its trace has one line for each item of the walk, and so
have its rows, each with the offset, the line and the decoded result of that item. -/
theorem edited_readAlike (edits : List Edit) (name : String) :
    (Chunk.empty.edited edits).ReadAlike name :=
  readAlike_of_coupled (coupled_edited coupled_empty edits) name

end Chunk
end BytecodeTrace
