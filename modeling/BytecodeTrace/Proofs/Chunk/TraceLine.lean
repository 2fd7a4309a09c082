/-
# One line of a trace, wherever it is asked for

A trace line can be asked for at any offset, not only where the walk comes by: in the middle of an
instruction, at the end of the code, far behind it.  It always is one line of text, and it always
says where to go on.

* `writeLine?_eq`: with positions in words and a text that is written to, the line comes behind what
  was there, and no position overflows;
* `next_bounds`: inside the code the next line starts behind this one, and not behind the end;
* `exists_iterate_eq_size`: so the end of the code is reached from everywhere, by as many lines as
  there are bytes in front of it at most;
* `edited_writesLine`: all of it for every chunk.

That the fault of an offset outside the code cannot come behind a line number is where the line
table and the code have to fit together (`Chunk.Coupled`).
-/
import BytecodeTrace.Proofs.Chunk.Readers
import BytecodeTrace.Proofs.Instruction.Classification
import Mathlib.Logic.Function.Iterate

namespace BytecodeTrace
namespace Chunk

variable {c : Chunk}

/-! ## 1. Writing a line, with positions in words -/

/-- Writes the line column behind a text.  The offset before this one exists if it is looked at. -/
def writeLineColumn? (c : Chunk) (offset : UInt64) (line : Line) (out : String) : Option String :=
  if 0 < offset then do
    let before ← Word.sub? offset 1
    if c.lines.line? before.toNat = some line then return out ++ "   | "
    else return out ++ (TraceColumn.line.text (toString line.toNat) ++ " ")
  else some (out ++ (TraceColumn.line.text (toString line.toNat) ++ " "))

/-- Writes the columns of an instruction that loads a constant behind a text. -/
def writeConstant? (c : Chunk) (offset : UInt64) (op : Opcode) (index : Nat) (out : String) :
    Option (Outcome String UInt64) := do
  let out := out ++ (TraceColumn.mnemonic.text op.mnemonic ++ " " ++
    TraceColumn.index.text (toString index) ++ " ")
  let next ← Word.add? offset (UInt64.ofNat op.width)
  match c.constant index with
  | .ok value => return ⟨next, out ++ s!"'{value.text}'\n", []⟩
  | .error _ =>
    return ⟨next, out ++ "'<missing constant>'\n",
      [.danglingConstant index c.constants.size offset.toNat]⟩

/-- Writes the trace line at a position behind a text and answers the position of the next one.
There is no answer where a position would overflow. -/
def writeLine? (c : Chunk) (offset : UInt64) (out : String) : Option (Outcome String UInt64) :=
  let size := UInt64.ofNat c.size
  let out := out ++ (TraceColumn.offset.text (toString offset.toNat) ++ " ")
  match c.lines.line? offset.toNat with
  | none => some ⟨size, out ++ s!"offset {offset.toNat} out of bounds\n", []⟩
  | some line => do
    let out ← c.writeLineColumn? offset line out
    match ← Instruction.decode64? c.code.items offset with
    | .ok .ret =>
      let next ← Word.add? offset 1
      return ⟨next, out ++ s!"{Opcode.ret.mnemonic}\n", []⟩
    | .ok (.constant index) => c.writeConstant? offset .constant index out
    | .ok (.constantLong index) => c.writeConstant? offset .constantLong index out
    | .error (.unknownOpcode _ tag) =>
      let next ← Word.add? offset 1
      return ⟨next, out ++ s!"unknown instruction {tag.toNat}\n",
        [.unknownTag tag offset.toNat]⟩
    | .error (.truncated _ op needed available) =>
      return ⟨size,
        out ++ s!"truncated {op.mnemonic}: needs {needed} operand bytes, {available} available\n",
        [.truncatedOperand op offset.toNat]⟩
    | .error (.offsetOutOfBounds ..) =>
      return ⟨size, out ++ s!"offset {offset.toNat} out of bounds\n", []⟩

theorem writeLineColumn?_eq (c : Chunk) (offset : UInt64) (line : Line) (out : String) :
    c.writeLineColumn? offset line out = some (out ++ c.lineColumn offset.toNat line) := by
  have hpos : 0 < offset ↔ 0 < offset.toNat := UInt64.lt_iff_toNat_lt
  rw [writeLineColumn?, lineColumn]
  by_cases h : 0 < offset
  · obtain ⟨before, hbefore, htoNat⟩ := @Word.sub?_eq_some offset 1 (hpos.mp h)
    have hone : (1 : UInt64).toNat = 1 := rfl
    rw [hone] at htoNat
    simp only [h, if_true, hbefore, htoNat, hpos.mp h, true_and, Option.bind_eq_bind,
      Option.bind_some]
    split <;> rfl
  · simp only [h, if_false, mt hpos.mpr h, false_and]

/-- A line number is found only inside the code. -/
theorem lt_size_of_line?_eq_some (h : c.Coupled) {offset : Nat} {line : Line}
    (hline : c.lines.line? offset = some line) : offset < c.size := by
  rw [line?_eq_content h] at hline
  rw [← length_content_lines h]
  exact (List.getElem?_eq_some_iff.mp hline).1

/-- The outcome of writing a trace line behind a text. -/
def Writes (line : TraceLine) (out : String) (outcome : Option (Outcome String UInt64)) : Prop :=
  ∃ next : UInt64, next.toNat = line.next ∧
    outcome = some ⟨next, out ++ line.text, line.warnings⟩

/-- The rest of a line is written behind its columns. -/
theorem writes_rest {next : UInt64} {n : Nat} (h : next.toNat = n) (out columns rest : String)
    (warnings : List Event) :
    Writes ⟨columns ++ rest, n, warnings⟩ out (some ⟨next, out ++ columns ++ rest, warnings⟩) :=
  ⟨next, h, by rw [String.append_assoc]⟩

theorem writes_writeConstant? (c : Chunk) {offset : UInt64} {op : Opcode}
    (h : offset.toNat + op.width < 2 ^ 64) (index : Nat) (columns out : String) :
    Writes (c.constantLine columns offset.toNat op index) out
      (c.writeConstant? offset op index (out ++ columns)) := by
  have hwidth : (UInt64.ofNat op.width).toNat = op.width :=
    UInt64.toNat_ofNat_of_lt' (by rw [UInt64.size]; omega)
  obtain ⟨next, hnext, htoNat⟩ :=
    @Word.add?_eq_some offset (UInt64.ofNat op.width) (by rwa [hwidth])
  rw [hwidth] at htoNat
  refine ⟨next, by rw [htoNat, next_constantLine], ?_⟩
  simp only [writeConstant?, constantLine, hnext, Option.bind_eq_bind, Option.bind_some]
  cases c.constant index with
  | ok value => simp only [String.append_assoc]; rfl
  | error e => simp only [String.append_assoc]; rfl

/-- **A trace line is written behind any text, at any position.** -/
theorem writes_writeLine? (h : c.Coupled) (hsize : c.size < 2 ^ 63) (offset : UInt64)
    (out : String) :
    Writes (c.traceLine offset.toNat) out (c.writeLine? offset out) := by
  have hone : (1 : UInt64).toNat = 1 := rfl
  have hend : (UInt64.ofNat c.size).toNat = c.size :=
    UInt64.toNat_ofNat_of_lt' (by rw [UInt64.size]; omega)
  cases hline : c.lines.line? offset.toNat with
  | none =>
    simp only [writeLine?, traceLine, hline]
    exact writes_rest hend out _ _ _
  | some line =>
    have hlt : offset.toNat < c.size := lt_size_of_line?_eq_some h hline
    obtain ⟨next, hnext, htoNat⟩ := @Word.add?_eq_some offset 1 (by omega)
    rw [hone] at htoNat
    simp only [writeLine?, traceLine, hline, writeLineColumn?_eq,
      Instruction.decode64?_eq (show c.code.items.size < 2 ^ 63 from hsize),
      Option.bind_eq_bind, Option.bind_some, decodeAt]
    have hwidth : ∀ op : Opcode, offset.toNat + op.width < 2 ^ 64 := by
      intro op
      have : op.width ≤ 4 := by cases op <;> decide
      omega
    have hcolumns : out ++ (TraceColumn.offset.text (toString offset.toNat) ++ " ") ++
        c.lineColumn offset.toNat line =
          out ++ (TraceColumn.offset.text (toString offset.toNat) ++ " " ++
            c.lineColumn offset.toNat line) := String.append_assoc
    rw [hcolumns]
    -- from here on only what follows the columns matters
    generalize TraceColumn.offset.text (toString offset.toNat) ++ " " ++
      c.lineColumn offset.toNat line = columns
    cases Instruction.decode c.code.items offset.toNat with
    | ok i =>
      cases i with
      | ret =>
        simp only [hnext, Option.bind_some]
        exact writes_rest htoNat out columns _ _
      | constant index => exact c.writes_writeConstant? (hwidth _) index columns out
      | constantLong index => exact c.writes_writeConstant? (hwidth _) index columns out
    | error e =>
      cases e with
      | unknownOpcode o tag =>
        simp only [hnext, Option.bind_some]
        exact writes_rest htoNat out columns _ _
      | truncated o op needed available =>
        exact writes_rest hend out columns _ _
      | offsetOutOfBounds o n =>
        exact writes_rest hend out columns _ _

/-! ## 2. Where the next line starts -/

/-- Where the trace goes on behind the line at an offset. -/
def nextOffset (c : Chunk) (offset : Nat) : Nat := (c.traceLine offset).next

/-- The line outside the code. -/
theorem traceLine_of_size_le (h : c.Coupled) {offset : Nat} (hle : c.size ≤ offset) :
    c.traceLine offset =
      ⟨TraceColumn.offset.text (toString offset) ++ " " ++ s!"offset {offset} out of bounds\n",
        c.size, []⟩ := by
  have hline : c.lines.line? offset = none := by
    rw [line?_eq_content h, List.getElem?_eq_none_iff, length_content_lines h]
    exact hle
  simp only [traceLine, hline]

/-- **Inside the code the next line starts behind this one**, and not behind the end of the code. -/
theorem nextOffset_bounds (h : c.Coupled) {offset : Nat} (hlt : offset < c.size) :
    offset < c.nextOffset offset ∧ c.nextOffset offset ≤ c.size := by
  have hnext := (traceLine_eq h hlt).2
  have hpos := @WalkItem.span_pos ⟨offset, c.decodeAt offset⟩ c.size hlt
  have hle := @offset_add_span_le c.code.items offset hlt
  rw [nextOffset, hnext]
  exact ⟨Nat.lt_add_of_pos_right hpos, hle⟩

/-- From an offset in the code, as many lines as there are bytes behind it reach the end. -/
theorem exists_iterate_eq_size (h : c.Coupled) {offset : Nat} (hle : offset ≤ c.size) :
    ∃ k ≤ c.size - offset, c.nextOffset^[k] offset = c.size := by
  induction hm : c.size - offset using Nat.strongRecOn generalizing offset with
  | ind m ih =>
    rcases Nat.lt_or_ge offset c.size with hlt | hge
    · obtain ⟨hafter, hinside⟩ := nextOffset_bounds h hlt
      obtain ⟨k, hk, hend⟩ := ih (c.size - c.nextOffset offset) (by omega) hinside rfl
      refine ⟨k + 1, by omega, ?_⟩
      rw [Function.iterate_succ_apply, hend]
    · refine ⟨0, Nat.zero_le _, ?_⟩
      exact Nat.le_antisymm hle hge

/-! ## 3. One line at any offset -/

/-- What a trace line is, and where it sends the reader. -/
structure WritesLine (c : Chunk) (offset : Nat) : Prop where
  /-- The text is one line, and starts with the offset in at least four digits. -/
  one_line : ∃ line, (c.traceLine offset).text.toList = line ++ ['\n'] ∧ '\n' ∉ line ∧
    (digitsOf offset).leftpad 4 '0' ++ [' '] <+: line
  /-- Inside the code the next line starts behind the offset, and not behind the end. -/
  next_bounds : offset < c.size → offset < c.nextOffset offset ∧ c.nextOffset offset ≤ c.size
  next_of_ok : ∀ i, c.decodeAt offset = .ok i → c.nextOffset offset = offset + i.width
  next_of_unknownOpcode : ∀ o tag, c.decodeAt offset = .error (.unknownOpcode o tag) →
    c.nextOffset offset = offset + 1
  next_of_truncated : ∀ o op needed available,
    c.decodeAt offset = .error (.truncated o op needed available) →
      c.nextOffset offset = c.size
  /-- Outside the code the line says so, and sends back to the end. -/
  outside : c.size ≤ offset →
    (c.traceLine offset).text.toList =
        (digitsOf offset).leftpad 4 '0' ++ " offset ".toList ++ digitsOf offset ++
          " out of bounds\n".toList ∧
      c.nextOffset offset = c.size
  /-- The end is reached by as many lines as there are bytes in front of it, and at least by one. -/
  reaches_end : ∃ k ≤ max 1 (c.size - offset), c.nextOffset^[k] offset = c.size
  /-- Behind a line number, what is decoded is inside the code. -/
  decoded_inside : ∀ line, c.lines.line? offset = some line →
    ∀ o n, c.decodeAt offset ≠ .error (.offsetOutOfBounds o n)

/-- The text of the line outside the code. -/
theorem toList_traceLine_of_size_le (h : c.Coupled) {offset : Nat} (hle : c.size ≤ offset) :
    (c.traceLine offset).text.toList =
      (digitsOf offset).leftpad 4 '0' ++ " offset ".toList ++ digitsOf offset ++
        " out of bounds\n".toList := by
  have hcolumn : (TraceColumn.offset.text (toString offset)).toList =
      (digitsOf offset).leftpad 4 '0' := toList_text_right '0' offset
  have hblank : " offset ".toList = " ".toList ++ "offset ".toList := rfl
  rw [traceLine_of_size_le h hle, hblank]
  simp only [String.toList_append, hcolumn, toString_string, toList_toString, List.append_assoc]

/-- **A trace line is one line of text, and the trace goes on**, at any offset. -/
theorem writesLine_of_coupled (h : c.Coupled) (offset : Nat) : c.WritesLine offset := by
  have hdecoded : ∀ line, c.lines.line? offset = some line →
      ∀ o n, c.decodeAt offset ≠ .error (.offsetOutOfBounds o n) := by
    intro line hline o n hd
    have hlt : offset < c.code.items.size := lt_size_of_line?_eq_some h hline
    have hge := (Instruction.decode_eq_offsetOutOfBounds_iff.mp hd).1
    exact absurd hlt (Nat.not_lt.mpr hge)
  rcases Nat.lt_or_ge offset c.size with hlt | hge
  · obtain ⟨htext, hnext⟩ := traceLine_eq h hlt
    have hspan : c.nextOffset offset =
        offset + WalkItem.span ⟨offset, c.decodeAt offset⟩ c.size := hnext
    refine ⟨?_, fun _ => nextOffset_bounds h hlt, ?_, ?_, ?_, ?_, ?_, hdecoded⟩
    · refine ⟨_, htext, c.content.lineFeed_not_mem_shownRow _, ?_⟩
      simp [Content.shownRow]
    · intro i hi
      rw [hspan, hi]
      rfl
    · intro o tag htag
      rw [hspan, htag]
      rfl
    · intro o op needed available htruncated
      rw [hspan, htruncated]
      exact Nat.add_sub_cancel' (Nat.le_of_lt hlt)
    · intro hge
      exact absurd hlt (Nat.not_lt.mpr hge)
    · obtain ⟨k, hk, hend⟩ := exists_iterate_eq_size h (Nat.le_of_lt hlt)
      exact ⟨k, Nat.le_trans hk (Nat.le_max_right ..), hend⟩
  · have htext := toList_traceLine_of_size_le h hge
    have hnext : c.nextOffset offset = c.size := by
      rw [nextOffset, traceLine_of_size_le h hge]
    have hd : c.decodeAt offset = .error (.offsetOutOfBounds offset c.size) :=
      Instruction.decode_eq_offsetOutOfBounds_iff.mpr ⟨hge, rfl, rfl⟩
    refine ⟨?_, ?_, ?_, ?_, ?_, fun _ => ⟨htext, hnext⟩, ⟨1, Nat.le_max_left .., hnext⟩, hdecoded⟩
    · have hfeed : " out of bounds\n".toList = " out of bounds".toList ++ ['\n'] := rfl
      have hword : '\n' ∉ " offset ".toList := by decide
      have hend : '\n' ∉ " out of bounds".toList := by decide
      refine ⟨(digitsOf offset).leftpad 4 '0' ++ " offset ".toList ++ digitsOf offset ++
        " out of bounds".toList, ?_, ?_, ?_⟩
      · rw [htext, hfeed, ← List.append_assoc]
      · simp only [List.mem_append, not_or]
        exact ⟨⟨⟨not_mem_leftpad_digitsOf _ _ (by decide) (by decide), hword⟩,
          Content.lineFeed_not_mem_digitsOf offset⟩, hend⟩
      · have hblank : " offset ".toList = [' '] ++ "offset ".toList := rfl
        rw [hblank]
        simp only [List.append_assoc]
        rw [← List.append_assoc]
        exact List.prefix_append ..
    · intro hlt
      exact absurd hlt (Nat.not_lt.mpr hge)
    · intro i hi
      rw [hd] at hi
      cases hi
    · intro o tag htag
      rw [hd] at htag
      cases htag
    · intro o op needed available htruncated
      rw [hd] at htruncated
      cases htruncated

/-- **Every trace line is one line and makes progress**, whatever bytes the chunk holds and wherever
the line is asked for.  With positions in words it is written behind any text, without an overflow
and with what was there in front of it. -/
theorem edited_writesLine (edits : List Edit) :
    (∀ offset, (empty.edited edits).WritesLine offset) ∧
    ((empty.edited edits).size < 2 ^ 63 → ∀ (offset : UInt64) (out : String),
      ∃ next : UInt64,
        next.toNat = (empty.edited edits).nextOffset offset.toNat ∧
        (empty.edited edits).writeLine? offset out =
          some ⟨next, out ++ ((empty.edited edits).traceLine offset.toNat).text,
            ((empty.edited edits).traceLine offset.toNat).warnings⟩) := by
  have h : (empty.edited edits).Coupled := coupled_edited coupled_empty edits
  refine ⟨writesLine_of_coupled h, ?_⟩
  intro hsize offset out
  exact writes_writeLine? h hsize offset out

/-- In the middle of a truncated operand, and at the greatest word. -/
theorem edited_writesLine_of_truncated :
    (empty.edited [.byte 2 1, .byte 0 1]).size < 2 ^ 63 ∧
      (∃ next : UInt64, next.toNat = 2 ∧
        (empty.edited [.byte 2 1, .byte 0 1]).writeLine? 0 "x\n" =
          some ⟨next,
            "x\n" ++ "0000    1 truncated CONSTANT_LONG: needs 3 operand bytes, 1 available\n",
            [.truncatedOperand .constantLong 0]⟩) ∧
      ∃ next : UInt64, next.toNat = 2 ∧
        (empty.edited [.byte 2 1, .byte 0 1]).writeLine? 0xFFFFFFFFFFFFFFFF "" =
          some ⟨next,
            "" ++ "18446744073709551615 offset 18446744073709551615 out of bounds\n", []⟩ := by
  have hsize : (empty.edited [.byte 2 1, .byte 0 1]).size < 2 ^ 63 := by decide +kernel
  obtain ⟨-, hwrites⟩ := edited_writesLine [.byte 2 1, .byte 0 1]
  have htext : ((empty.edited [.byte 2 1, .byte 0 1]).traceLine 0).text =
      "0000    1 truncated CONSTANT_LONG: needs 3 operand bytes, 1 available\n" := by
    decide +kernel
  have hwarnings : ((empty.edited [.byte 2 1, .byte 0 1]).traceLine 0).warnings =
      [.truncatedOperand .constantLong 0] := by decide +kernel
  have htext' : ((empty.edited [.byte 2 1, .byte 0 1]).traceLine 0xFFFFFFFFFFFFFFFF).text =
      "18446744073709551615 offset 18446744073709551615 out of bounds\n" := by decide +kernel
  have hwarnings' : ((empty.edited [.byte 2 1, .byte 0 1]).traceLine
      0xFFFFFFFFFFFFFFFF).warnings = [] := by decide +kernel
  obtain ⟨next, hnext, hwrite⟩ := hwrites hsize 0 "x\n"
  obtain ⟨next', hnext', hwrite'⟩ := hwrites hsize 0xFFFFFFFFFFFFFFFF ""
  refine ⟨hsize, ⟨next, ?_, ?_⟩, ⟨next', ?_, ?_⟩⟩
  · rw [hnext]
    decide +kernel
  · rw [hwrite, ← htext, ← hwarnings]
    rfl
  · rw [hnext']
    decide +kernel
  · rw [hwrite', ← htext', ← hwarnings']
    rfl

end Chunk
end BytecodeTrace
