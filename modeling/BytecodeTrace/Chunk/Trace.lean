/-
# Traces

The trace of a chunk is a header and one line per instruction:

    OOOO LLLL MNEMONIC         IIII 'VALUE'

The offset is filled with zeros, the source line stands to the right of its column, or a bar in
its place when it is the line of the byte before, then come the mnemonic, the index and the value.

What cannot be decoded is shown in place of the instruction, with a warning, and the trace goes
on.  `lt_next` says that every line of the trace advances, so the trace ends.
-/
import BytecodeTrace.Chunk.Basic
import BytecodeTrace.Text.Span

namespace BytecodeTrace

/-! ## 1. Columns -/

namespace TraceColumn

/-- Offsets are filled with zeros. -/
def offset : Text.Column := ⟨4, .right, none, '0'⟩

/-- Source lines stand to the right. -/
def line : Text.Column := ⟨4, .right, none, ' '⟩

/-- Mnemonics stand to the left. -/
def mnemonic : Text.Column := ⟨16, .left, none, ' '⟩

/-- Indices stand to the right. -/
def index : Text.Column := ⟨4, .right, none, ' '⟩

end TraceColumn

/-- One line of a trace, where the next one starts, and the warnings given on the way. -/
structure TraceLine where
  text : String
  next : Nat
  warnings : List Event

namespace Chunk

/-- The source line, or a bar when the byte before has the same one. -/
def lineColumn (c : Chunk) (offset : Nat) (line : Line) : String :=
  if 0 < offset ∧ c.lines.line? (offset - 1) = some line then "   | "
  else TraceColumn.line.text (toString line.toNat) ++ " "

/-- The line of an instruction that loads a constant. -/
def constantLine (c : Chunk) (columns : String) (offset : Nat) (op : Opcode) (index : Nat) :
    TraceLine :=
  let columns := columns ++ TraceColumn.mnemonic.text op.mnemonic ++ " " ++
    TraceColumn.index.text (toString index) ++ " "
  match c.constant index with
  | .ok value => ⟨columns ++ s!"'{value.text}'\n", offset + op.width, []⟩
  | .error _ =>
    ⟨columns ++ "'<missing constant>'\n", offset + op.width,
      [.danglingConstant index c.constants.size offset]⟩

/-- The trace line at an offset, whatever is there. -/
def traceLine (c : Chunk) (offset : Nat) : TraceLine :=
  let columns := TraceColumn.offset.text (toString offset) ++ " "
  match c.lines.line? offset with
  | none => ⟨columns ++ s!"offset {offset} out of bounds\n", c.size, []⟩
  | some line =>
    let columns := columns ++ c.lineColumn offset line
    match c.decodeAt offset with
    | .ok .ret => ⟨columns ++ s!"{Opcode.ret.mnemonic}\n", offset + 1, []⟩
    | .ok (.constant index) => c.constantLine columns offset .constant index
    | .ok (.constantLong index) => c.constantLine columns offset .constantLong index
    | .error (.unknownOpcode _ tag) =>
      ⟨columns ++ s!"unknown instruction {tag.toNat}\n", offset + 1, [.unknownTag tag offset]⟩
    | .error (.truncated _ op needed available) =>
      ⟨columns ++
          s!"truncated {op.mnemonic}: needs {needed} operand bytes, {available} available\n",
        c.size, [.truncatedOperand op offset]⟩
    | .error (.offsetOutOfBounds ..) =>
      ⟨columns ++ s!"offset {offset} out of bounds\n", c.size, []⟩

/-! ## 2. Progress -/

/-- The next line starts behind the operand. -/
theorem next_constantLine (c : Chunk) (columns : String) (offset : Nat) (op : Opcode)
    (index : Nat) : (c.constantLine columns offset op index).next = offset + op.width := by
  unfold constantLine
  split <;> rfl

/-- **A trace line advances.**  Inside the code, the next line starts behind this one. -/
theorem lt_next {c : Chunk} {offset : Nat} (h : offset < c.size) :
    offset < (c.traceLine offset).next := by
  unfold traceLine
  split
  · exact h
  · split
    · exact Nat.lt_succ_self offset
    · rw [next_constantLine]; exact Nat.lt_add_of_pos_right (Opcode.width_pos _)
    · rw [next_constantLine]; exact Nat.lt_add_of_pos_right (Opcode.width_pos _)
    · exact Nat.lt_succ_self offset
    · exact h
    · exact h

/-! ## 3. The whole trace -/

/-- The trace lines from an offset to the end of the code. -/
def traceLines (c : Chunk) (offset : Nat) : List TraceLine :=
  if _h : offset < c.size then
    let line := c.traceLine offset
    line :: c.traceLines line.next
  else []
termination_by c.size - offset
decreasing_by
  have := lt_next _h
  omega

/-- The line above a trace. -/
def traceHeader (name : String) : String := s!"== {name} ==\n"

/-- The trace of a chunk under a name. -/
def trace (c : Chunk) (name : String) : String :=
  String.join (traceHeader name :: (c.traceLines 0).map TraceLine.text)

/-- The warnings of the trace, in the order of its lines. -/
def traceWarnings (c : Chunk) : List Event := (c.traceLines 0).flatMap TraceLine.warnings

end Chunk
end BytecodeTrace
