/-
# Chunks

A chunk is the code of a program with the source line of every byte and the constants that the
code loads.  It is built by appending whole instructions, or byte by byte.

Every operation that changes a chunk has an `Outcome`, so the chunk that a refused append leaves
behind is part of what it answers.
-/
import BytecodeTrace.Instruction
import BytecodeTrace.LineTable

namespace BytecodeTrace

/-- Code, lines and constants. -/
structure Chunk where
  code : Buffer UInt8
  lines : LineTable
  constants : ConstantPool
deriving DecidableEq, Repr, Inhabited

namespace Chunk

/-- No code and no constants. -/
def empty : Chunk := ⟨.empty, .empty, .empty⟩

/-- The number of code bytes. -/
def size (c : Chunk) : Nat := c.code.size

/-- There is no code. -/
def isEmpty (c : Chunk) : Bool := c.code.isEmpty

/-- The capacity of the code. -/
def capacity (c : Chunk) : Nat := c.code.capacity

/-! ## 1. Building -/

/-- Appends one byte of code that comes from a line. -/
@[inline] def writeByte (c : Chunk) (byte : UInt8) (line : Line) : Outcome Chunk Unit :=
  match c with
  | ⟨code, lines, constants⟩ =>
    match code.append byte with
    | ⟨_, code, codeEvents⟩ =>
      match lines.push line with
      | ⟨_, lines, lineEvents⟩ => ⟨(), ⟨code, lines, constants⟩, codeEvents ++ lineEvents⟩

/-- Appends bytes that all come from one line. -/
def writeBytes (c : Chunk) (bytes : List UInt8) (line : Line) : Outcome Chunk Unit :=
  match bytes with
  | [] => .pure () c
  | byte :: bytes => (c.writeByte byte line).andThen fun _ c => c.writeBytes bytes line

/-- Appends an instruction without operands; operations that need operands are refused. -/
def appendInstruction (c : Chunk) (op : Opcode) (line : Line) :
    Outcome Chunk (Except ChunkError Unit) :=
  if op.operandBytes ≠ 0 then .pure (.error (.operandRequired op)) c
  else
    match c.writeByte op.tag line with
    | ⟨_, c, events⟩ => ⟨.ok (), c, events ++ [.instructionEmitted op line]⟩

/-- Stores a value in the pool and appends the instruction that loads it, with the shortest
operand for its index; answers the index. -/
def appendConstant (c : Chunk) (value : Value) (line : Line) :
    Outcome Chunk (Except ChunkError Nat) :=
  match c with
  | ⟨code, lines, constants⟩ =>
    match constants.append value with
    | ⟨.error e, constants, events⟩ => ⟨.error e, ⟨code, lines, constants⟩, events⟩
    | ⟨.ok index, constants, poolEvents⟩ =>
      match ConstantOperand.forIndex index with
      | .error e => ⟨.error e, ⟨code, lines, constants⟩, poolEvents⟩
      | .ok operand =>
        match Chunk.writeBytes ⟨code, lines, constants⟩
            (operand.opcode.tag :: operand.bytes) line with
        | ⟨_, c, byteEvents⟩ =>
          ⟨.ok index, c,
            poolEvents ++ byteEvents ++ [.constantEmitted operand.opcode index value line]⟩

/-- Gives up code, lines and constants. -/
def release (c : Chunk) : Outcome Chunk Unit :=
  ⟨(), ⟨c.code.release, c.lines.release, c.constants.release⟩, [.chunkReleased]⟩

/-! ## 2. Reading -/

/-- The byte at an offset. -/
def byteAt (c : Chunk) (offset : Nat) : Except OutOfBounds UInt8 := c.code.get offset

/-- The source line of the byte at an offset. -/
def lineAt (c : Chunk) (offset : Nat) : Except OutOfBounds Line :=
  match c.lines.line? offset with
  | some line => .ok line
  | none => .error ⟨offset, c.lines.size⟩

/-- The constant with an index. -/
def constant (c : Chunk) (index : Nat) : Except ChunkError Value := c.constants.get index

/-- The instruction at an offset. -/
def decodeAt (c : Chunk) (offset : Nat) : Except DecodeError Instruction :=
  Instruction.decode c.code.items offset

/-- Equal code and lines, numerically equal constants, and equal capacities throughout. -/
def ieeeEq (a b : Chunk) : Bool :=
  a.code == b.code && a.lines == b.lines && a.constants.ieeeEq b.constants

/-! ## 3. The reference chunk -/

/-- A return of line 0, and a load of 1.2 of line 1. -/
def reference : Outcome Chunk (Except ChunkError Unit) :=
  (empty.appendInstruction .ret 0).andThen fun answer c =>
    match answer with
    | .error e => .pure (.error e) c
    | .ok () =>
      (c.appendConstant ⟨0x3ff3333333333333⟩ 1).andThen fun answer c =>
        .pure (answer.map fun _ => ()) c

end Chunk
end BytecodeTrace
