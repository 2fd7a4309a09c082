/-
# Faults

What can go wrong in a buffer, in a chunk and in decoding, each as its cause with the data that
describe it, and the one text of each.
-/
import BytecodeTrace.Opcode

namespace BytecodeTrace

/-- An index at or beyond the number of entries. -/
structure OutOfBounds where
  index : Nat
  size : Nat
deriving DecidableEq, Repr

/-- The text of the fault. -/
def OutOfBounds.message (e : OutOfBounds) : String :=
  s!"index {e.index} out of bounds (len {e.size})"

/-- Why a chunk or its constant pool refuses. -/
inductive ChunkError where
  /-- The operation needs operands, and was to be appended without. -/
  | operandRequired (op : Opcode)
  /-- Every index that fits in an operand is taken. -/
  | poolFull (size : Nat)
  /-- The index does not fit in three bytes. -/
  | indexTooWide (index : Nat)
  /-- The pool has no constant with this index. -/
  | constantOutOfRange (index size : Nat)
  | outOfBounds (cause : OutOfBounds)
deriving DecidableEq, Repr

/-- The text of the refusal. -/
def ChunkError.message : ChunkError → String
  | .operandRequired op =>
    s!"opcode {op.mnemonic} carries operands and must be emitted through append_constant"
  | .poolFull size => s!"constant pool is full ({size} entries, 24-bit index space exhausted)"
  | .indexTooWide index => s!"constant index {index} does not fit in 24 bits"
  | .constantOutOfRange index size => s!"constant index {index} out of range (pool holds {size})"
  | .outOfBounds cause => cause.message

/-- Why the bytes at an offset are no instruction. -/
inductive DecodeError where
  /-- The byte is not the tag of an operation. -/
  | unknownOpcode (offset : Nat) (tag : UInt8)
  /-- The code ends inside the operand. -/
  | truncated (offset : Nat) (op : Opcode) (needed available : Nat)
  /-- The code ends before the offset. -/
  | offsetOutOfBounds (offset size : Nat)
deriving DecidableEq, Repr

/-- The text of the fault. -/
def DecodeError.message : DecodeError → String
  | .unknownOpcode offset tag => s!"unknown instruction {tag.toNat} at offset {offset}"
  | .truncated offset op needed available =>
    s!"truncated {op.mnemonic} at offset {offset}: " ++
      s!"needs {needed} operand bytes, {available} available"
  | .offsetOutOfBounds offset size => s!"offset {offset} out of bounds (len {size})"

end BytecodeTrace
