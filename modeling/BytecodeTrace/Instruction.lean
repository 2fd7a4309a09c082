/-
# Instructions

The decoded form of the code, and the encoding of constant indices.  An index up to 255 takes one
operand byte, a larger one takes three, the most significant first.

`Instruction.decode` reads one instruction at an offset; `ConstantOperand.forIndex` chooses the
shortest operand for an index.
-/
import BytecodeTrace.Fault
import BytecodeTrace.ConstantPool

namespace BytecodeTrace

/-! ## 1. Operands -/

/-- The operand of an instruction that loads a constant. -/
inductive ConstantOperand where
  | short (byte : UInt8)
  | long (high middle low : UInt8)
deriving DecidableEq, Repr

namespace ConstantOperand

/-- The number that three bytes stand for, the most significant first. -/
def ofBytes (high middle low : UInt8) : Nat :=
  high.toNat * 65536 + middle.toNat * 256 + low.toNat

/-- The shortest operand that holds an index. -/
def forIndex (index : Nat) : Except ChunkError ConstantOperand :=
  if index < 256 then .ok (.short (UInt8.ofNat index))
  else if ConstantPool.limit ≤ index then .error (.indexTooWide index)
  else .ok (.long (UInt8.ofNat (index / 65536)) (UInt8.ofNat (index / 256)) (UInt8.ofNat index))

/-- The operation that has an operand of this width. -/
def opcode : ConstantOperand → Opcode
  | short _ => .constant
  | long _ _ _ => .constantLong

/-- The operand as it stands in the code. -/
def bytes : ConstantOperand → List UInt8
  | short byte => [byte]
  | long high middle low => [high, middle, low]

end ConstantOperand

/-! ## 2. Decoding -/

/-- One decoded instruction. -/
inductive Instruction where
  | ret
  | constant (index : Nat)
  | constantLong (index : Nat)
deriving DecidableEq, Repr

namespace Instruction

/-- The operation of the instruction. -/
def opcode : Instruction → Opcode
  | ret => .ret
  | constant _ => .constant
  | constantLong _ => .constantLong

/-- The number of bytes it takes. -/
def width (i : Instruction) : Nat := i.opcode.width

/-- The index of the constant that it loads. -/
def constantIndex? : Instruction → Option Nat
  | ret => none
  | constant index | constantLong index => some index

/-- Decodes the instruction that starts at an offset. -/
def decode (code : Array UInt8) (offset : Nat) : Except DecodeError Instruction :=
  match code[offset]? with
  | none => .error (.offsetOutOfBounds offset code.size)
  | some tag =>
    match Opcode.ofTag? tag with
    | none => .error (.unknownOpcode offset tag)
    | some .ret => .ok .ret
    | some .constant =>
      match code[offset + 1]? with
      | some byte => .ok (.constant byte.toNat)
      | none => .error (truncated .constant)
    | some .constantLong =>
      match code[offset + 1]?, code[offset + 2]?, code[offset + 3]? with
      | some high, some middle, some low =>
        .ok (.constantLong (ConstantOperand.ofBytes high middle low))
      | _, _, _ => .error (truncated .constantLong)
where
  truncated (op : Opcode) : DecodeError :=
    .truncated offset op op.operandBytes (code.size - offset - 1)

/-- An instruction takes at least one byte. -/
theorem width_pos (i : Instruction) : 0 < i.width := i.opcode.width_pos

end Instruction
end BytecodeTrace
