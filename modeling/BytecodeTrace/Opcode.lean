/-
# Opcodes and source lines

The three operations of the bytecode, with their tag bytes, the widths of their operands and
their mnemonics.
-/
namespace BytecodeTrace

/-- A source line number. -/
abbrev Line := UInt32

/-- An operation.  `constant` and `constantLong` load a constant whose index is held in one
operand byte or in three. -/
inductive Opcode where
  | ret
  | constant
  | constantLong
deriving DecidableEq, Repr

namespace Opcode

/-- All operations, by ascending tag. -/
def all : List Opcode := [ret, constant, constantLong]

/-- The byte that starts an instruction of this operation. -/
def tag : Opcode → UInt8
  | ret => 0
  | constant => 1
  | constantLong => 2

/-- The operation that a tag byte names. -/
def ofTag? (tag : UInt8) : Option Opcode :=
  all.find? fun op => op.tag == tag

/-- The number of bytes behind the tag. -/
def operandBytes : Opcode → Nat
  | ret => 0
  | constant => 1
  | constantLong => 3

/-- The number of bytes of an instruction, tag included. -/
def width (op : Opcode) : Nat := 1 + op.operandBytes

/-- The name of the operation in listings and traces. -/
def mnemonic : Opcode → String
  | ret => "RETURN"
  | constant => "CONSTANT"
  | constantLong => "CONSTANT_LONG"

/-- The operation with this mnemonic, up to the case of ASCII letters. -/
def ofMnemonic? (name : String) : Option Opcode :=
  all.find? fun op => op.mnemonic.toList.map Char.toLower == name.toList.map Char.toLower

/-- An instruction takes at least one byte. -/
theorem width_pos (op : Opcode) : 0 < op.width := by unfold width; omega

/-- A tag names its operation. -/
@[simp] theorem ofTag?_tag (op : Opcode) : ofTag? op.tag = some op := by cases op <;> decide

/-- Only the tag of an operation names it. -/
theorem ofTag?_eq_some_iff {tag : UInt8} {op : Opcode} : ofTag? tag = some op ↔ tag = op.tag := by
  constructor
  · intro h
    have := List.find?_some h
    exact (beq_iff_eq.mp this).symm
  · rintro rfl
    exact ofTag?_tag op

end Opcode
end BytecodeTrace
