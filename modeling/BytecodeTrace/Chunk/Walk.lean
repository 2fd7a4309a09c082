/-
# Walking through the code

The walk decodes the code from its first byte to its last.  Behind an instruction it goes on with
the next one, behind an unknown tag with the next byte, and a truncated operand ends it.
-/
import BytecodeTrace.Chunk.Basic

namespace BytecodeTrace

/-- One step of a walk: an offset and what was decoded there. -/
structure WalkItem where
  offset : Nat
  decoded : Except DecodeError Instruction

namespace WalkItem

/-- The number of bytes that the item covers, in code of this size. -/
def span (item : WalkItem) (size : Nat) : Nat :=
  match item.decoded with
  | .ok i => i.width
  | .error (.unknownOpcode ..) => 1
  | .error _ => size - item.offset

/-- An item inside the code covers at least one byte. -/
theorem span_pos {item : WalkItem} {size : Nat} (h : item.offset < size) : 0 < item.span size := by
  unfold span
  split
  · exact Instruction.width_pos _
  · exact Nat.one_pos
  · omega

end WalkItem

/-- The items of a walk that starts at an offset. -/
def walkFrom (code : Array UInt8) (offset : Nat) : List WalkItem :=
  if _h : offset < code.size then
    let item : WalkItem := ⟨offset, Instruction.decode code offset⟩
    item :: walkFrom code (offset + item.span code.size)
  else []
termination_by code.size - offset
decreasing_by
  have := @WalkItem.span_pos ⟨offset, Instruction.decode code offset⟩ _ _h
  omega

/-- The items of the walk through a chunk. -/
def Chunk.walk (c : Chunk) : List WalkItem := walkFrom c.code.items 0

end BytecodeTrace
