/-
# Decoding and encoding instructions

`Instruction.decode` gives one of four answers, and each has its condition here: the offset is
outside the code, the byte is no tag, the operand is cut off, or there is an instruction, which
then is read from the bytes of its width alone (`decode_congr`).

`Instruction.encode` is the way back.  `decode_encode` says that an instruction whose index fits in
its operand is decoded again from its bytes, and `forIndex_eq_load` that the operand chosen for an
index is that of the instruction that loads it.
-/
import BytecodeTrace.Instruction

namespace BytecodeTrace

/-! ## 1. What decoding answers -/

namespace Instruction

@[simp] theorem width_ret : ret.width = 1 := rfl

@[simp] theorem width_constant (index : Nat) : (constant index).width = 2 := rfl

@[simp] theorem width_constantLong (index : Nat) : (constantLong index).width = 4 := rfl

/-- Inside the code the first byte is there, so the fault is never that it is missing. -/
theorem decode_eq_offsetOutOfBounds_iff {code : Array UInt8} {offset o n : Nat} :
    decode code offset = .error (.offsetOutOfBounds o n) ↔
      code.size ≤ offset ∧ o = offset ∧ n = code.size := by
  unfold decode
  split
  · rename_i h
    have hle : code.size ≤ offset := by simpa using h
    simp only [Except.error.injEq, DecodeError.offsetOutOfBounds.injEq, hle, true_and]
    exact and_congr eq_comm eq_comm
  · rename_i h
    have hlt := (Array.getElem?_eq_some_iff.mp h).1
    split <;> (try split) <;> simp [decode.truncated] <;> omega

/-- A byte that is no tag is reported. -/
theorem decode_of_ofTag?_eq_none {code : Array UInt8} {offset : Nat} {tag : UInt8}
    (h : code[offset]? = some tag) (ht : Opcode.ofTag? tag = none) :
    decode code offset = .error (.unknownOpcode offset tag) := by
  simp [decode, h, ht]

/-- An operand that reaches over the end of the code is reported. -/
theorem decode_of_size_lt {code : Array UInt8} {offset : Nat} {op : Opcode}
    (h : code[offset]? = some op.tag) (hw : code.size < offset + op.width) :
    decode code offset =
      .error (.truncated offset op op.operandBytes (code.size - offset - 1)) := by
  have hlt := (Array.getElem?_eq_some_iff.mp h).1
  simp only [Opcode.width, Opcode.operandBytes] at hw
  cases op with
  | ret => simp only at hw; omega
  | constant =>
    simp only at hw
    have h1 : code[offset + 1]? = none := by simp; omega
    simp [decode, h, h1, decode.truncated]
  | constantLong =>
    simp only at hw
    have h3 : code[offset + 3]? = none := by simp; omega
    simp [decode, h, h3, decode.truncated]

/-- An instruction that lies inside the code is decoded. -/
theorem decode_of_le_size {code : Array UInt8} {offset : Nat} {op : Opcode}
    (h : code[offset]? = some op.tag) (hw : offset + op.width ≤ code.size) :
    ∃ i, decode code offset = .ok i ∧ i.opcode = op := by
  simp only [Opcode.width, Opcode.operandBytes] at hw
  cases op with
  | ret => exact ⟨.ret, by simp [decode, h], rfl⟩
  | constant =>
    simp only at hw
    simp [decode, h, show offset + 1 < code.size by omega, opcode]
  | constantLong =>
    simp only at hw
    simp [decode, h, show offset + 1 < code.size by omega, show offset + 2 < code.size by omega,
      show offset + 3 < code.size by omega, opcode]

/-- **The three answers inside the code**: an unknown tag, a truncated operand, an instruction. -/
theorem decode_cases {code : Array UInt8} {offset : Nat} (h : offset < code.size) :
    (∃ tag, code[offset]? = some tag ∧ Opcode.ofTag? tag = none ∧
      decode code offset = .error (.unknownOpcode offset tag)) ∨
    (∃ op : Opcode, code[offset]? = some op.tag ∧ code.size < offset + op.width ∧
      decode code offset =
        .error (.truncated offset op op.operandBytes (code.size - offset - 1))) ∨
    (∃ i : Instruction, code[offset]? = some i.opcode.tag ∧ offset + i.width ≤ code.size ∧
      decode code offset = .ok i) := by
  have hget : code[offset]? = some code[offset] := Array.getElem?_eq_getElem h
  cases ht : Opcode.ofTag? code[offset] with
  | none => exact .inl ⟨_, hget, ht, decode_of_ofTag?_eq_none hget ht⟩
  | some op =>
    rw [Opcode.ofTag?_eq_some_iff.mp ht] at hget
    rcases Nat.lt_or_ge code.size (offset + op.width) with hw | hw
    · exact .inr (.inl ⟨op, hget, hw, decode_of_size_lt hget hw⟩)
    · obtain ⟨i, hi, rfl⟩ := decode_of_le_size hget hw
      exact .inr (.inr ⟨i, hget, hw, hi⟩)

/-- A decoded instruction lies inside the code. -/
theorem offset_add_width_le {code : Array UInt8} {offset : Nat} {i : Instruction}
    (h : decode code offset = .ok i) : offset + i.width ≤ code.size := by
  rcases Nat.lt_or_ge offset code.size with hlt | hge
  · rcases decode_cases hlt with ⟨_, _, _, hd⟩ | ⟨_, _, _, hd⟩ | ⟨j, _, hj, hd⟩
    · rw [hd] at h; cases h
    · rw [hd] at h; cases h
    · rw [hd] at h; cases h; exact hj
  · rw [decode_eq_offsetOutOfBounds_iff.mpr ⟨hge, rfl, rfl⟩] at h; cases h

/-- An instruction is decoded from the bytes of its width alone. -/
theorem decode_congr {a b : Array UInt8} {m n : Nat} {i : Instruction}
    (h : decode a m = .ok i) (hb : ∀ k < i.width, b[n + k]? = a[m + k]?) :
    decode b n = .ok i := by
  have hm : m < a.size :=
    Nat.lt_of_lt_of_le (Nat.lt_add_of_pos_right i.width_pos) (offset_add_width_le h)
  rcases decode_cases hm with ⟨_, _, _, hd⟩ | ⟨_, _, _, hd⟩ | ⟨j, htag, hj, hd⟩
  · rw [hd] at h; cases h
  · rw [hd] at h; cases h
  · rw [hd] at h; cases h
    have h0 : b[n]? = a[m]? := hb 0 i.width_pos
    -- the operand bytes are read one by one, so each of them has to be carried over
    cases i with
    | ret => simp [decode, h0, htag, opcode]
    | constant index =>
      have h1 : b[n + 1]? = a[m + 1]? := hb 1 (by simp)
      simp only [decode, htag, opcode, Opcode.ofTag?_tag] at hd
      simp only [decode, h0, h1, htag, opcode, Opcode.ofTag?_tag]
      split at hd
      · exact hd
      · cases hd
    | constantLong index =>
      have h1 : b[n + 1]? = a[m + 1]? := hb 1 (by simp)
      have h2 : b[n + 2]? = a[m + 2]? := hb 2 (by simp)
      have h3 : b[n + 3]? = a[m + 3]? := hb 3 (by simp)
      simp only [decode, htag, opcode, Opcode.ofTag?_tag] at hd
      simp only [decode, h0, h1, h2, h3, htag, opcode, Opcode.ofTag?_tag]
      split at hd
      · exact hd
      · cases hd

end Instruction

/-! ## 2. Encoding -/

namespace Instruction

/-- The bytes of the instruction: its tag and, the most significant first, those of its index. -/
def encode : Instruction → List UInt8
  | ret => [Opcode.ret.tag]
  | constant index => [Opcode.constant.tag, UInt8.ofNat index]
  | constantLong index =>
    [Opcode.constantLong.tag, UInt8.ofNat (index / 65536), UInt8.ofNat (index / 256),
      UInt8.ofNat index]

/-- The index fits in the operand. -/
def Fits : Instruction → Prop
  | ret => True
  | constant index => index < 256
  | constantLong index => index < 2 ^ 24

/-- The instruction that loads the constant with an index: the short one as far as it goes. -/
def load (index : Nat) : Instruction :=
  if index ≤ 255 then constant index else constantLong index

@[simp] theorem length_encode (i : Instruction) : i.encode.length = i.width := by
  cases i <;> rfl

theorem fits_load {index : Nat} (h : index < ConstantPool.limit) : (load index).Fits := by
  unfold load
  split
  · exact Nat.lt_succ_of_le ‹_›
  · exact h

@[simp] theorem constantIndex?_load (index : Nat) : (load index).constantIndex? = some index := by
  unfold load
  split <;> rfl

/-- Three bytes hold every number below `2 ^ 24`. -/
theorem ofBytes_ofNat {index : Nat} (h : index < 2 ^ 24) :
    ConstantOperand.ofBytes (UInt8.ofNat (index / 65536)) (UInt8.ofNat (index / 256))
      (UInt8.ofNat index) = index := by
  simp only [ConstantOperand.ofBytes, UInt8.toNat_ofNat']
  omega

/-- **An encoded instruction is decoded again.** -/
theorem decode_encode {i : Instruction} (h : i.Fits) : decode i.encode.toArray 0 = .ok i := by
  cases i with
  | ret => rfl
  | constant index =>
    have hmod : index % 256 = index := Nat.mod_eq_of_lt h
    simp [decode, encode, hmod]
  | constantLong index => simp [decode, encode, ofBytes_ofNat h]

/-- The operand that is chosen for an index is that of the instruction that loads it. -/
theorem forIndex_eq_load {index : Nat} (h : index < ConstantPool.limit) :
    ∃ operand, ConstantOperand.forIndex index = .ok operand ∧
      operand.opcode = (load index).opcode ∧
      operand.opcode.tag :: operand.bytes = (load index).encode := by
  unfold ConstantOperand.forIndex load
  rcases Nat.lt_or_ge index 256 with hlt | hge
  · rw [if_pos hlt, if_pos (Nat.le_of_lt_succ hlt)]
    exact ⟨_, rfl, rfl, rfl⟩
  · rw [if_neg (Nat.not_lt.mpr hge), if_neg (Nat.not_le.mpr h), if_neg (by omega)]
    exact ⟨_, rfl, rfl, rfl⟩

end Instruction
end BytecodeTrace
