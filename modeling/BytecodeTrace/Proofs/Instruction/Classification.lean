/-
# The answers of decoding, and the operands of indices

What `Instruction.decode` answers is settled by the bytes from the offset on: nothing is there, the
byte is no tag, too few bytes follow the tag, or the code goes on with the encoding of an
instruction (`decode_eq_ok_iff`).  The four conditions exclude each other, and one of them holds.

`ConstantOperand.forIndex` is the way back.  Put between any two pieces of code, the operand of an
index is decoded to that index; and the bytes that were decoded to an index are those of its
operand, unless a long operand holds what fits in a short one.

Positions are words of 64 bits, and a program that adds or subtracts them may overflow.
`decode64?` takes every sum, every difference and every byte only where it exists; that it always
has an answer, and the same one, is the first half of `decode_classifies_and_inverts`.
-/
import BytecodeTrace.Proofs.Instruction
import BytecodeTrace.Proofs.Word

namespace BytecodeTrace

/-! ## 1. Positions in words -/

namespace Instruction

/-- The instruction of an operation and the slice behind its tag, if the slice is long enough. -/
def ofOperand? (operand : List UInt8) : Opcode → Option Instruction
  | .ret => some .ret
  | .constant => do
    let byte ← operand[0]?
    return .constant byte.toNat
  | .constantLong => do
    let high ← operand[0]?
    let middle ← operand[1]?
    let low ← operand[2]?
    return .constantLong (Word.join high middle low).toNat

/-- Decodes the instruction at a position that is a word.  There is no answer where a sum or a
difference is not a word, or where a byte of an operand is not there. -/
def decode64? (code : Array UInt8) (offset : UInt64) : Option (Except DecodeError Instruction) :=
  match code[offset.toNat]? with
  | none => some (.error (.offsetOutOfBounds offset.toNat code.size))
  | some tag =>
    match Opcode.ofTag? tag with
    | none => some (.error (.unknownOpcode offset.toNat tag))
    | some op => do
      let start ← Word.add? offset 1
      let stop ← Word.add? start (UInt64.ofNat op.operandBytes)
      match Word.slice? code start stop with
      | some operand => (ofOperand? operand op).map .ok
      | none => do
        let left ← Word.sub? (UInt64.ofNat code.size) offset
        let available ← Word.sub? left 1
        return .error (.truncated offset.toNat op op.operandBytes available.toNat)

/-- An operand that has the bytes behind the tag is read as decoding reads it. -/
theorem ofOperand?_eq {code : Array UInt8} {offset : Nat} {op : Opcode} {operand : List UInt8}
    (h : code[offset]? = some op.tag) (hw : offset + op.width ≤ code.size)
    (hread : ∀ k < op.operandBytes, operand[k]? = code[offset + 1 + k]?) :
    (ofOperand? operand op).map .ok = some (decode code offset) := by
  simp only [Opcode.width, Opcode.operandBytes] at hw
  cases op with
  | ret => simp [ofOperand?, decode, h]
  | constant =>
    simp only at hw
    have h0 : operand[0]? = code[offset + 1]? := hread 0 (by decide)
    rw [Array.getElem?_eq_getElem (show offset + 1 < code.size by omega)] at h0
    simp [ofOperand?, decode, h, h0, show offset + 1 < code.size by omega]
  | constantLong =>
    simp only at hw
    have h0 : operand[0]? = code[offset + 1]? := hread 0 (by decide)
    have h1 : operand[1]? = code[offset + 2]? := hread 1 (by decide)
    have h2 : operand[2]? = code[offset + 3]? := hread 2 (by decide)
    rw [Array.getElem?_eq_getElem (show offset + 1 < code.size by omega)] at h0
    rw [Array.getElem?_eq_getElem (show offset + 2 < code.size by omega)] at h1
    rw [Array.getElem?_eq_getElem (show offset + 3 < code.size by omega)] at h2
    simp [ofOperand?, decode, h, h0, h1, h2, show offset + 1 < code.size by omega,
      show offset + 2 < code.size by omega, show offset + 3 < code.size by omega,
      Word.toNat_join, ConstantOperand.ofBytes]

/-- **Decoding stays inside the words and inside the code.** -/
theorem decode64?_eq {code : Array UInt8} (h : code.size < 2 ^ 63) (offset : UInt64) :
    decode64? code offset = some (decode code offset.toNat) := by
  rcases Nat.lt_or_ge offset.toNat code.size with hlt | hge
  · have hget : code[offset.toNat]? = some code[offset.toNat] := Array.getElem?_eq_getElem hlt
    cases hop : Opcode.ofTag? code[offset.toNat] with
    | none =>
      rw [decode_of_ofTag?_eq_none hget hop]
      simp only [decode64?, hget, hop]
    | some op =>
      have htag : code[offset.toNat]? = some op.tag := by
        rw [hget, Opcode.ofTag?_eq_some_iff.mp hop]
      have hbytes : op.operandBytes < 4 := by cases op <;> decide
      have hneeded : (UInt64.ofNat op.operandBytes).toNat = op.operandBytes :=
        UInt64.toNat_ofNat_of_lt' (by rw [UInt64.size]; omega)
      have hone : (1 : UInt64).toNat = 1 := rfl
      obtain ⟨start, hstart, hstart'⟩ := @Word.add?_eq_some offset 1 (by rw [hone]; omega)
      obtain ⟨stop, hstop, hstop'⟩ :=
        @Word.add?_eq_some start (UInt64.ofNat op.operandBytes) (by omega)
      rw [hone] at hstart'
      rw [hstart', hneeded] at hstop'
      simp only [decode64?, hget, hop, hstart, hstop, Option.bind_eq_bind, Option.bind_some]
      rcases Nat.lt_or_ge code.size (offset.toNat + op.width) with hw | hw
      · -- the operand is cut off, and what is left of it is counted
        have hslice : Word.slice? code start stop = none := by
          refine if_neg ?_
          rintro ⟨-, hle⟩
          rw [Opcode.width] at hw
          omega
        have hsize : (UInt64.ofNat code.size).toNat = code.size :=
          UInt64.toNat_ofNat_of_lt' (by rw [UInt64.size]; omega)
        obtain ⟨left, hleft, hleft'⟩ :=
          @Word.sub?_eq_some (UInt64.ofNat code.size) offset (by omega)
        obtain ⟨available, havailable, havailable'⟩ := @Word.sub?_eq_some left 1 (by omega)
        rw [decode_of_size_lt htag hw]
        simp only [hslice, hleft, havailable, Option.bind_some, havailable', hleft', hsize, hone]
        rfl
      · have hslice : Word.slice? code start stop =
            some (code.extract start.toNat stop.toNat).toList := by
          refine if_pos ⟨UInt64.le_iff_toNat_le.mpr (by omega), ?_⟩
          rw [Opcode.width] at hw
          omega
        simp only [hslice]
        refine ofOperand?_eq htag hw ?_
        intro k hk
        rw [Opcode.width] at hw
        rw [hstart', hstop']
        exact Word.getElem?_extract (by omega) (by omega)
  · have hget : code[offset.toNat]? = none := Array.getElem?_eq_none hge
    rw [decode_eq_offsetOutOfBounds_iff.mpr ⟨hge, rfl, rfl⟩]
    simp only [decode64?, hget]

end Instruction

namespace ConstantOperand

/-- The shortest operand of an index that is a word: its last byte, or its last three. -/
def forIndex64 (index : UInt64) : Except ChunkError ConstantOperand :=
  if index ≤ 255 then .ok (.short index.toUInt8)
  else if 2 ^ 24 ≤ index then .error (.indexTooWide index.toNat)
  else .ok (.long (Word.byteAt index 16) (Word.byteAt index 8) (Word.byteAt index 0))

/-- The bytes of an index are cut out of its word. -/
theorem forIndex64_eq (index : UInt64) : forIndex64 index = forIndex index.toNat := by
  have hshort : index ≤ 255 ↔ index.toNat < 256 := by
    rw [UInt64.le_iff_toNat_le]
    exact Nat.lt_succ_iff.symm
  have hwide : 2 ^ 24 ≤ index ↔ ConstantPool.limit ≤ index.toNat := UInt64.le_iff_toNat_le
  have hhigh : Word.byteAt index 16 = UInt8.ofNat (index.toNat / 65536) :=
    Word.byteAt_eq index (by decide)
  have hmiddle : Word.byteAt index 8 = UInt8.ofNat (index.toNat / 256) :=
    Word.byteAt_eq index (by decide)
  have hlow : Word.byteAt index 0 = UInt8.ofNat index.toNat := by
    rw [Word.byteAt_eq index (by decide)]
    exact congrArg UInt8.ofNat (Nat.div_one _)
  simp only [forIndex64, forIndex, hshort, hwide, hhigh, hmiddle, hlow]
  rfl

end ConstantOperand

/-! ## 2. The four answers -/

namespace Instruction

/-- Three bytes are found again in the number that they make. -/
theorem ofNat_ofBytes (high middle low : UInt8) :
    UInt8.ofNat (ConstantOperand.ofBytes high middle low / 65536) = high ∧
      UInt8.ofNat (ConstantOperand.ofBytes high middle low / 256) = middle ∧
      UInt8.ofNat (ConstantOperand.ofBytes high middle low) = low := by
  have hhigh := high.toNat_lt
  have hmiddle := middle.toNat_lt
  have hlow := low.toNat_lt
  simp only [← UInt8.toNat_inj, UInt8.toNat_ofNat', ConstantOperand.ofBytes]
  omega

/-- Three bytes make no number that three bytes could not hold. -/
theorem ofBytes_lt (high middle low : UInt8) :
    ConstantOperand.ofBytes high middle low < 2 ^ 24 := by
  have hhigh := high.toNat_lt
  have hmiddle := middle.toNat_lt
  have hlow := low.toNat_lt
  rw [ConstantOperand.ofBytes]
  omega

/-- What is decoded fits in its operand, and its encoding is what the code has there. -/
theorem encode_isPrefix_of_decode {code : Array UInt8} {offset : Nat} {i : Instruction}
    (h : decode code offset = .ok i) : i.Fits ∧ i.encode <+: code.toList.drop offset := by
  have hsize := offset_add_width_le h
  rcases decode_cases (Nat.lt_of_lt_of_le (Nat.lt_add_of_pos_right i.width_pos) hsize) with
    ⟨_, _, _, hd⟩ | ⟨_, _, _, hd⟩ | ⟨j, htag, -, hd⟩
  · rw [hd] at h
    cases h
  · rw [hd] at h
    cases h
  · rw [hd] at h
    cases h
    simp only [List.prefix_iff_getElem?, List.getElem?_drop, Array.getElem?_toList,
      length_encode]
    cases i with
    | ret =>
      refine ⟨trivial, ?_⟩
      rintro (_ | k) hk
      · exact htag
      · simp at hk
    | constant index =>
      simp only [decode, htag, opcode, Opcode.ofTag?_tag] at hd
      split at hd
      · rename_i byte hbyte
        obtain rfl : byte.toNat = index := by simpa using hd
        refine ⟨byte.toNat_lt, ?_⟩
        rintro (_ | _ | k) hk
        · exact htag
        · simpa [encode] using hbyte
        · rw [width_constant] at hk
          omega
      · cases hd
    | constantLong index =>
      simp only [decode, htag, opcode, Opcode.ofTag?_tag] at hd
      split at hd
      · rename_i high middle low hhigh hmiddle hlow
        obtain rfl : ConstantOperand.ofBytes high middle low = index := by simpa using hd
        obtain ⟨h1, h2, h3⟩ := ofNat_ofBytes high middle low
        refine ⟨ofBytes_lt high middle low, ?_⟩
        rintro (_ | _ | _ | _ | k) hk
        · exact htag
        · simpa [encode, h1] using hhigh
        · simpa [encode, h2] using hmiddle
        · simpa [encode, h3] using hlow
        · simp at hk
          omega
      · cases hd

/-- **What is decoded is what the code has the encoding of.** -/
theorem decode_eq_ok_iff {code : Array UInt8} {offset : Nat} {i : Instruction} :
    decode code offset = .ok i ↔ i.Fits ∧ i.encode <+: code.toList.drop offset := by
  constructor
  · exact encode_isPrefix_of_decode
  · rintro ⟨hfits, hprefix⟩
    refine decode_congr (decode_encode hfits) ?_
    intro k hk
    have hk' : k < i.encode.length := by rwa [length_encode]
    have hbyte := List.prefix_iff_getElem?.mp hprefix k hk'
    rw [List.getElem?_drop, Array.getElem?_toList] at hbyte
    rw [hbyte, Nat.zero_add, List.getElem?_toArray, List.getElem?_eq_getElem hk']

/-- A byte is no tag if it is none of the three. -/
theorem ofTag?_eq_none_iff {tag : UInt8} :
    Opcode.ofTag? tag = none ↔ tag ≠ 0 ∧ tag ≠ 1 ∧ tag ≠ 2 := by
  simp only [Opcode.ofTag?, Opcode.all, List.find?_eq_none, List.forall_mem_cons, beq_iff_eq,
    Opcode.tag, List.not_mem_nil, false_implies, implies_true, and_true]
  exact and_congr ne_comm (and_congr ne_comm ne_comm)

/-- An unknown tag is reported where there is one, and nowhere else. -/
theorem decode_eq_unknownOpcode_iff {code : Array UInt8} {offset o : Nat} {tag : UInt8} :
    decode code offset = .error (.unknownOpcode o tag) ↔
      code[offset]? = some tag ∧ Opcode.ofTag? tag = none ∧ o = offset := by
  constructor
  · intro h
    rcases Nat.lt_or_ge offset code.size with hlt | hge
    · rcases decode_cases hlt with ⟨t, hget, ht, hd⟩ | ⟨_, _, _, hd⟩ | ⟨_, _, _, hd⟩
      · rw [hd] at h
        cases h
        exact ⟨hget, ht, rfl⟩
      · rw [hd] at h
        cases h
      · rw [hd] at h
        cases h
    · rw [decode_eq_offsetOutOfBounds_iff.mpr ⟨hge, rfl, rfl⟩] at h
      cases h
  · rintro ⟨hget, ht, rfl⟩
    exact decode_of_ofTag?_eq_none hget ht

/-- A truncated operand is reported where the code has fewer bytes than the operation needs. -/
theorem decode_eq_truncated_iff {code : Array UInt8} {offset o needed available : Nat}
    {op : Opcode} :
    decode code offset = .error (.truncated o op needed available) ↔
      code[offset]? = some op.tag ∧ o = offset ∧ needed = op.operandBytes ∧
        available = code.size - (offset + 1) ∧ available < needed := by
  constructor
  · intro h
    rcases Nat.lt_or_ge offset code.size with hlt | hge
    · rcases decode_cases hlt with ⟨_, _, _, hd⟩ | ⟨op', hget, hw, hd⟩ | ⟨_, _, _, hd⟩
      · rw [hd] at h
        cases h
      · rw [hd] at h
        cases h
        rw [Opcode.width] at hw
        exact ⟨hget, rfl, rfl, Nat.sub_sub .., by omega⟩
      · rw [hd] at h
        cases h
    · rw [decode_eq_offsetOutOfBounds_iff.mpr ⟨hge, rfl, rfl⟩] at h
      cases h
  · rintro ⟨hget, ho, rfl, rfl, hlt⟩
    have hsize : offset < code.size := (Array.getElem?_eq_some_iff.mp hget).1
    rw [decode_of_size_lt hget (by rw [Opcode.width]; omega), Nat.sub_sub, ho]

/-- What decoding answers at an offset, each answer with its condition. -/
structure Classified (code : Array UInt8) (offset : Nat) : Prop where
  /-- The code ends before the offset. -/
  offsetOutOfBounds_iff : ∀ o n, decode code offset = .error (.offsetOutOfBounds o n) ↔
    code.size ≤ offset ∧ o = offset ∧ n = code.size
  /-- The byte is no tag. -/
  unknownOpcode_iff : ∀ o tag, decode code offset = .error (.unknownOpcode o tag) ↔
    code[offset]? = some tag ∧ (tag ≠ 0 ∧ tag ≠ 1 ∧ tag ≠ 2) ∧ o = offset
  /-- The byte is a tag, and fewer bytes follow it than its operation needs. -/
  truncated_iff : ∀ o op needed available,
    decode code offset = .error (.truncated o op needed available) ↔
      code[offset]? = some op.tag ∧ o = offset ∧ needed = op.operandBytes ∧
        available = (code.toList.drop (offset + 1)).length ∧ available < needed
  /-- The byte is a tag, and enough bytes follow it. -/
  exists_ok_iff : (∃ i, decode code offset = .ok i) ↔
    ∃ op : Opcode, code[offset]? = some op.tag ∧
      op.operandBytes ≤ (code.toList.drop (offset + 1)).length
  /-- The instruction is the one whose encoding stands there. -/
  ok_iff : ∀ i, decode code offset = .ok i ↔ i.Fits ∧ i.encode <+: code.toList.drop offset
  /-- The instruction lies in the code, and no byte outside it has any influence. -/
  ok_congr : ∀ i, decode code offset = .ok i →
    offset + i.width ≤ code.size ∧
      ∀ other : Array UInt8,
        (∀ k, offset ≤ k → k < offset + i.width → other[k]? = code[k]?) →
          decode other offset = .ok i

theorem classified_decode (code : Array UInt8) (offset : Nat) : Classified code offset := by
  have hfollow : (code.toList.drop (offset + 1)).length = code.size - (offset + 1) := by
    rw [List.length_drop, Array.length_toList]
  refine ⟨fun o n => decode_eq_offsetOutOfBounds_iff, ?_, ?_, ?_, fun i => decode_eq_ok_iff, ?_⟩
  · intro o tag
    rw [decode_eq_unknownOpcode_iff, ofTag?_eq_none_iff]
  · intro o op needed available
    rw [decode_eq_truncated_iff, hfollow]
  · rw [hfollow]
    constructor
    · rintro ⟨i, hi⟩
      have hsize := offset_add_width_le hi
      have htag := List.prefix_iff_getElem?.mp (decode_eq_ok_iff.mp hi).2 0
        (by rw [length_encode]; exact i.width_pos)
      rw [List.getElem?_drop, Array.getElem?_toList] at htag
      refine ⟨i.opcode, ?_, ?_⟩
      · rw [← Nat.add_zero offset, htag]
        cases i <;> rfl
      · rw [width, Opcode.width] at hsize
        omega
    · rintro ⟨op, htag, hle⟩
      have hlt : offset < code.size := (Array.getElem?_eq_some_iff.mp htag).1
      obtain ⟨i, hi, -⟩ := decode_of_le_size htag (by rw [Opcode.width]; omega)
      exact ⟨i, hi⟩
  · intro i hi
    refine ⟨offset_add_width_le hi, ?_⟩
    intro other hother
    refine decode_congr hi ?_
    intro k hk
    exact hother _ (Nat.le_add_right ..) (Nat.add_lt_add_left hk _)

end Instruction

/-! ## 3. There and back -/

namespace ConstantOperand

open Instruction

/-- The operand of an index: whether there is one, and that it is decoded again anywhere. -/
structure Encodes (index : Nat) : Prop where
  exists_ok_iff : (∃ operand, forIndex index = .ok operand) ↔ index < 2 ^ 24
  error_of_le : 2 ^ 24 ≤ index → forIndex index = .error (.indexTooWide index)
  short_iff : (∃ byte, forIndex index = .ok (.short byte)) ↔ index ≤ 255
  decode_eq : ∀ operand, forIndex index = .ok operand → ∀ before after : List UInt8,
    ∃ i, decode (before ++ operand.opcode.tag :: operand.bytes ++ after).toArray before.length =
        .ok i ∧
      i.constantIndex? = some index ∧ i.width = 1 + operand.bytes.length

/-- An index that needs more than three bytes has no operand. -/
theorem forIndex_of_limit_le {index : Nat} (h : ConstantPool.limit ≤ index) :
    forIndex index = .error (.indexTooWide index) := by
  have hlimit : ConstantPool.limit = 2 ^ 24 := rfl
  rw [forIndex, if_neg (by omega), if_pos h]

theorem exists_forIndex_iff {index : Nat} :
    (∃ operand, forIndex index = .ok operand) ↔ index < ConstantPool.limit := by
  constructor
  · rintro ⟨operand, hoperand⟩
    refine Nat.lt_of_not_le ?_
    intro hle
    rw [forIndex_of_limit_le hle] at hoperand
    cases hoperand
  · intro hlt
    obtain ⟨operand, hoperand, -⟩ := forIndex_eq_load hlt
    exact ⟨operand, hoperand⟩

/-- The tag and the bytes of the operand are the encoding of the instruction that loads the
constant. -/
theorem tag_cons_bytes {index : Nat} {operand : ConstantOperand}
    (h : forIndex index = .ok operand) :
    operand.opcode.tag :: operand.bytes = (load index).encode := by
  obtain ⟨chosen, hchosen, -, hencode⟩ := forIndex_eq_load (exists_forIndex_iff.mp ⟨_, h⟩)
  obtain rfl : chosen = operand := Except.ok.inj (hchosen.symm.trans h)
  exact hencode

theorem encodes_forIndex (index : Nat) : Encodes index := by
  refine ⟨exists_forIndex_iff, forIndex_of_limit_le, ⟨?_, ?_⟩, ?_⟩
  · rintro ⟨byte, hbyte⟩
    refine Nat.le_of_not_lt ?_
    intro hlt
    rw [forIndex, if_neg (by omega)] at hbyte
    split at hbyte <;> cases hbyte
  · intro hle
    exact ⟨_, if_pos (Nat.lt_succ_of_le hle)⟩
  · intro operand hoperand before after
    have hlt : index < ConstantPool.limit := exists_forIndex_iff.mp ⟨_, hoperand⟩
    have hencode := tag_cons_bytes hoperand
    refine ⟨load index, decode_eq_ok_iff.mpr ⟨fits_load hlt, ?_⟩, constantIndex?_load index, ?_⟩
    · rw [hencode, List.append_assoc, List.drop_left]
      exact List.prefix_append ..
    · rw [← length_encode, ← hencode, List.length_cons, Nat.add_comm]

/-- The bytes that an index was decoded from are those of its operand, except where a long operand
holds an index that fits in one byte. -/
theorem tag_cons_bytes_eq_iff {code : Array UInt8} {offset index : Nat} {i : Instruction}
    (h : decode code offset = .ok i) (hindex : i.constantIndex? = some index) :
    ∃ operand, forIndex index = .ok operand ∧
      (operand.opcode.tag :: operand.bytes = (code.toList.drop offset).take i.width ↔
        ¬ (i = .constantLong index ∧ index ≤ 255)) := by
  obtain ⟨hfits, hprefix⟩ := decode_eq_ok_iff.mp h
  have htake : (code.toList.drop offset).take i.width = i.encode := by
    rw [← length_encode]
    exact (List.prefix_iff_eq_take.mp hprefix).symm
  cases i with
  | ret => cases hindex
  | constant n =>
    obtain rfl : n = index := Option.some.inj hindex
    have hshort : n < 256 := hfits
    have hlimit : ConstantPool.limit = 2 ^ 24 := rfl
    obtain ⟨operand, hoperand⟩ := exists_forIndex_iff.mpr (show n < ConstantPool.limit by omega)
    refine ⟨operand, hoperand, ?_⟩
    rw [htake, tag_cons_bytes hoperand, load, if_pos (by omega)]
    simp
  | constantLong n =>
    obtain rfl : n = index := Option.some.inj hindex
    obtain ⟨operand, hoperand⟩ := exists_forIndex_iff.mpr (show n < ConstantPool.limit from hfits)
    refine ⟨operand, hoperand, ?_⟩
    rw [htake, tag_cons_bytes hoperand, load]
    split
    · rename_i hle
      simp [encode, hle]
    · rename_i hgt
      simp [hgt]

end ConstantOperand

/-- **Decoding has four answers, and indices come back from their operands.**  In code of less than
`2 ^ 63` bytes decoding at any word has an answer, without an overflow and without a byte from
outside.  The answer is settled by the bytes from the offset on.  Exactly the indices below `2 ^ 24`
have an operand, and it is decoded to the index wherever it stands; what was decoded to an index is
its operand, long operands of short indices apart. -/
theorem decode_classifies_and_inverts :
    (∀ (code : Array UInt8) (offset : UInt64), code.size < 2 ^ 63 →
      Instruction.decode64? code offset = some (Instruction.decode code offset.toNat)) ∧
    (∀ (code : Array UInt8) (offset : Nat), Instruction.Classified code offset) ∧
    (∀ index : UInt64,
      ConstantOperand.forIndex64 index = ConstantOperand.forIndex index.toNat) ∧
    (∀ index : Nat, ConstantOperand.Encodes index) ∧
    (∀ (code : Array UInt8) (offset index : Nat) (i : Instruction),
      Instruction.decode code offset = .ok i → i.constantIndex? = some index →
        ∃ operand, ConstantOperand.forIndex index = .ok operand ∧
          (operand.opcode.tag :: operand.bytes = (code.toList.drop offset).take i.width ↔
            ¬ (i = .constantLong index ∧ index ≤ 255))) := by
  refine ⟨?_, Instruction.classified_decode, ConstantOperand.forIndex64_eq,
    ConstantOperand.encodes_forIndex, ?_⟩
  · intro code offset hsize
    exact Instruction.decode64?_eq hsize offset
  · intro code offset index i hdecode hindex
    exact ConstantOperand.tag_cons_bytes_eq_iff hdecode hindex

/-- A truncated operand at the end of the code, the greatest word as an offset, and a long operand
that holds 7. -/
theorem decode_classifies_and_inverts_at_ends :
    (#[0, 2, 1, 0] : Array UInt8).size < 2 ^ 63 ∧
      Instruction.decode64? #[0, 2, 1, 0] 1 = some (.error (.truncated 1 .constantLong 3 2)) ∧
      Instruction.decode64? #[0, 2, 1, 0] 0xFFFFFFFFFFFFFFFF =
        some (.error (.offsetOutOfBounds 0xFFFFFFFFFFFFFFFF 4)) ∧
      Instruction.decode #[9, 2, 0, 0, 7] 1 = .ok (.constantLong 7) ∧
      ∃ operand, ConstantOperand.forIndex 7 = .ok operand ∧
        (operand.opcode.tag :: operand.bytes = ([9, 2, 0, 0, 7].drop 1).take 4 ↔
          ¬ ((Instruction.constantLong 7) = .constantLong 7 ∧ 7 ≤ 255)) := by
  obtain ⟨hword, -, -, -, hback⟩ := decode_classifies_and_inverts
  have hlong : Instruction.decode #[9, 2, 0, 0, 7] 1 = .ok (.constantLong 7) := by decide
  refine ⟨by decide, ?_, ?_, hlong, hback #[9, 2, 0, 0, 7] 1 7 _ hlong rfl⟩
  · rw [hword #[0, 2, 1, 0] 1 (by decide)]
    decide
  · rw [hword #[0, 2, 1, 0] 0xFFFFFFFFFFFFFFFF (by decide)]
    decide

end BytecodeTrace
