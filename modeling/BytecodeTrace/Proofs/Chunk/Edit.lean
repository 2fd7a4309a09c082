/-
# What can happen to a chunk

A chunk is changed by calls, which append instructions, assemble listings or release everything,
and by single bytes.  `Chunk.performAll` is a run of calls, with all their replies; `Chunk.edited`
is what a history of calls, single bytes and copies leaves behind.

Each operation has one lemma that says what it does to code, lines and constants, and the rest of
the library uses these lemmas and unfolds no operation:

* `content_writeBytes`: bytes come behind the code, with one line each;
* `appendInstruction_of_ne`, `appendConstant_of_limit_le`: the two refusals, which leave nothing;
* `appendStatement_of_hasRoom`: a whole instruction comes behind the others;
* `Invariant.edited`: what single bytes and single constants keep, every history keeps;
* `Chunk.Coupled`: code, lines and pool fit together (`coupled_edited`).
-/
import BytecodeTrace.Listing.Assembly
import BytecodeTrace.Proofs.Instruction
import BytecodeTrace.Proofs.LineTable

namespace BytecodeTrace

/-! ## 1. Calls and histories -/

/-- One call that changes a chunk. -/
inductive Call where
  | instruction (op : Opcode) (line : Line)
  | constant (value : Value) (line : Line)
  | assemble (source : String)
  | release
deriving DecidableEq, Repr

/-- What a call answers. -/
inductive Reply where
  | instruction (answer : Except ChunkError Unit)
  | constant (answer : Except ChunkError Nat)
  | assemble (answer : Except Listing.Error Unit)
  | release

/-- One thing that can happen to a chunk: a call, a single byte, or that a copy takes its place. -/
inductive Edit where
  | call (call : Call)
  | byte (byte : UInt8) (line : Line)
  | clone
deriving DecidableEq, Repr

namespace Chunk

/-- Performs one call. -/
def perform (c : Chunk) : Call → Outcome Chunk Reply
  | .instruction op line =>
    (c.appendInstruction op line).andThen fun answer c => .pure (.instruction answer) c
  | .constant value line =>
    (c.appendConstant value line).andThen fun answer c => .pure (.constant answer) c
  | .assemble source => (c.assembleInto source).andThen fun answer c => .pure (.assemble answer) c
  | .release => c.release.andThen fun _ c => .pure .release c

/-- Performs calls one after the other, and answers with all replies. -/
def performAll (c : Chunk) : List Call → Outcome Chunk (List Reply)
  | [] => .pure [] c
  | call :: calls =>
    (c.perform call).andThen fun reply c =>
      (c.performAll calls).andThen fun replies c => .pure (reply :: replies) c

/-- The chunk that an edit leaves behind. -/
def edit (c : Chunk) : Edit → Chunk
  | .call call => (c.perform call).state
  | .byte byte line => (c.writeByte byte line).state
  | .clone => c

/-- The chunk that a history leaves behind. -/
def edited (c : Chunk) (edits : List Edit) : Chunk := edits.foldl edit c

/-- A history goes on where the one before it ended. -/
theorem edited_append (c : Chunk) (before after : List Edit) :
    c.edited (before ++ after) = (c.edited before).edited after := List.foldl_append

end Chunk

/-! ## 2. The content of a chunk -/

/-- What a chunk holds, and nothing about how: its code, the line of every byte, its constants. -/
structure Content where
  code : List UInt8
  lines : List Line
  constants : List Value
deriving DecidableEq, Repr

namespace Content

/-- No code and no constants. -/
def empty : Content := ⟨[], [], []⟩

/-- Bytes that come from a line, behind the others. -/
def write (x : Content) (bytes : List UInt8) (line : Line) : Content :=
  ⟨x.code ++ bytes, x.lines ++ List.replicate bytes.length line, x.constants⟩

/-- The instruction of a statement behind the others; a constant takes the next index. -/
def add (x : Content) (placed : Listing.Placed) : Content :=
  match placed.statement with
  | .ret => x.write Instruction.ret.encode placed.line
  | .constant value =>
    { x with constants := x.constants ++ [value] }.write
      (Instruction.load x.constants.length).encode placed.line

/-- Whether a statement can be appended: only a constant needs room. -/
def HasRoom (x : Content) (placed : Listing.Placed) : Prop :=
  placed.statement = .ret ∨ x.constants.length < ConstantPool.limit

end Content

namespace Chunk

/-- The content of a chunk. -/
def content (c : Chunk) : Content :=
  ⟨c.code.items.toList, c.lines.toList, c.constants.toList⟩

/-- Code, lines and pool fit together: the line table is sound and has a line for every byte of
the code, and every constant has an index. -/
structure Coupled (c : Chunk) : Prop where
  sound : c.lines.Sound
  size_eq : c.lines.size = c.size
  constants_le : c.constants.size ≤ ConstantPool.limit

theorem coupled_empty : Coupled empty := ⟨LineTable.sound_empty, rfl, Nat.zero_le _⟩

theorem size_eq_length (c : Chunk) : c.size = c.content.code.length := by
  simp [size, Buffer.size, content]

theorem constants_size_eq_length (c : Chunk) :
    c.constants.size = c.content.constants.length := by
  simp [ConstantPool.size, Buffer.size, content, ConstantPool.toList]

/-! ## 3. Bytes -/

theorem state_writeByte (c : Chunk) (byte : UInt8) (line : Line) :
    (c.writeByte byte line).state =
      ⟨(c.code.append byte).state, (c.lines.push line).state, c.constants⟩ := rfl

/-- A byte comes behind the code, and its line behind the lines. -/
theorem content_writeByte (c : Chunk) (byte : UInt8) (line : Line) :
    (c.writeByte byte line).state.content = c.content.write [byte] line := by
  simp [state_writeByte, content, Content.write]

theorem coupled_writeByte {c : Chunk} (h : Coupled c) (byte : UInt8) (line : Line) :
    Coupled (c.writeByte byte line).state := by
  refine ⟨?_, ?_, h.constants_le⟩
  · rw [state_writeByte]
    exact LineTable.sound_push h.sound line
  · simpa [state_writeByte, size, Buffer.size] using h.size_eq

/-- Bytes come behind the code, and as many lines behind the lines. -/
theorem content_writeBytes (c : Chunk) (bytes : List UInt8) (line : Line) :
    (c.writeBytes bytes line).state.content = c.content.write bytes line := by
  induction bytes generalizing c with
  | nil => simp [writeBytes, Outcome.pure, Content.write]
  | cons byte bytes ih =>
    rw [writeBytes, Outcome.state_andThen, ih, content_writeByte]
    simp [Content.write, List.replicate_succ]

/-! ## 4. Instructions -/

/-- The chunk with one more constant in its pool, which no instruction loads yet. -/
def withConstant (c : Chunk) (value : Value) : Chunk :=
  ⟨c.code, c.lines, ⟨(c.constants.values.append value).state⟩⟩

theorem content_withConstant (c : Chunk) (value : Value) :
    (c.withConstant value).content =
      { c.content with constants := c.content.constants ++ [value] } := by
  simp [withConstant, content, ConstantPool.toList]

theorem coupled_withConstant {c : Chunk} (h : Coupled c)
    (hlt : c.constants.size < ConstantPool.limit) (value : Value) :
    Coupled (c.withConstant value) := by
  refine ⟨h.sound, h.size_eq, ?_⟩
  show (c.constants.values.append value).state.items.size ≤ ConstantPool.limit
  rw [Buffer.items_append, Array.size_push]
  exact hlt

/-- A return is appended. -/
theorem appendInstruction_ret (c : Chunk) (line : Line) :
    (c.appendInstruction .ret line).answer = .ok () ∧
      (c.appendInstruction .ret line).state = (c.writeByte Opcode.ret.tag line).state :=
  ⟨rfl, rfl⟩

/-- An operation with an operand is refused, and nothing happens. -/
theorem appendInstruction_of_ne {c : Chunk} {op : Opcode} (h : op ≠ .ret) (line : Line) :
    c.appendInstruction op line = .pure (.error (.operandRequired op)) c := by
  cases op with
  | ret => exact absurd rfl h
  | constant => rfl
  | constantLong => rfl

/-- A constant that has no index left is refused, and nothing happens. -/
theorem appendConstant_of_limit_le {c : Chunk} (h : ConstantPool.limit ≤ c.constants.size)
    (value : Value) (line : Line) :
    c.appendConstant value line = .pure (.error (.poolFull c.constants.size)) c := by
  obtain ⟨code, lines, values⟩ := c
  have hfull : ConstantPool.limit ≤ values.values.size := h
  simp only [appendConstant, ConstantPool.append, hfull, if_true, Outcome.pure]
  rfl

/-- A constant with an index goes into the pool, and the instruction that loads it to the code. -/
theorem appendConstant_of_lt_limit {c : Chunk} (h : c.constants.size < ConstantPool.limit)
    (value : Value) (line : Line) :
    (c.appendConstant value line).answer = .ok c.constants.size ∧
      (c.appendConstant value line).state =
        ((c.withConstant value).writeBytes
          (Instruction.load c.constants.size).encode line).state := by
  obtain ⟨code, lines, values⟩ := c
  have hroom : ¬ ConstantPool.limit ≤ values.values.size := Nat.not_le.mpr h
  obtain ⟨operand, hindex, -, hbytes⟩ := Instruction.forIndex_eq_load h
  have hanswer := Buffer.answer_append values.values value
  simp only [ConstantPool.size] at hindex hbytes ⊢
  simp only [appendConstant, ConstantPool.append, hroom, if_false, hanswer, hindex, hbytes,
    withConstant, and_self]

/-- A statement that has room is appended: its instruction comes behind the others. -/
theorem appendStatement_of_hasRoom {c : Chunk} {placed : Listing.Placed}
    (h : c.content.HasRoom placed) :
    (c.appendStatement placed).answer = .ok () ∧
      (c.appendStatement placed).state.content = c.content.add placed := by
  obtain ⟨line, statement⟩ := placed
  cases statement with
  | ret =>
    obtain ⟨hanswer, hstate⟩ := appendInstruction_ret c line
    exact ⟨hanswer, hstate ▸ content_writeByte c _ line⟩
  | constant value =>
    have hlt : c.constants.size < ConstantPool.limit := by
      rw [constants_size_eq_length]
      exact h.resolve_left nofun
    obtain ⟨hanswer, hstate⟩ := appendConstant_of_lt_limit hlt value line
    have happend : (c.appendStatement ⟨line, .constant value⟩).state =
        (c.appendConstant value line).state := rfl
    refine ⟨?_, ?_⟩
    · show (c.appendConstant value line).answer.map (fun _ => ()) = .ok ()
      rw [hanswer]
      rfl
    · rw [happend, hstate, content_writeBytes, content_withConstant, constants_size_eq_length]
      rfl

/-- A statement without room is refused, and nothing happens. -/
theorem appendStatement_of_not_hasRoom {c : Chunk} {placed : Listing.Placed}
    (h : ¬ c.content.HasRoom placed) :
    c.appendStatement placed = .pure (.error (.poolFull c.constants.size)) c := by
  obtain ⟨line, statement⟩ := placed
  simp only [Content.HasRoom, not_or, Nat.not_lt, ← constants_size_eq_length] at h
  cases statement with
  | ret => exact absurd rfl h.1
  | constant value =>
    simp only [appendStatement, appendConstant_of_limit_le h.2 value line, Outcome.pure]
    rfl

/-! ## 5. Every edit -/

theorem state_assembleInto (c : Chunk) (source : String) :
    (c.assembleInto source).state = (c.assembleLines 1 (Text.lines source.toList)).state := by
  rw [assembleInto, Outcome.state_andThen]
  split <;> rfl

theorem answer_assembleInto (c : Chunk) (source : String) :
    (c.assembleInto source).answer = (c.assembleLines 1 (Text.lines source.toList)).answer := by
  rw [assembleInto, Outcome.answer_andThen]
  split
  · rename_i e heq
    exact heq.symm
  · rename_i heq
    exact heq.symm

/-- A property of the empty chunk that every single byte and every single constant keeps. -/
structure Invariant (P : Chunk → Prop) : Prop where
  empty : P empty
  byte : ∀ {c : Chunk}, P c → ∀ byte line, P (c.writeByte byte line).state
  constant : ∀ {c : Chunk}, P c → c.constants.size < ConstantPool.limit →
    ∀ value, P (c.withConstant value)

section Invariant

variable {P : Chunk → Prop} {c : Chunk}

theorem Invariant.writeBytes (h : Invariant P) (hc : P c) (bytes : List UInt8) (line : Line) :
    P (c.writeBytes bytes line).state := by
  induction bytes generalizing c with
  | nil => exact hc
  | cons byte bytes ih => exact ih (h.byte hc byte line)

/-- A statement keeps an invariant, whether it is refused or not. -/
theorem Invariant.appendStatement (h : Invariant P) (hc : P c) (placed : Listing.Placed) :
    P (c.appendStatement placed).state := by
  by_cases hroom : c.content.HasRoom placed
  · obtain ⟨line, statement⟩ := placed
    cases statement with
    | ret => exact h.byte hc _ line
    | constant value =>
      have hlt : c.constants.size < ConstantPool.limit := by
        rw [constants_size_eq_length]
        exact hroom.resolve_left nofun
      show P (c.appendConstant value line).state
      rw [(appendConstant_of_lt_limit hlt value line).2]
      exact h.writeBytes (h.constant hc hlt value) _ line
  · rw [appendStatement_of_not_hasRoom hroom]
    exact hc

/-- Listings append statement by statement, so they keep what statements keep. -/
theorem Invariant.assembleLines (h : Invariant P) (hc : P c) (number : Nat)
    (lines : List (List Char)) : P (c.assembleLines number lines).state := by
  induction lines generalizing c number with
  | nil => exact hc
  | cons raw rest ih =>
    unfold Chunk.assembleLines
    split
    · exact hc
    · exact ih hc (number + 1)
    · rename_i placed _
      rw [Outcome.state_andThen]
      have hstep := h.appendStatement hc placed
      split
      · exact hstep
      · exact ih hstep (number + 1)

/-- A call keeps an invariant. -/
theorem Invariant.perform (h : Invariant P) (hc : P c) (call : Call) :
    P (c.perform call).state := by
  cases call with
  | instruction op line =>
    by_cases hop : op = .ret
    · subst hop
      exact h.byte hc Opcode.ret.tag line
    · simp only [Chunk.perform, appendInstruction_of_ne hop]
      exact hc
  | constant value line => exact h.appendStatement hc ⟨line, .constant value⟩
  | assemble source =>
    show P (c.assembleInto source).state
    rw [state_assembleInto]
    exact h.assembleLines hc 1 _
  | release => exact h.empty

/-- **What single bytes and single constants keep, every history keeps.** -/
theorem Invariant.edited (h : Invariant P) (hc : P c) (edits : List Edit) :
    P (c.edited edits) := by
  induction edits generalizing c with
  | nil => exact hc
  | cons edit edits ih =>
    refine ih ?_
    cases edit with
    | call call => exact h.perform hc call
    | byte byte line => exact h.byte hc byte line
    | clone => exact hc

end Invariant

/-- Code, lines and pool stay together. -/
theorem invariant_coupled : Invariant Coupled :=
  ⟨coupled_empty, coupled_writeByte, coupled_withConstant⟩

/-- **Every history keeps code, lines and pool together.** -/
theorem coupled_edited {c : Chunk} (h : Coupled c) (edits : List Edit) :
    Coupled (c.edited edits) :=
  invariant_coupled.edited h edits

/-! ## 6. What coupled chunks answer -/

/-- The line at an offset is the one that stands in the list. -/
theorem line?_eq_content {c : Chunk} (h : Coupled c) (offset : Nat) :
    c.lines.line? offset = c.content.lines[offset]? :=
  LineTable.line?_eq_getElem? h.sound offset

/-- There is a line for every byte. -/
theorem length_content_lines {c : Chunk} (h : Coupled c) : c.content.lines.length = c.size := by
  rw [← h.size_eq, h.sound.size_eq]
  rfl

/-- The constant at an index is the one that stands in the list. -/
theorem constant_eq (c : Chunk) (index : Nat) :
    c.constant index =
      match c.content.constants[index]? with
      | some value => .ok value
      | none => .error (.constantOutOfRange index c.constants.size) := by
  have hget : c.content.constants[index]? = c.constants.values.items[index]? :=
    Array.getElem?_toList
  rw [hget]
  rfl

end Chunk
end BytecodeTrace
