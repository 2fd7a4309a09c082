/-
# An append happens whole or not at all

A constant goes into the pool before its operand is chosen, and nothing takes it out again.  That
an append still leaves nothing behind when it is refused rests on two limits that meet: the pool
refuses from `2 ^ 24` constants on, and every index below has an operand
(`exists_operand_of_stored`).

`AppendsWhole` says of a chunk which appends it refuses, why, and what is left of them.  No chunk
with more constants than the limit comes about, so the pool is full exactly at the limit, and
`edited_appendsWhole` holds for every history; histories that fill the pool exist
(`constants_size_edited_replicate`).
-/
import BytecodeTrace.Proofs.Chunk.Edit

namespace BytecodeTrace
namespace Chunk

/-! ## 1. What an append can leave behind -/

/-- The outcome is that of nothing having happened: the chunk is the one before, with its runs and
its capacities, nothing is reported, and whatever comes later goes as it would have gone. -/
structure Untouched {α : Type} (c : Chunk) (o : Outcome Chunk α) : Prop where
  state_eq : o.state = c
  events_eq : o.events = []
  later_eq : ∀ edits calls,
    (o.state.edited edits).performAll calls = (c.edited edits).performAll calls

theorem untouched_pure {α : Type} (c : Chunk) (a : α) : Untouched c (.pure a c) :=
  ⟨rfl, rfl, fun _ _ => rfl⟩

/-- Appends to the chunk are refused for one reason each, leave nothing when they are refused, and
are complete when they are not. -/
structure AppendsWhole (c : Chunk) : Prop where
  instruction_error_iff : ∀ op line e,
    (c.appendInstruction op line).answer = .error e ↔
      op.operandBytes ≠ 0 ∧ e = .operandRequired op
  instruction_untouched : ∀ op line e, (c.appendInstruction op line).answer = .error e →
    Untouched c (c.appendInstruction op line)
  instruction_appended : ∀ op line, (c.appendInstruction op line).answer = .ok () →
    (c.appendInstruction op line).state.content = c.content.add ⟨line, .ret⟩
  constant_error_iff : ∀ value line e,
    (c.appendConstant value line).answer = .error e ↔
      c.constants.size = 2 ^ 24 ∧ e = .poolFull (2 ^ 24)
  constant_ne_indexTooWide : ∀ value line index,
    (c.appendConstant value line).answer ≠ .error (.indexTooWide index)
  constant_untouched : ∀ value line e, (c.appendConstant value line).answer = .error e →
    Untouched c (c.appendConstant value line)
  constant_appended : ∀ value line index, (c.appendConstant value line).answer = .ok index →
    index = c.constants.size ∧
      (c.appendConstant value line).state.content = c.content.add ⟨line, .constant value⟩
  /-- The operand of an index that the pool gave out can be chosen. -/
  exists_operand : ∀ value index, (c.constants.append value).answer = .ok index →
    ∃ operand, ConstantOperand.forIndex index = .ok operand

/-! ## 2. Operations -/

section Operations

variable {c : Chunk}

/-- Only a return has no operand. -/
theorem operandBytes_eq_zero_iff {op : Opcode} : op.operandBytes = 0 ↔ op = .ret := by
  cases op <;> decide

/-- An operation is appended without an operand, or refused because it has one. -/
theorem appendInstruction_cases (c : Chunk) (op : Opcode) (line : Line) :
    (op = .ret ∧ (c.appendInstruction op line).answer = .ok () ∧
      (c.appendInstruction op line).state.content = c.content.add ⟨line, .ret⟩) ∨
    (op ≠ .ret ∧ c.appendInstruction op line = .pure (.error (.operandRequired op)) c) := by
  by_cases hop : op = .ret
  · subst hop
    have hroom : c.content.HasRoom ⟨line, .ret⟩ := .inl rfl
    exact .inl ⟨rfl, appendStatement_of_hasRoom hroom⟩
  · exact .inr ⟨hop, appendInstruction_of_ne hop line⟩

/-- A constant is stored and its instruction appended, or refused because the pool is full. -/
theorem appendConstant_cases (c : Chunk) (value : Value) (line : Line) :
    (c.constants.size < ConstantPool.limit ∧
      (c.appendConstant value line).answer = .ok c.constants.size ∧
      (c.appendConstant value line).state.content = c.content.add ⟨line, .constant value⟩) ∨
    (ConstantPool.limit ≤ c.constants.size ∧
      c.appendConstant value line = .pure (.error (.poolFull c.constants.size)) c) := by
  rcases Nat.lt_or_ge c.constants.size ConstantPool.limit with hlt | hge
  · have hroom : c.content.HasRoom ⟨line, .constant value⟩ := by
      rw [constants_size_eq_length] at hlt
      exact .inr hlt
    exact .inl ⟨hlt, (appendConstant_of_lt_limit hlt value line).1,
      (appendStatement_of_hasRoom hroom).2⟩
  · exact .inr ⟨hge, appendConstant_of_limit_le hge value line⟩

/-- **Behind the pool the choice of the operand never fails.** -/
theorem exists_operand_of_stored {p : ConstantPool} {value : Value} {index : Nat}
    (h : (p.append value).answer = .ok index) :
    ∃ operand, ConstantOperand.forIndex index = .ok operand := by
  obtain ⟨values⟩ := p
  by_cases hfull : ConstantPool.limit ≤ values.size
  · simp only [ConstantPool.append, hfull, if_true] at h
    cases h
  · simp only [ConstantPool.append, hfull, if_false, Buffer.answer_append,
      Except.ok.injEq] at h
    subst h
    obtain ⟨operand, hoperand, -⟩ := Instruction.forIndex_eq_load (Nat.not_le.mp hfull)
    exact ⟨operand, hoperand⟩

/-- A chunk with no more constants than the limit appends whole or not at all. -/
theorem appendsWhole_of_le (h : c.constants.size ≤ ConstantPool.limit) : AppendsWhole c where
  instruction_error_iff op line e := by
    rcases appendInstruction_cases c op line with ⟨rfl, hanswer, -⟩ | ⟨hop, hrefused⟩
    · rw [hanswer]
      constructor
      · intro he
        cases he
      · intro he
        exact absurd rfl he.1
    · have hbytes : op.operandBytes ≠ 0 := fun hzero => hop (operandBytes_eq_zero_iff.mp hzero)
      rw [hrefused, Outcome.pure, Except.error.injEq, eq_comm]
      exact (and_iff_right hbytes).symm
  instruction_untouched op line e he := by
    rcases appendInstruction_cases c op line with ⟨-, hanswer, -⟩ | ⟨-, hrefused⟩
    · rw [hanswer] at he
      cases he
    · rw [hrefused]
      exact untouched_pure c _
  instruction_appended op line hok := by
    rcases appendInstruction_cases c op line with ⟨-, -, hcontent⟩ | ⟨-, hrefused⟩
    · exact hcontent
    · rw [hrefused] at hok
      cases hok
  constant_error_iff value line e := by
    rcases appendConstant_cases c value line with ⟨hlt, hanswer, -⟩ | ⟨hge, hrefused⟩
    · rw [hanswer]
      constructor
      · intro he
        cases he
      · intro he
        exact absurd he.1 (Nat.ne_of_lt hlt)
    · have hfull : c.constants.size = 2 ^ 24 := Nat.le_antisymm h hge
      rw [hrefused, hfull, Outcome.pure, Except.error.injEq, eq_comm]
      exact (and_iff_right rfl).symm
  constant_ne_indexTooWide value line index := by
    intro he
    rcases appendConstant_cases c value line with ⟨-, hanswer, -⟩ | ⟨-, hrefused⟩
    · rw [hanswer] at he
      cases he
    · rw [hrefused] at he
      cases he
  constant_untouched value line e he := by
    rcases appendConstant_cases c value line with ⟨-, hanswer, -⟩ | ⟨-, hrefused⟩
    · rw [hanswer] at he
      cases he
    · rw [hrefused]
      exact untouched_pure c _
  constant_appended value line index hok := by
    rcases appendConstant_cases c value line with ⟨-, hanswer, hcontent⟩ | ⟨-, hrefused⟩
    · rw [hanswer] at hok
      exact ⟨(Except.ok.inj hok).symm, hcontent⟩
    · rw [hrefused] at hok
      cases hok
  exists_operand _ _ := exists_operand_of_stored

end Operations

/-! ## 3. Histories -/

/-- Constants that fit are all stored. -/
theorem constants_size_edited_replicate (value : Value) (line : Line) {n : Nat}
    (h : n ≤ ConstantPool.limit) :
    (empty.edited (List.replicate n (.call (.constant value line)))).constants.size = n := by
  induction n with
  | zero => rfl
  | succ n ih =>
    have hsize := ih (Nat.le_of_succ_le h)
    rw [List.replicate_succ', edited_append]
    generalize empty.edited (List.replicate n (.call (.constant value line))) = c at hsize ⊢
    show (c.appendConstant value line).state.constants.size = n + 1
    rcases appendConstant_cases c value line with ⟨-, -, hcontent⟩ | ⟨hge, -⟩
    · rw [constants_size_eq_length, hcontent, ← hsize, constants_size_eq_length]
      exact List.length_append
    · rw [hsize] at hge
      exact absurd h (Nat.not_le.mpr (Nat.lt_succ_of_le hge))

/-- **After every history, an append happens whole or not at all.**  Operations with operands are
refused as such, constants when the pool holds `2 ^ 24`, which it can come to hold, and no constant
because of its index.  A refused append is as if it had not been called. -/
theorem edited_appendsWhole :
    (∀ edits, AppendsWhole (empty.edited edits)) ∧
      ∃ edits, (empty.edited edits).constants.size = 2 ^ 24 := by
  constructor
  · intro edits
    exact appendsWhole_of_le (coupled_edited coupled_empty edits).constants_le
  · exact ⟨_, constants_size_edited_replicate ⟨0⟩ 0 (Nat.le_refl _)⟩

end Chunk
end BytecodeTrace
