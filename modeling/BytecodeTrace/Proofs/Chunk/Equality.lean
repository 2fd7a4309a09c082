/-
# Equality of chunks sees the content alone

Chunks are compared part by part: the capacities of their buffers and the runs of their line tables
take part in the comparison.  Neither depends on more than the content: capacities are those of the
growth policy (`Grown`), and the runs are the only ones that adjoin and have these lines
(`adjoin_unique`).  Both hold of every chunk that a history leaves behind, so chunks with the same
content are equal, whatever happened before (`edited_ieeeEq`).
-/
import BytecodeTrace.Proofs.Buffer
import BytecodeTrace.Proofs.Chunk.Edit
import BytecodeTrace.Proofs.Value.Equality

namespace BytecodeTrace

/-! ## 1. Line tables -/

namespace LineTable

variable {s t : LineTable}

theorem grown_push (h : t.runs.Grown) (line : Line) : (t.push line).state.runs.Grown := by
  obtain ⟨runs, size⟩ := t
  simp only [push]
  split
  · split
    · exact h.modifyLast _
    · exact h.append _
  · exact h.append _

/-- Sound tables with grown buffers are equal when their lines are. -/
theorem Sound.eq_iff (hs : Sound s) (ht : Sound t) (gs : s.runs.Grown) (gt : t.runs.Grown) :
    s = t ↔ s.toList = t.toList := by
  constructor
  · rintro rfl
    rfl
  · intro h
    have hruns : s.runs = t.runs := by
      rw [gs.eq_iff gt]
      exact Array.toList_inj.mp (adjoin_unique hs.adjoin ht.adjoin h)
    have hsize : s.size = t.size := by rw [hs.size_eq, ht.size_eq, h]
    cases s
    cases t
    simp only at hruns hsize
    rw [hruns, hsize]

end LineTable

/-! ## 2. Chunks -/

namespace Chunk

variable {a b : Chunk}

/-- All three buffers have the capacity of the growth policy. -/
structure Grown (c : Chunk) : Prop where
  code : c.code.Grown
  lines : c.lines.runs.Grown
  constants : c.constants.values.Grown

/-- No history gives a buffer another capacity. -/
theorem invariant_grown : Invariant Grown where
  empty := ⟨Buffer.grown_empty, Buffer.grown_empty, Buffer.grown_empty⟩
  byte h byte line := ⟨h.code.append byte, LineTable.grown_push h.lines line, h.constants⟩
  constant h _ value := ⟨h.code, h.lines, h.constants.append value⟩

/-- **Chunks are equal when their content is**, up to numeric equality of the constants. -/
theorem ieeeEq_iff (ha : Coupled a) (hb : Coupled b) (ga : Grown a) (gb : Grown b) :
    a.ieeeEq b = true ↔
      a.code.items = b.code.items ∧ a.lines.toList = b.lines.toList ∧
        List.Forall₂ Value.SameNumber a.constants.toList b.constants.toList := by
  have hvalues : (fun x y => Value.ieeeEq x y = true) = Value.SameNumber := by
    funext x y
    exact propext Value.ieeeEq_iff
  rw [ieeeEq, Bool.and_eq_true, Bool.and_eq_true, beq_iff_eq, beq_iff_eq, and_assoc,
    ga.code.eq_iff gb.code, ha.sound.eq_iff hb.sound ga.lines gb.lines, ConstantPool.ieeeEq,
    ga.constants.eqBy_iff gb.constants, hvalues]
  rfl

/-- A list is numerically equal to itself when it has no NaN. -/
theorem forall₂_sameNumber_self {vs : List Value} :
    List.Forall₂ Value.SameNumber vs vs ↔ ∀ v ∈ vs, v.isNaN = false := by
  rw [List.forall₂_same]
  exact forall₂_congr fun _ _ => Value.sameNumber_self_iff

/-- A list with a NaN is numerically equal to no list. -/
theorem not_forall₂_of_isNaN {vs ws : List Value} {v : Value} (hv : v ∈ vs)
    (hnan : v.isNaN = true) :
    ¬ List.Forall₂ Value.SameNumber vs ws ∧ ¬ List.Forall₂ Value.SameNumber ws vs := by
  have hnone : ∀ {us : List Value}, List.Forall₂ Value.SameNumber vs us → False := by
    intro us h
    obtain ⟨i, hi, rfl⟩ := List.getElem_of_mem hv
    have hsame := h.get hi (h.length_eq ▸ hi)
    rw [List.get_eq_getElem] at hsame
    rw [hsame.left_not_nan] at hnan
    cases hnan
  refine ⟨hnone, ?_⟩
  intro h
  exact hnone (h.flip.imp fun _ _ hsame => ⟨hsame.2, hsame.1, hsame.3.imp Eq.symm And.symm⟩)

/-- A release makes the history before it forgotten. -/
theorem edited_release (c : Chunk) (before after : List Edit) :
    c.edited (before ++ .call .release :: after) = empty.edited after := by
  rw [edited_append]
  rfl

/-- **Equality sees the content and nothing of the history.**  Chunks that any two histories leave
behind are equal exactly when they have the same bytes, the same line for every byte and the same
numbers as constants; so a chunk with a NaN differs from every chunk, and what follows a release
gives a chunk equal to one that began empty, unless it stores a NaN. -/
theorem edited_ieeeEq (edits₁ edits₂ : List Edit) :
    ((empty.edited edits₁).ieeeEq (empty.edited edits₂) = true ↔
      (empty.edited edits₁).code.items = (empty.edited edits₂).code.items ∧
      (empty.edited edits₁).lines.toList = (empty.edited edits₂).lines.toList ∧
      List.Forall₂ Value.SameNumber (empty.edited edits₁).constants.toList
        (empty.edited edits₂).constants.toList) ∧
    (∀ v ∈ (empty.edited edits₁).constants.toList, v.isNaN = true →
      (empty.edited edits₁).ieeeEq (empty.edited edits₂) = false ∧
      (empty.edited edits₂).ieeeEq (empty.edited edits₁) = false) ∧
    ((empty.edited (edits₁ ++ .call .release :: edits₂)).ieeeEq (empty.edited edits₂) = true ↔
      ∀ v ∈ (empty.edited edits₂).constants.toList, v.isNaN = false) := by
  have hcoupled : ∀ edits, Coupled (empty.edited edits) := coupled_edited coupled_empty
  have hgrown : ∀ edits, Grown (empty.edited edits) := invariant_grown.edited invariant_grown.empty
  have heq : ∀ e₁ e₂ : List Edit, (empty.edited e₁).ieeeEq (empty.edited e₂) = true ↔ _ :=
    fun e₁ e₂ => ieeeEq_iff (hcoupled e₁) (hcoupled e₂) (hgrown e₁) (hgrown e₂)
  refine ⟨heq edits₁ edits₂, ?_, ?_⟩
  · intro v hv hnan
    rw [← Bool.not_eq_true, ← Bool.not_eq_true, heq, heq]
    obtain ⟨hleft, hright⟩ := not_forall₂_of_isNaN hv hnan
    exact ⟨fun h => hleft h.2.2, fun h => hright h.2.2⟩
  · rw [edited_release, heq, forall₂_sameNumber_self]
    simp only [true_and]

/-- The zeros are equal behind a release, and a NaN is not equal to itself. -/
theorem edited_ieeeEq_zeros_and_nan :
    (empty.edited [.byte 7 1, .call .release, .call (.constant ⟨0⟩ 3)]).ieeeEq
        (empty.edited [.call (.constant ⟨0x8000000000000000⟩ 3)]) = true ∧
      (empty.edited [.call (.constant ⟨0x7ff8000000000000⟩ 3)]).ieeeEq
        (empty.edited [.call (.constant ⟨0x7ff8000000000000⟩ 3)]) = false := by
  refine ⟨(edited_ieeeEq _ _).1.mpr ⟨by decide, by decide, ?_⟩,
    ((edited_ieeeEq _ _).2.1 ⟨0x7ff8000000000000⟩ (by decide) (by decide)).1⟩
  exact .cons ⟨by decide, by decide, .inr (by decide)⟩ .nil

end Chunk
end BytecodeTrace
