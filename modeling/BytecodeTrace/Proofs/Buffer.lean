/-
# The capacity of a buffer

A buffer that has only been appended to, from empty on, has the capacity that the growth policy
gives to the number of its items (`Grown`).  So two such buffers with the same items are equal,
however the items came (`Grown.eq_iff`).
-/
import BytecodeTrace.Buffer
import Mathlib.Data.List.Forall2

namespace BytecodeTrace

/-- The capacity that `n` appends lead to. -/
def policyCapacity : Nat → Nat
  | 0 => 0
  | n + 1 => if policyCapacity n < n + 1 then growCapacity (policyCapacity n) else policyCapacity n

namespace Buffer

variable {α : Type} {a b : Buffer α}

/-- The capacity is that of as many appends as there are items. -/
def Grown (b : Buffer α) : Prop := b.capacity = policyCapacity b.size

theorem grown_empty : Grown (empty : Buffer α) := rfl

theorem Grown.append (h : Grown b) (x : α) : Grown (b.append x).state := by
  have hsize : (b.append x).state.size = b.size + 1 := by simp [size]
  rw [Grown, capacity_append, hsize, policyCapacity, ← h]

theorem Grown.modifyLast (h : Grown b) (f : α → α) : Grown (b.modifyLast f) := by
  have hsize : (b.modifyLast f).size = b.size := Array.size_modify
  rw [Grown, hsize]
  exact h

/-- Grown buffers with the same items are equal. -/
theorem Grown.eq_iff (ha : Grown a) (hb : Grown b) : a = b ↔ a.items = b.items := by
  constructor
  · rintro rfl
    rfl
  · intro h
    have hcapacity : a.capacity = b.capacity := by rw [ha, hb, size, size, h]
    cases a
    cases b
    simp only at h hcapacity
    rw [h, hcapacity]

/-- Grown buffers are compared by their items alone. -/
theorem Grown.eqBy_iff (ha : Grown a) (hb : Grown b) (same : α → α → Bool) :
    a.eqBy same b = true ↔
      List.Forall₂ (fun x y => same x y = true) a.items.toList b.items.toList := by
  rw [eqBy, Bool.and_eq_true, beq_iff_eq, Array.isEqv_iff_rel, List.forall₂_iff_get]
  simp only [Array.length_toList, List.get_eq_getElem, Array.getElem_toList]
  constructor
  · rintro ⟨⟨hsize, hsame⟩, -⟩
    exact ⟨hsize, fun i hi _ => hsame i hi⟩
  · rintro ⟨hsize, hsame⟩
    refine ⟨⟨hsize, fun i hi => hsame i hi (hsize ▸ hi)⟩, ?_⟩
    rw [ha, hb, size, size, hsize]

end Buffer
end BytecodeTrace
