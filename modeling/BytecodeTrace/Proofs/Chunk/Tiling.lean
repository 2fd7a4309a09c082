/-
# The walk covers the code

The items of a walk lie one behind the other, without a gap and without an overlap, from the first
byte of the code to the last.  What an item shows depends only on the bytes of its own span, unless
its operand is cut off by the end of the code.  So a walk that is not cut off goes on, behind the
code it was made for, with the walk of whatever follows.

* `Tiles`: the items of the rest of a walk, as a chain of spans that ends with the code;
* `tiling_walkFrom`: the same of a whole walk, in terms of sums of spans;
* `walkFrom_append`: the walk of code behind other code;
* `isBoundary_iff`: the places where code may be cut, or something be put in, without harm.

The measure is the distance to the end throughout, and the three rules of advance (behind an
instruction, behind an unknown tag, to the end) are told apart by `Instruction.decode_cases`.
-/
import BytecodeTrace.Chunk.Walk
import BytecodeTrace.Proofs.Instruction
import Mathlib.Algebra.Ring.Nat
import Mathlib.Logic.ExistsUnique

namespace BytecodeTrace

/-! ## 1. A chain of spans -/

namespace WalkItem

/-- The item stands for an operand that the end of the code cuts off. -/
def isTruncated (item : WalkItem) : Bool :=
  match item.decoded with
  | .error (.truncated ..) => true
  | _ => false

end WalkItem

/-- The items start at `start`, each one where the span before it ends, and the last span ends
where the code ends. -/
inductive Tiles (size : Nat) : Nat → List WalkItem → Prop
  | done : Tiles size size []
  | next {item : WalkItem} {rest : List WalkItem} :
      0 < item.span size → Tiles size (item.offset + item.span size) rest →
      Tiles size item.offset (item :: rest)

namespace Tiles

variable {size start : Nat} {items : List WalkItem}

/-- A chain does not start behind the end. -/
theorem start_le (h : Tiles size start items) : start ≤ size := by
  induction h with
  | done => exact Nat.le_refl _
  | next _ _ ih => omega

/-- Behind the end there is no item. -/
theorem eq_nil_of_size_le (h : Tiles size start items) (hle : size ≤ start) : items = [] := by
  cases h with
  | done => rfl
  | next hpos hrest =>
    have := hrest.start_le
    omega

/-- The spans add up to what is left of the code. -/
theorem start_add_sum (h : Tiles size start items) :
    start + (items.map (·.span size)).sum = size := by
  induction h with
  | done => rfl
  | next _ _ ih => simp only [List.map_cons, List.sum_cons]; omega

/-- An item starts where the spans before it end. -/
theorem offset_eq (h : Tiles size start items) {i : Nat} (hi : i < items.length) :
    items[i].offset = start + ((items.take i).map (·.span size)).sum := by
  induction h generalizing i with
  | done => simp at hi
  | next _ _ ih =>
    cases i with
    | zero => simp
    | succ i =>
      have := ih (by simpa using hi)
      simp only [List.getElem_cons_succ, List.take_succ_cons, List.map_cons, List.sum_cons]
      omega

/-- No item starts before the chain. -/
theorem le_offset (h : Tiles size start items) {i : Nat} (hi : i < items.length) :
    start ≤ items[i].offset := by
  rw [h.offset_eq hi]
  exact Nat.le_add_right ..

/-- The items come in the order of their offsets. -/
theorem pairwise_offset_lt (h : Tiles size start items) :
    items.Pairwise fun a b => a.offset < b.offset := by
  induction h with
  | done => exact .nil
  | next hpos hrest ih =>
    refine List.pairwise_cons.mpr ⟨?_, ih⟩
    intro item hitem
    obtain ⟨i, hi, rfl⟩ := List.getElem_of_mem hitem
    have := hrest.le_offset hi
    omega

/-- Every byte from the start of the chain to the end of the code belongs to one item. -/
theorem existsUnique_covers (h : Tiles size start items) {o : Nat} (hs : start ≤ o)
    (ho : o < size) :
    ∃! i, ∃ hi : i < items.length,
      items[i].offset ≤ o ∧ o < items[i].offset + items[i].span size := by
  induction h with
  | done => omega
  | @next item rest hpos hrest ih =>
    rcases Nat.lt_or_ge o (item.offset + item.span size) with hin | hout
    · refine ⟨0, ⟨by simp, by simpa using ⟨hs, hin⟩⟩, ?_⟩
      rintro j ⟨hj, hle, _⟩
      cases j with
      | zero => rfl
      | succ j =>
        -- a later item starts behind the span of this one
        have := hrest.le_offset (i := j) (by simpa using hj)
        simp only [List.getElem_cons_succ] at hle
        omega
    · obtain ⟨i, ⟨hi, hc⟩, huniq⟩ := ih hout
      refine ⟨i + 1, ⟨by simpa using hi, by simpa using hc⟩, ?_⟩
      rintro j ⟨hj, hle, hlt⟩
      cases j with
      | zero => simp only [List.getElem_cons_zero] at hlt; omega
      | succ j => rw [huniq j ⟨by simpa using hj, by simpa using hle, by simpa using hlt⟩]

/-- An item whose span reaches to the end is the last one. -/
theorem eq_last (h : Tiles size start items) {i : Nat} (hi : i < items.length)
    (hend : items[i].offset + items[i].span size = size) : i + 1 = items.length := by
  induction h generalizing i with
  | done => simp at hi
  | next _ hrest ih =>
    cases i with
    | zero =>
      simp only [List.getElem_cons_zero] at hend
      simp [hrest.eq_nil_of_size_le (Nat.le_of_eq hend.symm)]
    | succ i =>
      simp only [List.getElem_cons_succ] at hend
      simpa using ih (by simpa using hi) hend

end Tiles

/-! ## 2. One walk -/

section Walk

variable {code : Array UInt8} {offset : Nat}

theorem walkFrom_of_lt (h : offset < code.size) :
    walkFrom code offset =
      ⟨offset, Instruction.decode code offset⟩ ::
        walkFrom code (offset +
          WalkItem.span ⟨offset, Instruction.decode code offset⟩ code.size) := by
  rw [walkFrom, dif_pos h]

theorem walkFrom_of_le (h : code.size ≤ offset) : walkFrom code offset = [] := by
  rw [walkFrom, dif_neg (Nat.not_lt.mpr h)]

/-- An item that was decoded inside the code does not reach over its end. -/
theorem offset_add_span_le (h : offset < code.size) :
    offset + WalkItem.span ⟨offset, Instruction.decode code offset⟩ code.size ≤ code.size := by
  unfold WalkItem.span
  split
  · rename_i i hi; exact Instruction.offset_add_width_le hi
  · exact h
  · simp only; omega

/-- **The items of a walk tile the code.** -/
theorem tiles_walkFrom (h : offset ≤ code.size) :
    Tiles code.size offset (walkFrom code offset) := by
  fun_induction walkFrom code offset with
  | case1 offset hlt item ih =>
    exact @Tiles.next _ item _ (WalkItem.span_pos hlt) (ih (offset_add_span_le hlt))
  | case2 offset hge =>
    have : offset = code.size := by omega
    subst this
    exact .done

/-- An item of a walk shows what is decoded at its offset, which is inside the code. -/
theorem decoded_of_mem_walkFrom {item : WalkItem} (h : item ∈ walkFrom code offset) :
    offset ≤ item.offset ∧ item.offset < code.size ∧
      item.decoded = Instruction.decode code item.offset := by
  fun_induction walkFrom code offset with
  | case1 offset hlt head ih =>
    rcases List.mem_cons.mp h with rfl | h
    · exact ⟨Nat.le_refl _, hlt, rfl⟩
    · have := ih h
      exact ⟨Nat.le_of_add_right_le this.1, this.2⟩
  | case2 => simp at h

end Walk

/-! ## 3. Code behind code -/

/-- The same fault, found `n` bytes later. -/
def DecodeError.shift (n : Nat) : DecodeError → DecodeError
  | .unknownOpcode offset tag => .unknownOpcode (n + offset) tag
  | .truncated offset op needed available => .truncated (n + offset) op needed available
  | .offsetOutOfBounds offset size => .offsetOutOfBounds (n + offset) (n + size)

/-- The same item, `n` bytes later. -/
def WalkItem.shift (n : Nat) (item : WalkItem) : WalkItem :=
  ⟨n + item.offset, item.decoded.mapError (DecodeError.shift n)⟩

/-- An item keeps its span when the code gets longer in front of it. -/
theorem WalkItem.span_shift (n size : Nat) (item : WalkItem) :
    (item.shift n).span (n + size) = item.span size := by
  obtain ⟨offset, decoded⟩ := item
  rcases decoded with e | i
  · cases e <;> simp only [shift, span, Except.mapError, DecodeError.shift] <;> omega
  · rfl

/-- Two moves are one. -/
theorem WalkItem.shift_shift (m n : Nat) (item : WalkItem) :
    (item.shift m).shift n = item.shift (n + m) := by
  obtain ⟨offset, decoded⟩ := item
  rcases decoded with e | i
  · cases e <;> simp only [shift, Except.mapError, DecodeError.shift, Nat.add_assoc]
  · simp only [shift, Except.mapError, Nat.add_assoc]

section Append

variable (a b : Array UInt8)

/-- Bytes in front of the code move what is decoded, and change nothing else. -/
theorem Instruction.decode_append_right (o : Nat) :
    decode (a ++ b) (a.size + o) = (decode b o).mapError (DecodeError.shift a.size) := by
  have hget : ∀ k, (a ++ b)[a.size + k]? = b[k]? := by
    intro k
    simp [Array.getElem?_append_right]
  rcases Nat.lt_or_ge o b.size with hlt | hge
  · rcases decode_cases hlt with ⟨tag, h, ht, hd⟩ | ⟨op, h, hw, hd⟩ | ⟨i, h, hw, hd⟩
    · rw [hd, decode_of_ofTag?_eq_none ((hget o).trans h) ht]
      rfl
    · rw [hd, decode_of_size_lt ((hget o).trans h) (by simp only [Array.size_append]; omega)]
      simp only [Except.mapError, DecodeError.shift, Array.size_append, Except.error.injEq,
        DecodeError.truncated.injEq, true_and]
      omega
    · have hmoved : decode (a ++ b) (a.size + o) = .ok i := by
        refine decode_congr hd ?_
        intro k _
        rw [Nat.add_assoc, hget]
      rw [hd, hmoved]
      rfl
  · rw [decode_eq_offsetOutOfBounds_iff.mpr ⟨hge, rfl, rfl⟩,
      decode_eq_offsetOutOfBounds_iff.mpr ⟨by simp only [Array.size_append]; omega, rfl, rfl⟩,
      Array.size_append]
    rfl

/-- Bytes behind the code change what is decoded only where an operand is cut off. -/
theorem Instruction.decode_append_left {o : Nat} (ho : o < a.size)
    (ht : WalkItem.isTruncated ⟨o, decode a o⟩ = false) : decode (a ++ b) o = decode a o := by
  have hget : ∀ k, k < a.size → (a ++ b)[k]? = a[k]? := by
    intro k hk
    exact Array.getElem?_append_left hk
  rcases decode_cases ho with ⟨tag, h, hn, hd⟩ | ⟨op, _, _, hd⟩ | ⟨i, _, hw, hd⟩
  · rw [hd, decode_of_ofTag?_eq_none ((hget o ho).trans h) hn]
  · rw [hd] at ht
    cases ht
  · have hsame : decode (a ++ b) o = .ok i := by
      refine decode_congr hd ?_
      intro k hk
      exact hget _ (by omega)
    rw [hd, hsame]

/-- The walk of the code behind `a` is its own walk, moved by the size of `a`. -/
theorem walkFrom_append_right (o : Nat) :
    walkFrom (a ++ b) (a.size + o) = (walkFrom b o).map (WalkItem.shift a.size) := by
  fun_induction walkFrom b o with
  | case1 o hlt item ih =>
    have hspan := WalkItem.span_shift a.size b.size item
    simp only [WalkItem.shift, item] at hspan
    rw [walkFrom_of_lt (by simp only [Array.size_append]; omega), Instruction.decode_append_right,
      Array.size_append, hspan, Nat.add_assoc, ih]
    rfl
  | case2 o hge => exact walkFrom_of_le (by simp only [Array.size_append]; omega)

/-- A walk that is not cut off goes on behind its code. -/
theorem walkFrom_append_left {o : Nat} (ho : o ≤ a.size)
    (ht : ∀ item ∈ walkFrom a o, item.isTruncated = false) :
    walkFrom (a ++ b) o = walkFrom a o ++ walkFrom (a ++ b) a.size := by
  fun_induction walkFrom a o with
  | case1 o hlt item ih =>
    have hd := Instruction.decode_append_left a b hlt (ht item List.mem_cons_self)
    -- an item that is not cut off has the same span in the longer code
    have hspan : item.span (a ++ b).size = item.span a.size := by
      have hitem := ht item List.mem_cons_self
      rcases Instruction.decode_cases hlt with ⟨_, _, _, h⟩ | ⟨_, _, _, h⟩ | ⟨_, _, _, h⟩
      · simp only [item, WalkItem.span, h]
      · simp [item, WalkItem.isTruncated, h] at hitem
      · simp only [item, WalkItem.span, h]
    have hrest : ∀ x ∈ walkFrom a (o + item.span a.size), x.isTruncated = false := by
      intro x hx
      exact ht x (List.mem_cons_of_mem _ hx)
    rw [walkFrom_of_lt (by simp only [Array.size_append]; omega), hd, hspan,
      ih (offset_add_span_le hlt) hrest]
    rfl
  | case2 o hge =>
    have : o = a.size := by omega
    subst this
    rfl

/-- **A walk that is not cut off is followed by the walk of the code behind it.** -/
theorem walkFrom_append (ht : ∀ item ∈ walkFrom a 0, item.isTruncated = false) :
    walkFrom (a ++ b) 0 = walkFrom a 0 ++ (walkFrom b 0).map (WalkItem.shift a.size) := by
  rw [walkFrom_append_left a b (Nat.zero_le _) ht, ← walkFrom_append_right a b 0, Nat.add_zero]

end Append

/-! ## 4. Boundaries -/

/-- Where an item starts, and the end of code whose walk is not cut off. -/
def IsBoundary (code : Array UInt8) (offset : Nat) : Prop :=
  (∃ item ∈ walkFrom code 0, item.offset = offset) ∨
    offset = code.size ∧ ∀ item ∈ walkFrom code 0, item.isTruncated = false

/-- An item that ends before the first part does is read from the first part alone. -/
theorem item_of_span_le {a b : Array UInt8} {o : Nat} (ho : o < a.size)
    (hb : a.size < (a ++ b).size)
    (hend : o + WalkItem.span ⟨o, Instruction.decode (a ++ b) o⟩ (a ++ b).size ≤ a.size) :
    WalkItem.isTruncated ⟨o, Instruction.decode a o⟩ = false ∧
      WalkItem.span ⟨o, Instruction.decode (a ++ b) o⟩ (a ++ b).size =
        WalkItem.span ⟨o, Instruction.decode a o⟩ a.size := by
  have hget : ∀ k, k < a.size → (a ++ b)[k]? = a[k]? := by
    intro k hk
    exact Array.getElem?_append_left hk
  rcases Instruction.decode_cases (Nat.lt_trans ho hb) with
    ⟨tag, h, hn, hd⟩ | ⟨op, _, _, hd⟩ | ⟨i, _, _, hd⟩
  · rw [hget o ho] at h
    have ha := Instruction.decode_of_ofTag?_eq_none h hn
    simp only [WalkItem.isTruncated, WalkItem.span, ha, hd, and_self]
  · -- a truncated item would end with the second part
    simp only [hd, WalkItem.span] at hend
    omega
  · simp only [hd, WalkItem.span] at hend
    have ha : Instruction.decode a o = .ok i := by
      refine Instruction.decode_congr hd ?_
      intro k hk
      exact (hget _ (by omega)).symm
    simp only [WalkItem.isTruncated, WalkItem.span, ha, hd, and_self]

/-- The walk as far as a place where an item starts is not cut off. -/
theorem isTruncated_of_mem_walkFrom_append {a b : Array UInt8} {o : Nat} (ho : o ≤ a.size)
    (hb : ∃ item ∈ walkFrom (a ++ b) o, item.offset = a.size) :
    ∀ item ∈ walkFrom a o, item.isTruncated = false := by
  fun_induction walkFrom a o with
  | case1 o hlt item ih =>
    obtain ⟨x, hx, hxo⟩ := hb
    have hlt' : o < (a ++ b).size := by
      simp only [Array.size_append]
      omega
    rw [walkFrom_of_lt hlt'] at hx
    rcases List.mem_cons.mp hx with rfl | hx
    · simp only at hxo
      omega
    · obtain ⟨hle, hsize, -⟩ := decoded_of_mem_walkFrom hx
      rw [hxo] at hle hsize
      obtain ⟨hitem, hspan⟩ := item_of_span_le hlt hsize hle
      rw [hspan] at hx
      intro y hy
      rcases List.mem_cons.mp hy with rfl | hy
      · exact hitem
      · exact ih (offset_add_span_le hlt) ⟨x, hx, hxo⟩ y hy
  | case2 => simp

/-- **Code may be cut exactly where the walk of the first part is not cut off.** -/
theorem isBoundary_iff {a b : Array UInt8} :
    IsBoundary (a ++ b) a.size ↔ ∀ item ∈ walkFrom a 0, item.isTruncated = false := by
  constructor
  · rintro (h | ⟨hsize, ht⟩)
    · exact isTruncated_of_mem_walkFrom_append (Nat.zero_le _) h
    · have : b = #[] := Array.eq_empty_of_size_eq_zero (by simpa using hsize)
      simpa [this] using ht
  · intro ht
    rcases Nat.eq_zero_or_pos b.size with hb | hb
    · have : b = #[] := Array.eq_empty_of_size_eq_zero hb
      exact .inr ⟨by simp [this], by simpa [this] using ht⟩
    · refine .inl ⟨WalkItem.shift a.size ⟨0, Instruction.decode b 0⟩, ?_, rfl⟩
      rw [walkFrom_append a b ht, walkFrom_of_lt hb]
      simp

/-- The items of bytes from offset `start` on, none of which is a tag. -/
def skippedFrom (start : Nat) : List UInt8 → List WalkItem
  | [] => []
  | tag :: tags => ⟨start, .error (.unknownOpcode start tag)⟩ :: skippedFrom (start + 1) tags

/-- The walk steps over bytes that are no tags one by one. -/
theorem walkFrom_append_skipped (a b : Array UInt8) {tags : List UInt8}
    (hu : ∀ tag ∈ tags, Opcode.ofTag? tag = none) :
    walkFrom (a ++ tags.toArray ++ b) a.size =
      skippedFrom a.size tags ++ walkFrom (a ++ tags.toArray ++ b) (a.size + tags.length) := by
  induction tags generalizing a with
  | nil => simp [skippedFrom]
  | cons tag tags ih =>
    have hcode : a ++ (tag :: tags).toArray ++ b = a.push tag ++ tags.toArray ++ b := by simp
    have hlt : a.size < (a.push tag ++ tags.toArray ++ b).size := by
      rw [Array.size_append, Array.size_append, Array.size_push]
      omega
    have hget : (a.push tag ++ tags.toArray ++ b)[a.size]? = some tag := by
      have hpush : a.size < (a.push tag).size := by
        rw [Array.size_push]
        exact Nat.lt_succ_self _
      rw [Array.append_assoc, Array.getElem?_append_left hpush, Array.getElem?_push_size]
    have hd := Instruction.decode_of_ofTag?_eq_none hget (hu tag List.mem_cons_self)
    rw [hcode, walkFrom_of_lt hlt, hd]
    simp only [WalkItem.span, skippedFrom, List.cons_append, List.length_cons]
    have hrest : ∀ t ∈ tags, Opcode.ofTag? t = none := by
      intro t ht
      exact hu t (List.mem_cons_of_mem _ ht)
    have hnext := ih (a.push tag) hrest
    rw [Array.size_push] at hnext
    rw [hnext, Nat.add_right_comm, Nat.add_assoc]

/-! ## 5. The whole walk -/

/-- How the items of a walk lie in code of some size. -/
structure Tiling (size : Nat) (items : List WalkItem) : Prop where
  /-- An item starts where the spans before it end, the first one at zero. -/
  offset_eq : ∀ i (h : i < items.length),
    items[i].offset = ((items.take i).map (·.span size)).sum
  /-- The spans make up the code. -/
  sum_eq : (items.map (·.span size)).sum = size
  /-- Every byte belongs to exactly one item. -/
  covers : ∀ o < size, ∃! i, ∃ h : i < items.length,
    items[i].offset ≤ o ∧ o < items[i].offset + items[i].span size
  /-- No item reaches over the end. -/
  inside : ∀ item ∈ items, item.offset + item.span size ≤ size
  /-- Only the last item can be truncated. -/
  truncated_last : ∀ i (h : i < items.length), items[i].isTruncated = true → i + 1 = items.length
  /-- No item starts outside the code. -/
  ne_offsetOutOfBounds : ∀ item ∈ items, ∀ o n, item.decoded ≠ .error (.offsetOutOfBounds o n)

/-- The whole walk tiles the whole code. -/
theorem tiling_walkFrom (code : Array UInt8) : Tiling code.size (walkFrom code 0) where
  offset_eq i hi := by
    simpa using (tiles_walkFrom (Nat.zero_le code.size)).offset_eq hi
  sum_eq := by simpa using (tiles_walkFrom (Nat.zero_le code.size)).start_add_sum
  covers o ho := (tiles_walkFrom (Nat.zero_le _)).existsUnique_covers (Nat.zero_le o) ho
  inside item hitem := by
    obtain ⟨_, hlt, hd⟩ := decoded_of_mem_walkFrom hitem
    have := offset_add_span_le hlt
    rwa [← hd] at this
  truncated_last i hi ht := by
    refine (tiles_walkFrom (Nat.zero_le _)).eq_last hi ?_
    have hlt := (decoded_of_mem_walkFrom (List.getElem_mem hi)).2.1
    -- the span of a truncated item is all that is left
    unfold WalkItem.isTruncated at ht
    split at ht
    · rename_i hd
      simp only [WalkItem.span, hd]
      omega
    · cases ht
  ne_offsetOutOfBounds item hitem o n hd := by
    obtain ⟨_, hlt, h⟩ := decoded_of_mem_walkFrom hitem
    have := Instruction.decode_eq_offsetOutOfBounds_iff.mp (h.symm.trans hd)
    omega

/-- **Walks tile the code, and continue each other.**  The items of a walk lie side by side in the
code, each with what is decoded at its offset.  Behind code whose walk is not cut off the walk is
that of the rest, moved.  Bytes that are no tags, put in at a boundary, leave the items before it
as they are and move those behind it. -/
theorem walk_tiles_and_continues :
    (∀ c : Chunk, Tiling c.size c.walk ∧
      ∀ item ∈ c.walk, item.decoded = c.decodeAt item.offset) ∧
    (∀ a b : Array UInt8, (∀ item ∈ walkFrom a 0, item.isTruncated = false) →
      walkFrom (a ++ b) 0 = walkFrom a 0 ++ (walkFrom b 0).map (WalkItem.shift a.size)) ∧
    (∀ (a b : Array UInt8) (tags : List UInt8), IsBoundary (a ++ b) a.size →
      (∀ tag ∈ tags, Opcode.ofTag? tag = none) →
      ∃ earlier later : List WalkItem, walkFrom (a ++ b) 0 = earlier ++ later ∧
        (∀ item ∈ earlier, item.offset < a.size) ∧ (∀ item ∈ later, a.size ≤ item.offset) ∧
        walkFrom (a ++ tags.toArray ++ b) 0 =
          earlier ++ skippedFrom a.size tags ++ later.map (WalkItem.shift tags.length)) := by
  refine ⟨?_, walkFrom_append, ?_⟩
  · intro c
    refine ⟨tiling_walkFrom c.code.items, ?_⟩
    intro item hitem
    exact (decoded_of_mem_walkFrom hitem).2.2
  · intro a b tags hb hu
    have ht := isBoundary_iff.mp hb
    refine ⟨walkFrom a 0, walkFrom (a ++ b) a.size,
      walkFrom_append_left a b (Nat.zero_le _) ht, ?_, ?_, ?_⟩
    · intro item hitem
      exact (decoded_of_mem_walkFrom hitem).2.1
    · intro item hitem
      exact (decoded_of_mem_walkFrom hitem).1
    · have hlater : walkFrom (a ++ tags.toArray ++ b) (a.size + tags.length) =
          (walkFrom (a ++ b) a.size).map (WalkItem.shift tags.length) := by
        have h1 := walkFrom_append_right (a ++ tags.toArray) b 0
        have h2 := walkFrom_append_right a b 0
        simp only [Nat.add_zero, Array.size_append, List.size_toArray] at h1 h2
        simp only [h1, h2, List.map_map, Function.comp_def, WalkItem.shift_shift,
          Nat.add_comm tags.length]
      rw [Array.append_assoc, walkFrom_append_left a _ (Nat.zero_le _) ht, ← Array.append_assoc,
        walkFrom_append_skipped a b hu, hlater, List.append_assoc]

/-- Two bytes that are no tags, between a load of constant 7 and a return. -/
theorem walk_around_skipped :
    (∀ item ∈ walkFrom #[1, 7] 0, item.isTruncated = false) ∧
      walkFrom (#[1, 7] ++ #[0]) 0 =
        walkFrom #[1, 7] 0 ++ (walkFrom #[0] 0).map (WalkItem.shift 2) ∧
      ∃ earlier later : List WalkItem, walkFrom (#[1, 7] ++ #[0]) 0 = earlier ++ later ∧
        (∀ item ∈ earlier, item.offset < 2) ∧ (∀ item ∈ later, 2 ≤ item.offset) ∧
        walkFrom (#[1, 7] ++ [0xEE, 0xFF].toArray ++ #[0]) 0 =
          earlier ++ skippedFrom 2 [0xEE, 0xFF] ++ later.map (WalkItem.shift 2) := by
  have ht : ∀ item ∈ walkFrom #[1, 7] 0, item.isTruncated = false := by
    have hwalk : walkFrom #[1, 7] 0 = [⟨0, .ok (.constant 7)⟩] := by
      rw [walkFrom_of_lt (by decide), walkFrom_of_le (by decide)]
      rfl
    simp [hwalk, WalkItem.isTruncated]
  have hu : ∀ tag ∈ [(0xEE : UInt8), 0xFF], Opcode.ofTag? tag = none :=
    List.forall_mem_cons.mpr ⟨by decide, List.forall_mem_singleton.mpr (by decide)⟩
  obtain ⟨-, happend, hinsert⟩ := walk_tiles_and_continues
  exact ⟨ht, happend #[1, 7] #[0] ht,
    hinsert #[1, 7] #[0] [0xEE, 0xFF] (isBoundary_iff.mpr ht) hu⟩

end BytecodeTrace
