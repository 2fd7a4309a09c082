/-
# A buffer is the list of its items

Whatever is done to a buffer that starts empty, its items are those of a list to which the same is
done, its capacity follows from their number alone, and what it reports is exactly how it grew.

* `BufferEdit.listed`: the list behind a history;
* `Grown.append64?_eq`: with lengths in words an append never has to reserve less than nothing;
* `policyGrowths_edit`: an edit that is no release reports the growths that its items need;
* `lists_of_grown`: what a buffer answers that holds a list;
* `edited_lists`: all of it for every history.
-/
import BytecodeTrace.Proofs.Buffer.Doubling
import BytecodeTrace.Proofs.LineTable
import BytecodeTrace.Proofs.Word
import Mathlib.Data.List.ModifyLast

namespace BytecodeTrace

/-! ## 1. Histories of a buffer -/

/-- One thing that can happen to a buffer.  A clone takes the place of the buffer. -/
inductive BufferEdit (α : Type) where
  | append (x : α)
  | extend (xs : List α)
  | modifyLast (f : α → α)
  | clone
  | release

namespace BufferEdit

variable {α : Type}

/-- The list behind an edit. -/
def record (xs : List α) : BufferEdit α → List α
  | append x => xs ++ [x]
  | extend ys => xs ++ ys
  | modifyLast f => xs.modifyLast f
  | clone => xs
  | release => []

/-- The list behind a history that starts with no items. -/
def listed (edits : List (BufferEdit α)) : List α := edits.foldl record []

end BufferEdit

namespace Buffer

variable {α : Type} {b : Buffer α}

/-- The buffer behind an edit, with what was reported. -/
def edit (b : Buffer α) : BufferEdit α → Outcome (Buffer α) Unit
  | .append x => (b.append x).andThen fun _ b => .pure () b
  | .extend xs => b.extend xs
  | .modifyLast f => .pure () (b.modifyLast f)
  | .clone => .pure () b
  | .release => .pure () b.release

/-- The buffer behind a history, with all that was reported. -/
def edited (b : Buffer α) : List (BufferEdit α) → Outcome (Buffer α) Unit
  | [] => .pure () b
  | e :: edits => (b.edit e).andThen fun _ b => b.edited edits

/-- Puts an item at the end, with lengths in words.  A full buffer reserves as many places as its
new capacity has over its items; there is no answer where a length overflows or that number is
negative. -/
def append64? (b : Buffer α) (x : α) : Option (Outcome (Buffer α) UInt64) := do
  let index := UInt64.ofNat b.size
  let needed ← Word.add? index 1
  if UInt64.ofNat b.capacity < needed then
    let grown := growCapacity b.capacity
    let _ ← Word.sub? (UInt64.ofNat grown) index
    return ⟨index, ⟨b.items.push x, grown⟩, [.bufferGrew b.capacity grown]⟩
  else return ⟨index, ⟨b.items.push x, b.capacity⟩, []⟩

/-! ## 2. Items and capacities -/

/-- The newest item is changed as in a list. -/
theorem toList_modifyLast_eq (b : Buffer α) (f : α → α) :
    (b.modifyLast f).items.toList = b.items.toList.modifyLast f := by
  rcases List.eq_nil_or_concat' b.items.toList with hnil | ⟨init, x, hinit⟩
  · have hitems : b.items = #[] := Array.toList_eq_nil_iff.mp hnil
    simp [modifyLast, hitems, List.modifyLast, List.modifyLast.go]
  · rw [toList_modifyLast hinit, hinit, List.modifyLast_concat]

theorem toList_edit (b : Buffer α) (e : BufferEdit α) :
    (b.edit e).state.items.toList = e.record b.items.toList := by
  cases e with
  | append x => simp [edit, Outcome.pure, BufferEdit.record]
  | extend xs => simp [edit, BufferEdit.record]
  | modifyLast f => exact toList_modifyLast_eq b f
  | clone => rfl
  | release => rfl

theorem Grown.extend (h : Grown b) (xs : List α) : Grown (b.extend xs).state := by
  induction xs generalizing b with
  | nil => exact h
  | cons x xs ih => exact ih (h.append x)

theorem Grown.edit (h : Grown b) (e : BufferEdit α) : Grown (b.edit e).state := by
  cases e with
  | append x => exact h.append x
  | extend xs => exact h.extend xs
  | modifyLast f => exact h.modifyLast f
  | clone => exact h
  | release => exact grown_empty

/-- A history has the same effect on a buffer and on its list. -/
theorem Grown.edited (h : Grown b) (edits : List (BufferEdit α)) :
    Grown (b.edited edits).state ∧
      (b.edited edits).state.items.toList = edits.foldl BufferEdit.record b.items.toList := by
  induction edits generalizing b with
  | nil => exact ⟨h, rfl⟩
  | cons e edits ih =>
    rw [List.foldl_cons, ← toList_edit]
    exact ih (h.edit e)

/-- The capacity up to `2 ^ 63` items. -/
theorem Grown.capacity_eq (h : Grown b) (hsize : b.size ≤ 2 ^ 63) :
    b.capacity = levelCapacity (growths b.size) := by
  have hword : b.size ≤ greatestCapacity := Nat.le_trans hsize (by decide)
  rw [h, policyCapacity_eq hword, cappedCapacity_eq hsize (Nat.le_refl _)]

/-- There are places for all items. -/
theorem Grown.size_le_capacity (h : Grown b) (hsize : b.size ≤ 2 ^ 63) : b.size ≤ b.capacity := by
  rw [h.capacity_eq hsize]
  exact le_levelCapacity_growths _

/-- **A full buffer takes at least eight places, and twice as many as it had.** -/
theorem Grown.growCapacity_eq (h : Grown b) (hfull : b.size = b.capacity)
    (hsize : b.size < 2 ^ 63) : growCapacity b.capacity = max 8 (2 * b.capacity) := by
  have hlevel := h.capacity_eq (Nat.le_of_lt hsize)
  have hgreat : greatestCapacity = 2 ^ 64 - 1 := rfl
  rw [growCapacity, leastCapacity]
  split
  · rename_i hsmall
    -- below eight places there is only the capacity zero
    cases hcount : growths b.size with
    | zero =>
      rw [hcount] at hlevel
      rw [hlevel]
      rfl
    | succ l =>
      rw [hcount] at hlevel
      have hleast : levelCapacity 1 ≤ levelCapacity (l + 1) := levelCapacity_le (by omega)
      have height : levelCapacity 1 = 8 := rfl
      omega
  · omega

/-! ## 3. Words -/

/-- An append to a full buffer. -/
theorem append_of_full (h : b.capacity < b.size + 1) (x : α) :
    b.append x = ⟨b.size, ⟨b.items.push x, growCapacity b.capacity⟩,
      [.bufferGrew b.capacity (growCapacity b.capacity)]⟩ := by
  obtain ⟨items, capacity⟩ := b
  exact if_pos h

/-- An append to a buffer that has a place left. -/
theorem append_of_room (h : ¬ b.capacity < b.size + 1) (x : α) :
    b.append x = ⟨b.size, ⟨b.items.push x, b.capacity⟩, []⟩ := by
  obtain ⟨items, capacity⟩ := b
  exact if_neg h

/-- **With lengths in words an append always has an answer**, and the number of places that it
reserves is not negative. -/
theorem Grown.append64?_eq (h : Grown b) (hsize : b.size < 2 ^ 63) (x : α) :
    ∃ index : UInt64, index.toNat = b.size ∧
      b.append64? x = some ⟨index, (b.append x).state, (b.append x).events⟩ := by
  have hroom := h.size_le_capacity (Nat.le_of_lt hsize)
  have hindex : (UInt64.ofNat b.size).toNat = b.size :=
    UInt64.toNat_ofNat_of_lt' (by rw [UInt64.size]; omega)
  obtain ⟨needed, hneeded, htoNat⟩ := @Word.add?_eq_some (UInt64.ofNat b.size) 1 (by
    rw [hindex, UInt64.toNat_one]
    omega)
  rw [hindex, UInt64.toNat_one] at htoNat
  refine ⟨UInt64.ofNat b.size, hindex, ?_⟩
  have hcapacity : b.capacity < 2 ^ 64 := by
    have hword : b.size ≤ greatestCapacity := Nat.le_trans (Nat.le_of_lt hsize) (by decide)
    have hle : cappedCapacity (growths b.size) ≤ greatestCapacity := Nat.min_le_right _ _
    have hgreat : greatestCapacity = 2 ^ 64 - 1 := rfl
    rw [h, policyCapacity_eq hword]
    omega
  have hfull : UInt64.ofNat b.capacity < needed ↔ b.capacity < b.size + 1 := by
    rw [UInt64.lt_iff_toNat_lt, htoNat,
      UInt64.toNat_ofNat_of_lt' (by rw [UInt64.size]; omega)]
  simp only [append64?, hneeded, Option.bind_eq_bind, Option.bind_some, hfull]
  split
  · rename_i hlt
    have hgrown := h.growCapacity_eq (by omega) hsize
    have hword : (UInt64.ofNat (growCapacity b.capacity)).toNat = growCapacity b.capacity :=
      UInt64.toNat_ofNat_of_lt' (by rw [UInt64.size]; omega)
    obtain ⟨places, hplaces, -⟩ := @Word.sub?_eq_some (UInt64.ofNat (growCapacity b.capacity))
      (UInt64.ofNat b.size) (by
        rw [hindex, hword]
        omega)
    simp only [hplaces, Option.bind_some, append_of_full hlt x, pure]
  · rename_i hge
    simp only [append_of_room hge x, pure]

/-! ## 4. Reports -/

theorem Grown.policyGrowths_extend (h : Grown b) (xs : List α) :
    policyGrowths b.size ++ (b.extend xs).events = policyGrowths (b.extend xs).state.size := by
  induction xs generalizing b with
  | nil => exact List.append_nil _
  | cons x xs ih =>
    rw [Buffer.extend, Outcome.events_andThen, Outcome.state_andThen, ← List.append_assoc,
      h.policyGrowths_append, ih (h.append x)]

/-- **An edit reports the growths that its items need**, unless it is a release. -/
theorem Grown.policyGrowths_edit (h : Grown b) {e : BufferEdit α} (he : e ≠ .release) :
    policyGrowths b.size ++ (b.edit e).events = policyGrowths (b.edit e).state.size := by
  cases e with
  | append x =>
    rw [Buffer.edit, Outcome.events_andThen, Outcome.state_andThen]
    exact (congrArg (policyGrowths b.size ++ ·) (List.append_nil _)).trans
      (h.policyGrowths_append x)
  | extend xs => exact h.policyGrowths_extend xs
  | modifyLast f =>
    have hsize : (b.modifyLast f).size = b.size := Array.size_modify
    show policyGrowths b.size ++ [] = policyGrowths (b.modifyLast f).size
    rw [hsize, List.append_nil]
  | clone => exact List.append_nil _
  | release => exact absurd rfl he

/-- So does a history without a release. -/
theorem Grown.policyGrowths_edited (h : Grown b) {edits : List (BufferEdit α)}
    (hedits : ∀ e ∈ edits, e ≠ .release) :
    policyGrowths b.size ++ (b.edited edits).events =
      policyGrowths (b.edited edits).state.size := by
  induction edits generalizing b with
  | nil => exact List.append_nil _
  | cons e edits ih =>
    obtain ⟨he, hrest⟩ := List.forall_mem_cons.mp hedits
    rw [Buffer.edited, Outcome.events_andThen, Outcome.state_andThen, ← List.append_assoc,
      h.policyGrowths_edit he, ih (h.edit e) hrest]

/-- What is reported between two numbers of items. -/
theorem eq_growthRecords {m n : Nat} {events : List Event} (hmn : m ≤ n) (hn : n ≤ 2 ^ 63)
    (h : policyGrowths m ++ events = policyGrowths n) :
    events = growthRecords (growths m) (growths n) := by
  have hword : n ≤ greatestCapacity := Nat.le_trans hn (by decide)
  rw [policyGrowths_eq (Nat.le_trans hmn hword), policyGrowths_eq hword,
    ← growthRecords_append (Nat.zero_le _) (growths_le hmn)] at h
  exact List.append_cancel_left h

/-- An edit takes no item away, unless it is a release. -/
theorem size_le_edit (b : Buffer α) {e : BufferEdit α} (he : e ≠ .release) :
    b.size ≤ (b.edit e).state.size := by
  cases e with
  | append x => simp [edit, Outcome.pure, size]
  | extend xs => simp [edit, size]
  | modifyLast f => exact Nat.le_of_eq Array.size_modify.symm
  | clone => exact Nat.le_refl _
  | release => exact absurd rfl he

/-- The text of a growth. -/
theorem message_growthRecord {n l : Nat} (hn : n ≤ 2 ^ 63) (hl : l < growths n) :
    (growthRecord l).message = s!"buffer grow {levelCapacity l} -> {levelCapacity (l + 1)}" := by
  rw [growthRecord, cappedCapacity_eq hn (Nat.le_of_lt hl), cappedCapacity_eq hn hl]
  rfl

/-! ## 5. What a buffer answers -/

/-- The buffer is the list, with the capacity of the doubling policy, and it reports its growths. -/
structure Lists (b : Buffer α) (xs : List α) : Prop where
  toList_eq : b.items.toList = xs
  size_eq : b.size = xs.length
  isEmpty_eq : b.isEmpty = xs.isEmpty
  /-- An item is read inside the buffer, and every other index is refused. -/
  get_eq : ∀ i, b.get i =
    match xs[i]? with
    | some x => .ok x
    | none => .error ⟨i, xs.length⟩
  last?_eq : b.last? = xs.getLast?
  /-- An append answers how many items there were. -/
  append_answer : ∀ x, (b.append x).answer = xs.length
  capacity_of_nil : xs = [] → b.capacity = 0
  /-- With items the capacity is the least number of places that the policy has for them. -/
  capacity_least : xs ≠ [] → xs.length < 2 ^ 63 →
    IsLeast {c | (∃ k, c = 8 * 2 ^ k) ∧ xs.length ≤ c} b.capacity
  /-- Exactly an append that finds no place left says that the buffer grows. -/
  append_messages : xs.length < 2 ^ 63 → ∀ x, (b.append x).events.map Event.message =
    if xs.length = b.capacity then
      [s!"buffer grow {b.capacity} -> {max 8 (2 * b.capacity)}"]
    else []
  /-- In words, an append reserves no negative number of places. -/
  append_words : xs.length < 2 ^ 63 → ∀ x, ∃ index : UInt64, index.toNat = xs.length ∧
    b.append64? x = some ⟨index, (b.append x).state, (b.append x).events⟩
  /-- An edit reports the growths between the items before it and behind it, and nothing else. -/
  edit_events : ∀ e : BufferEdit α, (e.record xs).length ≤ 2 ^ 63 →
    (b.edit e).events = growthRecords (growths xs.length) (growths (e.record xs).length)

/-- A buffer with the capacity of the policy is the list of its items. -/
theorem lists_of_grown (h : Grown b) : b.Lists b.items.toList := by
  have hlength : b.items.toList.length = b.size := Array.length_toList
  refine ⟨rfl, hlength.symm, ?_, ?_, ?_, ?_, ?_, ?_, ?_, ?_, ?_⟩
  · rw [isEmpty, ← Array.isEmpty_toList]
  · intro i
    rw [Array.getElem?_toList, hlength]
    rfl
  · rw [last?, Array.getLast?_toList]
  · intro x
    rw [answer_append, hlength]
  · intro hnil
    have hzero : b.size = 0 := by rw [← hlength, hnil, List.length_nil]
    rw [h, hzero]
    rfl
  · intro hne hsize
    rw [hlength] at hsize ⊢
    rw [h.capacity_eq (Nat.le_of_lt hsize)]
    exact isLeast_levelCapacity (hlength ▸ List.length_pos_of_ne_nil hne)
  · intro hsize x
    rw [hlength] at hsize ⊢
    have hroom := h.size_le_capacity (Nat.le_of_lt hsize)
    rw [events_append]
    by_cases hfull : b.size = b.capacity
    · rw [if_pos (by omega), if_pos hfull, h.growCapacity_eq hfull hsize]
      rfl
    · rw [if_neg (by omega), if_neg hfull]
      rfl
  · intro hsize x
    rw [hlength] at hsize ⊢
    exact h.append64?_eq hsize x
  · intro e he
    have hsize : (e.record b.items.toList).length = (b.edit e).state.size := by
      rw [← toList_edit, Array.length_toList]
      rfl
    rw [hsize] at he ⊢
    rw [hlength]
    by_cases hrelease : e = .release
    · subst hrelease
      have hnone : growthRecords (growths b.size) 0 = [] := by
        rw [growthRecords, Nat.zero_sub]
        rfl
      exact hnone.symm
    · exact eq_growthRecords (b.size_le_edit hrelease) he (h.policyGrowths_edit hrelease)

/-- **A buffer is a list with the doubling policy.**  Behind every history it holds the items of the
list, with the capacity that they need, and reports of an append whether it grew.  Without a release
the whole history reports each growth once, up to the capacity that is left. -/
theorem edited_lists (edits : List (BufferEdit α)) :
    ((empty : Buffer α).edited edits).state.Lists (BufferEdit.listed edits) ∧
      ((∀ e ∈ edits, e ≠ .release) → (BufferEdit.listed edits).length < 2 ^ 63 →
        ∃ l, ((empty : Buffer α).edited edits).state.capacity = levelCapacity l ∧
          ((empty : Buffer α).edited edits).events.map Event.message =
            (List.range l).map fun k =>
              s!"buffer grow {levelCapacity k} -> {levelCapacity (k + 1)}") := by
  obtain ⟨hgrown, hitems⟩ := (grown_empty (α := α)).edited edits
  have hlists := lists_of_grown hgrown
  have hlisted : ((empty : Buffer α).edited edits).state.items.toList = BufferEdit.listed edits :=
    hitems
  rw [hlisted] at hlists
  refine ⟨hlists, ?_⟩
  intro hedits hsize
  rw [← hlists.size_eq] at hsize
  have hevents := (grown_empty (α := α)).policyGrowths_edited hedits
  generalize (empty : Buffer α).edited edits = o at hgrown hsize hevents
  refine ⟨growths o.state.size, hgrown.capacity_eq (Nat.le_of_lt hsize), ?_⟩
  have hrecords := eq_growthRecords (Nat.zero_le _) (Nat.le_of_lt hsize) hevents
  rw [hrecords, growthRecords, List.map_map, List.range_eq_range']
  refine List.map_congr_left ?_
  intro l hl
  have hlt : l < growths o.state.size := by
    simpa [growths] using (List.mem_range'_1.mp hl).2
  exact message_growthRecord (Nat.le_of_lt hsize) hlt

/-- Nine items, the last one changed: the eight places were not enough. -/
theorem edited_lists_of_nine :
    ((empty : Buffer Nat).edited
        [.append 3, .extend (List.replicate 8 5), .modifyLast (· + 2), .clone]).state.Lists
        [3, 5, 5, 5, 5, 5, 5, 5, 7] ∧
      ((empty : Buffer Nat).edited
        [.append 3, .extend (List.replicate 8 5), .modifyLast (· + 2), .clone]).events.map
        Event.message = ["buffer grow 0 -> 8", "buffer grow 8 -> 16"] := by
  obtain ⟨hlists, hgrowths⟩ := edited_lists (α := Nat)
    [.append 3, .extend (List.replicate 8 5), .modifyLast (· + 2), .clone]
  obtain ⟨l, hcapacity, hmessages⟩ := hgrowths (by simp) (by decide)
  have hsixteen : levelCapacity l = 16 := hcapacity.symm
  obtain rfl : l = 2 := by
    refine Nat.le_antisymm ?_ ?_
    · by_contra hgt
      have hle : levelCapacity 3 ≤ levelCapacity l := levelCapacity_le (Nat.not_le.mp hgt)
      rw [hsixteen] at hle
      exact absurd hle (by decide)
    · by_contra hlt
      have hle : levelCapacity l ≤ levelCapacity 1 :=
        levelCapacity_le (Nat.le_of_lt_succ (Nat.not_le.mp hlt))
      rw [hsixteen] at hle
      exact absurd hle (by decide)
  exact ⟨hlists, hmessages⟩

end Buffer
end BytecodeTrace
