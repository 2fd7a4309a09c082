/-
# Growable buffers

A buffer is a sequence that keeps its own logical capacity.  It starts without capacity; the
first append gives it eight places, and every append that finds it full doubles them.

The view of a buffer is its `items`.  `items_append` and `capacity_append` say what an append does
to both, and `events_append` says that it reports exactly its growth.
-/
import BytecodeTrace.Event

namespace BytecodeTrace

/-! ## 1. The growth policy -/

/-- The capacity of a buffer after its first append. -/
def leastCapacity : Nat := 8

/-- Capacities saturate at the largest number of 64 bits. -/
def greatestCapacity : Nat := 2 ^ 64 - 1

/-- The capacity that follows `old`. -/
def growCapacity (old : Nat) : Nat :=
  if old < leastCapacity then leastCapacity else min (2 * old) greatestCapacity

/-! ## 2. Buffers -/

/-- A sequence with a logical capacity. -/
structure Buffer (α : Type) where
  items : Array α
  capacity : Nat
deriving DecidableEq, Repr

namespace Buffer

variable {α : Type}

/-- No items and no capacity. -/
def empty : Buffer α := ⟨#[], 0⟩

/-- The empty buffer stands for any. -/
instance : Inhabited (Buffer α) := ⟨empty⟩

/-- The number of items. -/
@[inline] def size (b : Buffer α) : Nat := b.items.size

/-- There is no item. -/
def isEmpty (b : Buffer α) : Bool := b.items.isEmpty

/-- Puts an item at the end and answers its index. -/
@[inline] def append (b : Buffer α) (x : α) : Outcome (Buffer α) Nat :=
  match b with
  | ⟨items, capacity⟩ =>
    let index := items.size
    if capacity < index + 1 then
      let grown := growCapacity capacity
      ⟨index, ⟨items.push x, grown⟩, [.bufferGrew capacity grown]⟩
    else ⟨index, ⟨items.push x, capacity⟩, []⟩

/-- Appends a list of items, the first one first. -/
def extend (b : Buffer α) : List α → Outcome (Buffer α) Unit
  | [] => .pure () b
  | x :: xs => (b.append x).andThen fun _ b => b.extend xs

/-- The item at an index. -/
def get (b : Buffer α) (index : Nat) : Except OutOfBounds α :=
  match b.items[index]? with
  | some x => .ok x
  | none => .error ⟨index, b.items.size⟩

/-- The newest item. -/
@[inline] def last? (b : Buffer α) : Option α := b.items.back?

/-- Changes the newest item, if there is one, in its place. -/
@[inline] def modifyLast (b : Buffer α) (f : α → α) : Buffer α :=
  match b with
  | ⟨items, capacity⟩ => ⟨items.modify (items.size - 1) f, capacity⟩

/-- Gives up all items and the capacity. -/
def release (_ : Buffer α) : Buffer α := empty

/-- The same items, up to `same`, and the same capacity. -/
def eqBy (same : α → α → Bool) (a b : Buffer α) : Bool :=
  a.items.isEqv b.items same && a.capacity == b.capacity

/-! ## 3. What the operations do to the view -/

/-- An append answers the index of the new item. -/
@[simp] theorem answer_append (b : Buffer α) (x : α) : (b.append x).answer = b.size := by
  simp only [append, size]; split <;> rfl

/-- An append puts its item behind the others. -/
@[simp] theorem items_append (b : Buffer α) (x : α) :
    (b.append x).state.items = b.items.push x := by
  simp only [append]; split <;> rfl

/-- An append grows the capacity exactly when the buffer is full. -/
theorem capacity_append (b : Buffer α) (x : α) :
    (b.append x).state.capacity =
      if b.capacity < b.size + 1 then growCapacity b.capacity else b.capacity := by
  simp only [append, size]; split <;> simp [*]

/-- An append reports its growth and nothing else. -/
theorem events_append (b : Buffer α) (x : α) :
    (b.append x).events =
      if b.capacity < b.size + 1 then [.bufferGrew b.capacity (growCapacity b.capacity)]
      else [] := by
  simp only [append, size]; split <;> simp [*]

/-- The items of a list come behind the others, in order. -/
@[simp] theorem items_extend (b : Buffer α) (xs : List α) :
    (b.extend xs).state.items = b.items ++ xs.toArray := by
  induction xs generalizing b with
  | nil => simp [extend, Outcome.pure]
  | cons x xs ih => simp [extend, ih]

end Buffer
end BytecodeTrace
