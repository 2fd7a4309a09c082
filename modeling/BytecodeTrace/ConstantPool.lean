/-
# Constant pools

The values that instructions load, addressed by their index in the order in which they came.
An index has to fit in three bytes, so a pool holds at most `2 ^ 24` values.
-/
import BytecodeTrace.Buffer

namespace BytecodeTrace

/-- The values of a chunk, by index. -/
structure ConstantPool where
  values : Buffer Value
deriving DecidableEq, Repr, Inhabited

namespace ConstantPool

/-- The number of values that a pool can hold. -/
def limit : Nat := 2 ^ 24

/-- No values. -/
def empty : ConstantPool := ⟨.empty⟩

/-- The number of values. -/
def size (p : ConstantPool) : Nat := p.values.size

/-- There is no value. -/
def isEmpty (p : ConstantPool) : Bool := p.values.isEmpty

/-- Stores a value and answers its index; a full pool refuses and stays as it is. -/
@[inline] def append (p : ConstantPool) (value : Value) :
    Outcome ConstantPool (Except ChunkError Nat) :=
  match p with
  | ⟨values⟩ =>
    if limit ≤ values.size then ⟨.error (.poolFull values.size), ⟨values⟩, []⟩
    else
      match values.append value with
      | ⟨index, values, events⟩ =>
        ⟨.ok index, ⟨values⟩, events ++ [.constantStored index value]⟩

/-- The value with an index. -/
def get (p : ConstantPool) (index : Nat) : Except ChunkError Value :=
  match p.values.items[index]? with
  | some value => .ok value
  | none => .error (.constantOutOfRange index p.size)

/-- The values in the order of their indices. -/
def toList (p : ConstantPool) : List Value := p.values.items.toList

/-- Gives up all values. -/
def release (_ : ConstantPool) : ConstantPool := empty

/-- Numerically equal values at every index, and the same capacity. -/
def ieeeEq (a b : ConstantPool) : Bool := a.values.eqBy Value.ieeeEq b.values

end ConstantPool
end BytecodeTrace
