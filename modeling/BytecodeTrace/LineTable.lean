/-
# Line tables

A line table gives every byte of the code its source line.  It holds runs: neighbouring bytes of
one line share a run, and the runs follow each other without a gap.

`LineTable.push` records the line of one more byte; `LineTable.line?` finds a line by binary
search over the starts of the runs; `LineTable.toList` is the table's view, one line per byte.
-/
import BytecodeTrace.Buffer

namespace BytecodeTrace

/-- `count` bytes from offset `start` on come from `line`. -/
structure LineRun where
  start : Nat
  count : Nat
  line : Line
deriving DecidableEq, Repr, Inhabited

/-- The offset right behind the run. -/
def LineRun.stop (run : LineRun) : Nat := run.start + run.count

/-- The lines of the bytes so far. -/
structure LineTable where
  runs : Buffer LineRun
  size : Nat
deriving DecidableEq, Repr, Inhabited

namespace LineTable

/-- No lines. -/
def empty : LineTable := ⟨.empty, 0⟩

/-- There is no line. -/
def isEmpty (t : LineTable) : Bool := t.size == 0

/-- Records the line of the next byte: the last run is extended if it has the same line, and
otherwise a run begins. -/
@[inline] def push (t : LineTable) (line : Line) : Outcome LineTable Unit :=
  match t with
  | ⟨runs, size⟩ =>
    match runs.last? with
    | some run =>
      if run.line = line then
        ⟨(), ⟨runs.modifyLast fun run => { run with count := run.count + 1 }, size + 1⟩, []⟩
      else
        match runs.append ⟨size, 1, line⟩ with
        | ⟨_, runs, events⟩ => ⟨(), ⟨runs, size + 1⟩, events⟩
    | none =>
      match runs.append ⟨size, 1, line⟩ with
      | ⟨_, runs, events⟩ => ⟨(), ⟨runs, size + 1⟩, events⟩

/-- Records a list of lines, the first one first. -/
def pushAll (t : LineTable) : List Line → Outcome LineTable Unit
  | [] => .pure () t
  | line :: lines => (t.push line).andThen fun _ t => t.pushAll lines

/-- The number of runs that start at or before `offset`, when that number is from `low` to
`high` and the runs are in order: it halves the range that is left. -/
def searchRuns (runs : Array LineRun) (offset low high : Nat) (bound : high ≤ runs.size) : Nat :=
  if h : low < high then
    let middle := (low + high) / 2
    if runs[middle].start ≤ offset then searchRuns runs offset (middle + 1) high bound
    else searchRuns runs offset low middle (by omega)
  else low
termination_by high - low

/-- The line of the byte at an offset. -/
def line? (t : LineTable) (offset : Nat) : Option Line :=
  if t.size ≤ offset then none
  else
    let runs := t.runs.items
    match searchRuns runs offset 0 runs.size (Nat.le_refl _) with
    | 0 => none
    | k + 1 => runs[k]?.map LineRun.line

/-- The line of every byte, in order. -/
def toList (t : LineTable) : List Line :=
  t.runs.items.toList.flatMap fun run => List.replicate run.count run.line

/-- Gives up all runs. -/
def release (_ : LineTable) : LineTable := empty

end LineTable
end BytecodeTrace
