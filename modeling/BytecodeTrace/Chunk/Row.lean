/-
# Rows

The structured counterpart of a trace: one row per item of the walk, as data and as JSON.
-/
import BytecodeTrace.Chunk.Walk
import BytecodeTrace.Json.Basic

namespace BytecodeTrace

/-- What a row shows: an instruction, with the value that it loads when the pool has it, or the
text of the fault that stands in its place. -/
inductive RowContent where
  | instruction (i : Instruction) (value : Option Value)
  | fault (message : String)
deriving DecidableEq, Repr

/-- One row: an offset, the source line of the byte there, and what was decoded. -/
structure Row where
  offset : Nat
  line : Option Line
  content : RowContent
deriving DecidableEq, Repr

/-! ## 1. The rows of a chunk -/

namespace Chunk

/-- The row of one item of the walk. -/
def row (c : Chunk) (item : WalkItem) : Row :=
  { offset := item.offset
    line := c.lines.line? item.offset
    content :=
      match item.decoded with
      | .ok i => .instruction i (i.constantIndex?.bind fun index => (c.constant index).toOption)
      | .error e => .fault e.message }

/-- One row per item of the walk. -/
def rows (c : Chunk) : List Row := c.walk.map c.row

end Chunk

/-! ## 2. Rows as JSON -/

/-- An operation is its mnemonic. -/
def Opcode.json (op : Opcode) : Json := .text op.mnemonic

/-- An instruction is its operation, with the index when there is one. -/
def Instruction.json (i : Instruction) : Json :=
  .object (("op", i.opcode.json) ::
    match i.constantIndex? with
    | none => []
    | some index => [("index", .natural index)])

namespace Row

/-- The members behind offset and line; those without content are left out. -/
def contentMembers : RowContent → List (String × Json)
  | .instruction i none => [("instruction", i.json)]
  | .instruction i (some value) => [("instruction", i.json), ("value", .number value)]
  | .fault message => [("error", .text message)]

/-- A row is an object with the offset, the line and the content. -/
def json (r : Row) : Json :=
  let line := match r.line with
    | none => Json.null
    | some line => .natural line.toNat
  .object (("offset", .natural r.offset) :: ("line", line) :: contentMembers r.content)

end Row

/-- The rows of a chunk as one indented JSON array, with a line feed at the end. -/
def Chunk.rowsText (c : Chunk) : String :=
  String.ofList ((Json.array (c.rows.map Row.json)).indented 0 ++ ['\n'])

end BytecodeTrace
