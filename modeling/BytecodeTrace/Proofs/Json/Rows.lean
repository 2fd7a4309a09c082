/-
# The rows as JSON can be read back

A chunk is written as JSON by an array of objects, one for each row.  An object has no member for
what its row has not, so that what is missing and what is `null` are different things: a row without
a value has no member for it, and a value that is not a finite number is `null`.

* `JsonTree.row?`: reads an object as a row, with what is missing kept apart from `null`;
* `Row.said`: what is left of a row when it is written;
* `JsonTree.row?_tree`: which is what is read;
* `ReadRow.Of`: what such a row says of the item of the walk that it is for;
* `Chunk.render_json_read`: the whole text, for every chunk.
-/
import BytecodeTrace.Chunk.Row
import BytecodeTrace.Program.Task
import BytecodeTrace.Proofs.Chunk.Edit
import BytecodeTrace.Proofs.Chunk.Tiling
import BytecodeTrace.Proofs.Json.Reader
import Mathlib.Data.List.Forall2

namespace BytecodeTrace

/-! ## 1. Reading a row -/

/-- A row as it is read. -/
structure ReadRow where
  offset : Nat
  line : Option Line
  instruction : Option Instruction
  /-- The value, where there is one; it is none itself where it is `null`. -/
  value : Option (Option Value)
  error : Option String
deriving DecidableEq, Repr

namespace JsonTree

/-- A number that is written with digits only. -/
def natural? : JsonTree → Option Nat
  | number chars => if chars.all Char.isDigit then some (ofDigits chars) else none
  | _ => none

/-- A source line, or `null`. -/
def line? : JsonTree → Option (Option Line)
  | null => some none
  | tree => do
    let n ← tree.natural?
    if n < 2 ^ 32 then return some (UInt32.ofNat n) else none

/-- A value, or `null`. -/
def value? : JsonTree → Option (Option Value)
  | null => some none
  | number chars => (Value.read? chars).map some
  | _ => none

/-- A string. -/
def string? (tree : JsonTree) : Option String := tree.text?.map String.ofList

/-- The operation that has this name. -/
def opcode? (tree : JsonTree) : Option Opcode := do
  let name ← tree.string?
  Opcode.all.find? fun op => op.mnemonic == name

/-- An operation, with an index if it needs one and without one if it does not. -/
def instruction? (tree : JsonTree) : Option Instruction := do
  match ← (← tree.member? "op").opcode?, tree.member? "index" with
  | .ret, none => return .ret
  | .constant, some index => return .constant (← index.natural?)
  | .constantLong, some index => return .constantLong (← index.natural?)
  | _, _ => none

/-- A member that may be missing. -/
def optional? {α : Type} (name : String) (read : JsonTree → Option α) (tree : JsonTree) :
    Option (Option α) :=
  match tree.member? name with
  | none => some none
  | some member => (read member).map some

/-- A row. -/
def row? (tree : JsonTree) : Option ReadRow := do
  let offset ← (← tree.member? "offset").natural?
  let line ← (← tree.member? "line").line?
  let instruction ← tree.optional? "instruction" instruction?
  let value ← tree.optional? "value" value?
  let error ← tree.optional? "error" string?
  return ⟨offset, line, instruction, value, error⟩

/-! ## 2. What is written is read -/

theorem tree_object (ms : List (String × Json)) :
    (Json.object ms).tree = object (Json.memberTrees ms) := rfl

theorem natural?_natural (n : Nat) : (Json.natural n).tree.natural? = some n := by
  have hdigits : (digitsOf n).all Char.isDigit = true :=
    List.all_eq_true.mpr fun _ => isDigit_of_mem_digitsOf
  rw [Json.tree, natural?, hdigits, if_pos rfl, ofDigits_digitsOf]

theorem string?_text (s : String) : (Json.text s).tree.string? = some s := by
  simp [string?, Json.tree, text?]

theorem opcode?_json (op : Opcode) : op.json.tree.opcode? = some op := by
  rw [opcode?, Opcode.json, string?_text]
  cases op <;> decide

theorem instruction?_json (i : Instruction) : i.json.tree.instruction? = some i := by
  cases i with
  | ret =>
    simp [instruction?, Instruction.json, Instruction.constantIndex?, Instruction.opcode,
      tree_object, opcode?_json]
  | constant index =>
    simp [instruction?, Instruction.json, Instruction.constantIndex?, Instruction.opcode,
      tree_object, opcode?_json, natural?_natural]
  | constantLong index =>
    simp [instruction?, Instruction.json, Instruction.constantIndex?, Instruction.opcode,
      tree_object, opcode?_json, natural?_natural]

end JsonTree

/-- The value if it is a finite number. -/
def Value.finite? (v : Value) : Option Value := if v.isFinite then some v else none

/-- A finite value is read bit for bit. -/
theorem JsonTree.value?_number (v : Value) : (Json.number v).tree.value? = some v.finite? := by
  cases h : v.isFinite with
  | true => simp [Json.tree, value?, Value.finite?, h, Value.read?_jsonChars h]
  | false => simp [Json.tree, value?, Value.finite?, h]

/-- What is left of a row when it is written: a value that is not finite is not told. -/
def Row.said (r : Row) : ReadRow :=
  match r.content with
  | .instruction i value => ⟨r.offset, r.line, some i, value.map Value.finite?, none⟩
  | .fault message => ⟨r.offset, r.line, none, none, some message⟩

/-- A source line as it stands in a row. -/
def lineJson (line : Option Line) : Json := (line.map fun n => Json.natural n.toNat).getD .null

theorem Row.json_eq (r : Row) :
    r.json = .object (("offset", .natural r.offset) :: ("line", lineJson r.line) ::
      contentMembers r.content) := by
  obtain ⟨offset, line, content⟩ := r
  cases line with
  | none => rfl
  | some line => rfl

namespace JsonTree

theorem line?_lineJson (line : Option Line) : (lineJson line).tree.line? = some line := by
  cases line with
  | none => rfl
  | some line =>
    have hlt : line.toNat < 2 ^ 32 := line.toNat_lt
    have hread := natural?_natural line.toNat
    rw [Json.tree] at hread
    simp [lineJson, Json.tree, line?, hread, hlt]

/-- **A row is read as what is left of it.** -/
theorem row?_tree (r : Row) : r.json.tree.row? = some r.said := by
  obtain ⟨offset, line, content⟩ := r
  rw [Row.json_eq, tree_object, row?]
  cases content with
  | fault message =>
    simp [Row.contentMembers, Row.said, optional?, natural?_natural, line?_lineJson, string?_text]
  | instruction i value =>
    cases value with
    | none =>
      simp [Row.contentMembers, Row.said, optional?, natural?_natural, line?_lineJson,
        instruction?_json]
    | some v =>
      simp [Row.contentMembers, Row.said, optional?, natural?_natural, line?_lineJson,
        instruction?_json, value?_number]

end JsonTree

/-! ## 3. What a row says of its item -/

/-- The row is that of the item of the walk through the chunk. -/
structure ReadRow.Of (c : Chunk) (item : WalkItem) (r : ReadRow) : Prop where
  offset_eq : r.offset = item.offset
  line_eq : r.line = (c.lineAt item.offset).toOption
  /-- There is an instruction exactly when one was decoded. -/
  instruction_iff : ∀ i, r.instruction = some i ↔ item.decoded = .ok i
  /-- There is a text in its place exactly when none was. -/
  error_iff : ∀ text, r.error = some text ↔ ∃ e, item.decoded = .error e ∧ e.message = text
  /-- There is a value exactly when the constant is in the pool; a finite one is the constant bit
  for bit. -/
  value_iff : ∀ value, r.value = some value ↔ ∃ i index v, item.decoded = .ok i ∧
    i.constantIndex? = some index ∧ c.constant index = .ok v ∧ v.finite? = value

theorem toOption_eq_some_iff {ε α : Type} {x : Except ε α} {a : α} :
    x.toOption = some a ↔ x = .ok a := by
  cases x with
  | error e => simp [Except.toOption]
  | ok b => simp [Except.toOption]

theorem Chunk.said_row_of (c : Chunk) (item : WalkItem) : ReadRow.Of c item (c.row item).said := by
  obtain ⟨offset, decoded⟩ := item
  have hline : c.lines.line? offset = (c.lineAt offset).toOption := by
    rw [lineAt]
    cases c.lines.line? offset <;> rfl
  cases decoded with
  | error e =>
    refine ⟨rfl, hline, ?_, ?_, ?_⟩
    · simp [row, Row.said]
    · simp [row, Row.said]
    · simp [row, Row.said]
  | ok i =>
    refine ⟨rfl, hline, ?_, ?_, ?_⟩
    · simp [row, Row.said]
    · simp [row, Row.said]
    · intro value
      simp only [row, Row.said, Option.map_eq_some_iff, Option.bind_eq_some_iff,
        toOption_eq_some_iff, Except.ok.injEq]
      constructor
      · rintro ⟨v, ⟨index, hindex, hconstant⟩, hvalue⟩
        exact ⟨i, index, v, rfl, hindex, hconstant, hvalue⟩
      · rintro ⟨j, index, v, rfl, hindex, hconstant, hvalue⟩
        exact ⟨v, ⟨index, hindex, hconstant⟩, hvalue⟩

/-! ## 4. The whole text -/

/-- An array stands between brackets. -/
theorem Json.brackets_indented (xs : List Json) :
    ((Json.array xs).indented 0).head? = some '[' ∧
      ((Json.array xs).indented 0).getLast? = some ']' := by
  cases xs with
  | nil => exact ⟨rfl, rfl⟩
  | cons x xs =>
    rw [indented]
    constructor
    · rfl
    · rw [List.getLast?_append_of_ne_nil _ (List.cons_ne_nil _ _)]
      rfl

/-- **The JSON rendering of every chunk can be read back.** -/
theorem Chunk.render_json_read (c : Chunk) :
    ∃ (body : List Char) (trees : List JsonTree) (rows : List ReadRow),
      (∀ name, c.render name .json = .pure (String.ofList (body ++ ['\n'])) c) ∧
      body.head? = some '[' ∧ body.getLast? = some ']' ∧
      (c.size = 0 → body = ['[', ']']) ∧
      JsonTree.read? body = some (.array trees) ∧
      trees.mapM JsonTree.row? = some rows ∧
      rows = c.rows.map Row.said ∧
      List.Forall₂ (ReadRow.Of c) c.walk rows := by
  obtain ⟨hopen, hclose⟩ := Json.brackets_indented (c.rows.map Row.json)
  refine ⟨(Json.array (c.rows.map Row.json)).indented 0, (c.rows.map Row.json).map Json.tree,
    c.rows.map Row.said, fun _ => rfl, hopen, hclose, ?_, ?_, ?_, rfl, ?_⟩
  · intro hsize
    have hwalk : c.walk = [] := walkFrom_of_le (Nat.le_of_eq hsize)
    rw [rows, hwalk]
    rfl
  · have hblank : ∀ ch ∈ ([] : List Char), isJsonBlank ch = true := nofun
    have hread := JsonTree.read?_indented (Json.array (c.rows.map Row.json)) hblank
    rwa [List.append_nil, Json.tree, Json.itemTrees_eq_map] at hread
  · have hrow : JsonTree.row? ∘ Json.tree ∘ Row.json = fun r => pure r.said :=
      funext JsonTree.row?_tree
    rw [List.map_map, List.mapM_map, hrow, List.mapM_pure]
    rfl
  · rw [rows, List.map_map, List.forall₂_map_right_iff]
    exact List.forall₂_same.mpr fun item _ => c.said_row_of item

/-- An unknown tag, a number, a constant that is no number, one that the pool does not have, and an
operand that is cut off.  Without code there are no rows. -/
theorem Chunk.render_json_read_of_anomalies :
    let pool := (empty.withConstant ⟨0x3ff8000000000000⟩).withConstant ⟨0x7ff8000000000000⟩
    let c := pool.edited [.byte 0xEE 1, .byte 1 1, .byte 0 1, .byte 1 2, .byte 1 2, .byte 1 3,
      .byte 5 3, .byte 2 4]
    (∃ body trees, (c.render "x" .json).answer = String.ofList (body ++ ['\n']) ∧
      JsonTree.read? body = some (.array trees) ∧
      trees.mapM JsonTree.row? = some
        [⟨0, some 1, none, none, some "unknown instruction 238 at offset 0"⟩,
          ⟨1, some 1, some (.constant 0), some (some ⟨0x3ff8000000000000⟩), none⟩,
          ⟨3, some 2, some (.constant 1), some none, none⟩,
          ⟨5, some 3, some (.constant 5), none, none⟩,
          ⟨7, some 4, none, none,
            some "truncated CONSTANT_LONG at offset 7: needs 3 operand bytes, 0 available"⟩]) ∧
      (Chunk.empty.render "none" .json).answer = "[]\n" := by
  intro pool c
  constructor
  · obtain ⟨body, trees, rows, hrender, -, -, -, hread, hrows, hsaid, -⟩ := render_json_read c
    have hwalk : c.walk =
        [⟨0, .error (.unknownOpcode 0 0xEE)⟩, ⟨1, .ok (.constant 0)⟩, ⟨3, .ok (.constant 1)⟩,
          ⟨5, .ok (.constant 5)⟩, ⟨7, .error (.truncated 7 .constantLong 3 0)⟩] := by
      have hcode : c.code.items = #[0xEE, 1, 0, 1, 1, 1, 5, 2] := by decide
      rw [walk, hcode, walkFrom_of_lt (by decide), walkFrom_of_lt (by decide),
        walkFrom_of_lt (by decide), walkFrom_of_lt (by decide), walkFrom_of_lt (by decide),
        walkFrom_of_le (by decide)]
      rfl
    refine ⟨body, trees, by rw [hrender]; rfl, hread, ?_⟩
    rw [hrows, hsaid, Chunk.rows, hwalk]
    decide +kernel
  · obtain ⟨body, -, -, hrender, -, -, hempty, -⟩ := render_json_read Chunk.empty
    rw [hrender, hempty rfl]
    rfl

end BytecodeTrace
