/-
# A listing from rows

The rows of a chunk, as JSON, hold enough to write a listing that assembles to the same chunk.  The
listing is made from the JSON text alone: it is read (`JsonTree.read?`), and each row becomes a line
with the line number, the operation and the number text that stand in it.

* `JsonTree.listing?`: the listing of a JSON text that has been read;
* `Statements.rows_eq`: the rows of a chunk that shows statements;
* `Statements.listingOfJson?_rowsText`: the listing that is made from them;
* `Chunk.assemble_listing_of_rows`: it assembles, and to the same code, lines and constants.
-/
import BytecodeTrace.Proofs.Json.Reader
import BytecodeTrace.Proofs.Listing.Written
import BytecodeTrace.Program.Task

namespace BytecodeTrace

/-! ## 1. From a JSON text to a listing -/

namespace JsonTree

/-- The line of a listing for a row: the line, a colon, the operation, and the number text of the
value when the row has one. -/
def listingLine? (row : JsonTree) : Option (List Char) := do
  let line ← (← row.member? "line").number?
  let op ← (← (← row.member? "instruction").member? "op").text?
  match row.member? "value" with
  | none => return line ++ ": ".toList ++ op
  | some value => return line ++ ": ".toList ++ op ++ ' ' :: (← value.number?)

/-- The listing for an array of rows, with a line feed behind each line. -/
def listing? : JsonTree → Option String
  | .array rows => do
    let lines ← rows.mapM listingLine?
    return String.ofList (lines.flatMap (· ++ ['\n']))
  | _ => none

end JsonTree

/-- The listing for a JSON text. -/
def listingOfJson? (text : String) : Option String :=
  (JsonTree.read? text.toList).bind JsonTree.listing?

/-! ## 2. The rows of statements -/

namespace Statements

/-- The row of the statement `j`. -/
def row (p : Statements) (j : Nat) (placed : Listing.Placed) : Row :=
  { offset := offset p j
    line := some placed.line
    content := .instruction (instruction (p.take j) placed) (constant? placed) }

section Rows

variable {c : Chunk} {p : Statements}

/-- The row of a statement, in a chunk that shows it. -/
theorem row_eq (h : Shows c p) {j : Nat} (hj : j < p.length) :
    c.row ⟨offset p j, .ok (instruction (p.take j) p[j])⟩ = row p j p[j] := by
  have hline : c.lines.line? (offset p j) = some p[j].line := by
    have hat := h.lineAt_eq j hj _ (Nat.le_refl _) (offset_lt_succ p hj)
    unfold Chunk.lineAt at hat
    split at hat
    · rename_i heq
      rw [heq, Except.ok.inj hat]
    · cases hat
  have hvalue : ((instruction (p.take j) p[j]).constantIndex?.bind
      fun index => (c.constant index).toOption) = constant? p[j] := by
    cases hs : p[j].statement with
    | ret => simp [instruction, constant?, hs, Instruction.constantIndex?]
    | constant value =>
      obtain ⟨index, hindex, hconstant⟩ := h.constant_eq j hj value hs
      rw [hindex, Option.bind_some, hconstant]
      simp [constant?, hs, Except.toOption]
  simp only [Chunk.row, row, hline, hvalue]

/-- **The rows of a chunk that shows statements** are one for each of them. -/
theorem rows_eq (h : Shows c p) : c.rows = p.mapIdx (row p) := by
  rw [Chunk.rows, h.map_walk]
  refine List.ext_getElem (by simp) ?_
  intro j hj _
  have hjp : j < p.length := by simpa using hj
  rw [List.getElem_mapIdx, List.getElem_mapIdx, row_eq h hjp]

end Rows
end Statements

/-! ## 3. Their lines -/

/-- The line that is made from the row of an instruction. -/
theorem JsonTree.listingLine?_row (offset : Nat) (line : Line) (i : Instruction)
    {value : Option Value} (hfinite : ∀ v ∈ value, v.isFinite = true) :
    (Row.json ⟨offset, some line, .instruction i value⟩).tree.listingLine? =
      some (Listing.written line (Listing.operationWords i.opcode value)) := by
  cases value with
  | none =>
    simp [listingLine?, Row.json, Row.contentMembers, Json.tree, number?, text?, Instruction.json,
      Opcode.json, Listing.written, Listing.operationWords]
  | some v =>
    have hv : v.isFinite = true := hfinite v rfl
    simp [listingLine?, Row.json, Row.contentMembers, Json.tree, number?, text?, Instruction.json,
      Opcode.json, Listing.written, Listing.operationWords, hv]

namespace Statements

variable {c : Chunk} {p : Statements}

/-- The line that the statement `j` is written as. -/
def line (p : Statements) (j : Nat) (placed : Listing.Placed) : List Char :=
  Listing.written placed.line
    (Listing.operationWords (instruction (p.take j) placed).opcode (constant? placed))

theorem isFinite_of_getElem (h : ∀ v ∈ constants p, v.isFinite = true) {j : Nat}
    (hj : j < p.length) : ∀ v ∈ constant? p[j], v.isFinite = true := by
  intro v hv
  exact h v (List.mem_filterMap.mpr ⟨p[j], List.getElem_mem hj, hv⟩)

/-- The listing that is made from the rows, as JSON, of a chunk that shows statements. -/
theorem listingOfJson?_rowsText (h : Shows c p) (hfinite : ∀ v ∈ constants p, v.isFinite = true) :
    listingOfJson? c.rowsText =
      some (String.ofList ((p.mapIdx (line p)).flatMap (· ++ ['\n']))) := by
  have hread : JsonTree.read? c.rowsText.toList =
      some (.array ((c.rows.map Row.json).map Json.tree)) := by
    have hblank : ∀ ch ∈ ['\n'], isJsonBlank ch = true := List.forall_mem_singleton.mpr rfl
    rw [Chunk.rowsText, String.toList_ofList, JsonTree.read?_indented _ hblank, Json.tree,
      Json.itemTrees_eq_map]
  have hlines : ((c.rows.map Row.json).map Json.tree).mapM JsonTree.listingLine? =
      some (p.mapIdx (line p)) := by
    refine mapM_eq_some_of_map_eq ?_
    rw [rows_eq h]
    refine List.ext_getElem (by simp) ?_
    intro j hj _
    have hjp : j < p.length := by simpa using hj
    simp only [List.getElem_map, List.getElem_mapIdx]
    exact JsonTree.listingLine?_row _ _ _ (isFinite_of_getElem hfinite hjp)
  rw [listingOfJson?, hread, Option.bind_some, JsonTree.listing?, hlines]
  rfl

/-- The listing assembles to a chunk that represents the same statements. -/
theorem assemble_listing (hlimit : (constants p).length ≤ ConstantPool.limit)
    (hfinite : ∀ v ∈ constants p, v.isFinite = true) {source : String}
    (hsource : source.toList = (p.mapIdx (line p)).flatMap (· ++ ['\n'])) :
    (Chunk.assemble source).answer = .ok () ∧ Represents (Chunk.assemble source).state p := by
  refine assemble_of_forall₂ (List.forall₂_iff_get.mpr ⟨List.length_mapIdx, ?_⟩) ?_ hlimit hsource
  · intro j _ hj n
    simp only [List.get_eq_getElem, List.getElem_mapIdx]
    exact Listing.parseLine_operation n _ (names_instruction _ _) (isFinite_of_getElem hfinite hj)
  · intro l hl
    obtain ⟨j, hj, rfl⟩ := List.mem_mapIdx.mp hl
    exact Listing.written_one_line _ (List.cons_ne_nil _ _)
      (Listing.plainWords_cons_mnemonic _
        (Listing.plainWords_jsonChars (isFinite_of_getElem hfinite hj)))

end Statements

/-- **The rows as JSON are a listing.**  Of a chunk that calls made, with finite constants only,
the rows are turned into a listing with the numbers that are written in them, and the listing
assembles to a chunk with the same code, the same line for every byte and the same constants, bit
for bit. -/
theorem Chunk.assemble_listing_of_rows (calls : List Call) (name : String)
    (hfinite : ∀ v ∈ (Chunk.empty.performAll calls).state.constants.toList, v.isFinite = true) :
    ∃ listing,
      listingOfJson? ((Chunk.empty.performAll calls).state.render name .json).answer =
        some listing ∧
      (Chunk.assemble listing).answer = .ok () ∧
      (Chunk.assemble listing).state.content = (Chunk.empty.performAll calls).state.content := by
  obtain ⟨-, hrepresents⟩ := Statements.represents_empty.performAll calls
  have hshows := Statements.shows_of_represents hrepresents
  rw [hshows.constants_eq] at hfinite
  obtain ⟨hanswer, hsame⟩ :=
    Statements.assemble_listing hshows.constants_le hfinite String.toList_ofList
  refine ⟨_, Statements.listingOfJson?_rowsText hshows hfinite, hanswer, ?_⟩
  rw [hsame.content_eq, hrepresents.content_eq]

/-- A negative zero, the least subnormal number and a return between them. -/
theorem Chunk.assemble_listing_of_signed_zero :
    ∃ listing,
      listingOfJson? ((Chunk.empty.performAll
        [.constant ⟨0x8000000000000000⟩ 7, .instruction .ret 7, .constant ⟨1⟩ 9]).state.render
          "zeros" .json).answer = some listing ∧
      (Chunk.assemble listing).answer = .ok () ∧
      (Chunk.assemble listing).state.content = (Chunk.empty.performAll
        [.constant ⟨0x8000000000000000⟩ 7, .instruction .ret 7, .constant ⟨1⟩ 9]).state.content :=
  Chunk.assemble_listing_of_rows _ "zeros" (by decide)

end BytecodeTrace
