/-
# A listing from a trace

A trace shows each instruction by its mnemonic and each constant by a rounded text.  Written as a
listing, with the source lines in front, that assembles again: not to the same constants, but to
constants with the same texts, and so to a chunk with the same trace.  The rounding was done by the
first trace, and no later one rounds any more.

* `Chunk.listing?`: the listing that is written from the walk;
* `Value.reread`: the value that is read from the text of a value;
* `Statements.listing?_eq`, `Statements.assemble_traced`: the listing of statements assembles to the
  statements with the values that are read;
* `Chunk.trace_assemble_listing`: and their trace is the same.
-/
import BytecodeTrace.Proofs.Chunk.TraceReading
import BytecodeTrace.Proofs.Listing.Written
import BytecodeTrace.Proofs.Value.TraceText

namespace BytecodeTrace

/-! ## 1. The listing of a chunk -/

namespace Chunk

/-- The line for an item of the walk: the source line, a colon, the mnemonic and, of a constant, the
text that the trace prints. -/
def itemLine? (c : Chunk) (item : WalkItem) : Option (List Char) := do
  let i ← item.decoded.toOption
  let line ← (c.lineAt item.offset).toOption
  match i.constantIndex? with
  | none => return Listing.written line [i.opcode.mnemonic.toList]
  | some index =>
    let value ← (c.constant index).toOption
    return Listing.written line [i.opcode.mnemonic.toList, value.text.toList]

/-- The listing of the walk, with a line feed behind each line. -/
def listing? (c : Chunk) : Option String := do
  let lines ← c.walk.mapM c.itemLine?
  return String.ofList (lines.flatMap (· ++ ['\n']))

end Chunk

/-! ## 2. Texts read again -/

namespace Value

variable {v : Value}

/-- The value that is read from the text of a value. -/
def reread (v : Value) : Value := (read? v.chars).getD v

theorem read?_chars (v : Value) : read? v.chars = some v.reread := by
  obtain ⟨w, hread, -⟩ := v.exists_read?_chars
  rw [reread, hread, Option.getD_some]

theorem text_reread (h : v.NotSubnormal) : v.reread.text = v.text := by
  obtain ⟨w, hread, hchars⟩ := v.exists_read?_chars
  rw [reread, hread, Option.getD_some, text, text, hchars h]

theorem isWord_chars (v : Value) : Text.IsWord v.chars := by
  refine ⟨?_, fun _ => not_blank_of_mem_chars⟩
  intro hnil
  have hread := v.read?_chars
  rw [hnil] at hread
  cases hread

end Value

/-- The text of a value is a plain word. -/
theorem Listing.plainWords_chars (value : Option Value) :
    PlainWords (value.map Value.chars).toList := by
  intro w hw
  obtain ⟨v, -, rfl⟩ := Option.map_eq_some_iff.mp (Option.mem_toList.mp hw)
  exact ⟨v.isWord_chars, v.not_mem_chars (by decide) (by decide)⟩

namespace Statements

/-! ## 3. The listing of statements -/

/-- The statement with the value that is read from the text of its own. -/
def reread : Listing.Placed → Listing.Placed
  | ⟨line, .ret⟩ => ⟨line, .ret⟩
  | ⟨line, .constant value⟩ => ⟨line, .constant value.reread⟩

theorem constant?_reread (placed : Listing.Placed) :
    constant? (reread placed) = (constant? placed).map Value.reread := by
  obtain ⟨line, statement⟩ := placed
  cases statement with
  | ret => rfl
  | constant value => rfl

theorem constants_map_reread (p : Statements) :
    constants (p.map reread) = (constants p).map Value.reread := by
  have hcomp : constant? ∘ reread = fun placed => (constant? placed).map Value.reread :=
    funext constant?_reread
  rw [constants, List.filterMap_map, hcomp, ← List.map_filterMap]
  rfl

/-- Values that are not subnormal are read as values with the same texts. -/
theorem alike_reread {placed : Listing.Placed} (h : ∀ v ∈ constant? placed, v.NotSubnormal) :
    Alike (reread placed) placed := by
  obtain ⟨line, statement⟩ := placed
  cases statement with
  | ret => exact ⟨rfl, rfl⟩
  | constant value => exact ⟨rfl, congrArg some (Value.text_reread (h value rfl))⟩

/-- The line of the listing for the statement `j`. -/
def tracedLine (p : Statements) (j : Nat) (placed : Listing.Placed) : List Char :=
  Listing.written placed.line ((instruction (p.take j) placed).opcode.mnemonic.toList ::
    ((constant? placed).map Value.chars).toList)

section Listing

variable {c : Chunk} {p : Statements}

/-- The line for the item of the statement `j`. -/
theorem itemLine?_eq (h : Shows c p) {j : Nat} (hj : j < p.length) :
    c.itemLine? ⟨offset p j, .ok (instruction (p.take j) p[j])⟩ = some (tracedLine p j p[j]) := by
  have hline : c.lineAt (offset p j) = .ok p[j].line :=
    h.lineAt_eq j hj _ (Nat.le_refl _) (offset_lt_succ p hj)
  cases hs : p[j].statement with
  | ret =>
    simp [Chunk.itemLine?, tracedLine, instruction, constant?, hs, hline, Except.toOption,
      Instruction.constantIndex?]
  | constant value =>
    obtain ⟨index, hindex, hconstant⟩ := h.constant_eq j hj value hs
    simp [Chunk.itemLine?, tracedLine, constant?, hs, hline, hindex, hconstant, Except.toOption,
      Value.text]

/-- The listing of a chunk that shows statements. -/
theorem listing?_eq (h : Shows c p) :
    c.listing? = some (String.ofList ((p.mapIdx (tracedLine p)).flatMap (· ++ ['\n']))) := by
  have hlines : c.walk.mapM c.itemLine? = some (p.mapIdx (tracedLine p)) := by
    refine mapM_eq_some_of_map_eq ?_
    rw [h.map_walk]
    refine List.ext_getElem (by simp) ?_
    intro j hj _
    have hjp : j < p.length := by simpa using hj
    rw [List.getElem_mapIdx, List.getElem_map, List.getElem_mapIdx, itemLine?_eq h hjp]
  rw [Chunk.listing?, hlines]
  rfl

/-- A line is read as its statement, with the value that its text stands for. -/
theorem parseLine_tracedLine (n j : Nat) (placed : Listing.Placed) :
    Listing.parseLine n (tracedLine p j placed) = .ok (some (reread placed)) := by
  have hnames : Listing.Names (reread placed).statement
      (instruction (p.take j) placed).opcode (constant? (reread placed)) := by
    obtain ⟨line, statement⟩ := placed
    cases statement with
    | ret => exact names_instruction (p.take j) ⟨line, .ret⟩
    | constant value =>
      -- the operation depends on the index only
      exact names_instruction (p.take j) ⟨line, .constant value.reread⟩
  have hread : ((constant? placed).map Value.chars).map Value.read? =
      (constant? (reread placed)).map some := by
    rw [constant?_reread]
    cases constant? placed with
    | none => rfl
    | some v => exact congrArg some v.read?_chars
  rw [tracedLine, Listing.parseLine_operand n _ hnames hread (Listing.plainWords_chars _)]
  obtain ⟨line, statement⟩ := placed
  cases statement with
  | ret => rfl
  | constant value => rfl

/-- **The listing assembles** to the statements with the values that are read. -/
theorem assemble_traced (hlimit : (constants p).length ≤ ConstantPool.limit) {source : String}
    (hsource : source.toList = (p.mapIdx (tracedLine p)).flatMap (· ++ ['\n'])) :
    (Chunk.assemble source).answer = .ok () ∧
      Represents (Chunk.assemble source).state (p.map reread) := by
  refine assemble_of_forall₂ (List.forall₂_iff_get.mpr ⟨by simp, ?_⟩) ?_ ?_ hsource
  · intro j _ hj n
    simp only [List.get_eq_getElem, List.getElem_mapIdx, List.getElem_map]
    exact parseLine_tracedLine n j _
  · intro l hl
    obtain ⟨j, hj, rfl⟩ := List.mem_mapIdx.mp hl
    exact Listing.written_one_line _ (List.cons_ne_nil _ _)
      (Listing.plainWords_cons_mnemonic _ (Listing.plainWords_chars _))
  · rw [constants_map_reread, List.length_map]
    exact hlimit

end Listing
end Statements

/-! ## 4. The trace of what is assembled -/

/-- **Assembling a trace again is a fixed point.**  The text of every value is accepted as an
operand, and the value that is read from it has the same text, unless the first one was subnormal.
So of a chunk that calls made, with no subnormal constant, the instructions are written as a listing
with the texts that the trace has, and the listing assembles to a chunk with the same trace under
every name. -/
theorem Chunk.trace_assemble_listing :
    (∀ value : Value, ∃ again, Value.read? value.text.toList = some again ∧
      (∀ n line, Listing.parseLine n
        (Listing.written line [Opcode.constant.mnemonic.toList, value.text.toList]) =
          .ok (some ⟨line, .constant again⟩)) ∧
      (value.NotSubnormal → again.text = value.text)) ∧
    ∀ calls : List Call,
      (∀ value ∈ (Chunk.empty.performAll calls).state.constants.toList, value.NotSubnormal) →
      ∃ listing, (Chunk.empty.performAll calls).state.listing? = some listing ∧
        (Chunk.assemble listing).answer = .ok () ∧
        ∀ name, (Chunk.assemble listing).state.trace name =
          (Chunk.empty.performAll calls).state.trace name := by
  constructor
  · intro value
    have htext : value.text.toList = value.chars := String.toList_ofList
    refine ⟨value.reread, ?_, ?_, Value.text_reread⟩
    · rw [htext, value.read?_chars]
    · intro n line
      rw [htext]
      exact Statements.parseLine_tracedLine (p := []) n 0 ⟨line, .constant value⟩
  · intro calls hnormal
    obtain ⟨-, hrepresents⟩ := Statements.represents_empty.performAll calls
    obtain ⟨p, hp⟩ : ∃ p, p = (Statements.performAll [] calls).2 := ⟨_, rfl⟩
    rw [← hp] at hrepresents
    have hshows := Statements.shows_of_represents hrepresents
    rw [hshows.constants_eq] at hnormal
    obtain ⟨hanswer, hagain⟩ :=
      Statements.assemble_traced hshows.constants_le String.toList_ofList
    refine ⟨_, Statements.listing?_eq hshows, hanswer, ?_⟩
    intro name
    refine Statements.trace_eq_of_alike hagain.coupled hrepresents.coupled ?_ name
    rw [hagain.content_eq, hrepresents.content_eq]
    refine Statements.alike_content (List.forall₂_map_left_iff.mpr ?_)
    refine List.forall₂_same.mpr fun placed hmem => Statements.alike_reread ?_
    intro v hv
    exact hnormal v (List.mem_filterMap.mpr ⟨placed, hmem, hv⟩)

/-- Three tenths that were added up, whose text is that of `0.3`, and a negative infinity. -/
theorem Chunk.trace_assemble_listing_of_tenths :
    (∃ again, Value.read? (Value.text ⟨0x3fd3333333333334⟩).toList = some again ∧
      again.text = Value.text ⟨0x3fd3333333333334⟩) ∧
    ∃ listing, (Chunk.empty.performAll [.constant ⟨0x3fd3333333333334⟩ 7, .instruction .ret 7,
        .constant ⟨0xfff0000000000000⟩ 9]).state.listing? = some listing ∧
      (Chunk.assemble listing).answer = .ok () ∧
      ∀ name, (Chunk.assemble listing).state.trace name =
        (Chunk.empty.performAll [.constant ⟨0x3fd3333333333334⟩ 7, .instruction .ret 7,
          .constant ⟨0xfff0000000000000⟩ 9]).state.trace name := by
  obtain ⟨htexts, hlistings⟩ := Chunk.trace_assemble_listing
  constructor
  · obtain ⟨again, hread, -, htext⟩ := htexts ⟨0x3fd3333333333334⟩
    exact ⟨again, hread, htext (by decide)⟩
  · exact hlistings _ (by decide)

end BytecodeTrace
