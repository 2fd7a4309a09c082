/-
# The ledger of a chunk

A ledger is the list of what was written to a chunk since its last release: statements, whether they
came one by one or in a listing, and single bytes.  It is kept without any chunk (`Ledger.record`),
and from it follows, byte by byte, what the code and the line table have to hold (`Ledger.written`).

Single bytes may stand anywhere between the statements, so that the code need not be a list of
instructions any more.  What every chunk still keeps, whatever happened to it, is `Mirrors`: its
code, its lines, the runs of its line table and its pool are those of its ledger.

* `Holds.edit`: one edit has the same effect on the chunk and on the ledger;
* `mirrors_of_holds`: what the accessors of the chunk answer then;
* `edited_mirrors`: both for every history.
-/
import BytecodeTrace.Proofs.Chunk.Statements

namespace BytecodeTrace

/-! ## 1. Entries -/

/-- One thing that was written: a statement, or a single byte that comes from a line. -/
inductive Entry where
  | statement (placed : Listing.Placed)
  | byte (byte : UInt8) (line : Line)
deriving DecidableEq, Repr

namespace Entry

/-- The line that all bytes of the entry come from. -/
def line : Entry → Line
  | statement placed => placed.line
  | byte _ line => line

/-- The statement of the entry. -/
def statement? : Entry → Option Listing.Placed
  | statement placed => some placed
  | byte _ _ => none

/-- The constant that the entry stored. -/
def constant? (e : Entry) : Option Value := e.statement?.bind Statements.constant?

/-- The bytes of the entry, if `stored` constants were in the pool before it. -/
def bytes (stored : Nat) : Entry → List UInt8
  | .statement ⟨_, .ret⟩ => Instruction.ret.encode
  | .statement ⟨_, .constant _⟩ => (Instruction.load stored).encode
  | .byte code _ => [code]

/-- The bytes of the entry, each with its line. -/
def writes (stored : Nat) (e : Entry) : List (UInt8 × Line) :=
  (e.bytes stored).map fun code => (code, e.line)

@[simp] theorem map_fst_writes (stored : Nat) (e : Entry) :
    (e.writes stored).map Prod.fst = e.bytes stored := by
  simp [writes, Function.comp_def]

@[simp] theorem map_snd_writes (stored : Nat) (e : Entry) :
    (e.writes stored).map Prod.snd = List.replicate (e.bytes stored).length e.line := by
  rw [writes, List.map_map, ← List.map_const']
  rfl

end Entry

/-! ## 2. Ledgers -/

/-- What was written since the last release, the first entry first. -/
abbrev Ledger := List Entry

namespace Ledger

/-- The statements among the entries. -/
def statements (l : Ledger) : Statements := l.filterMap Entry.statement?

/-- The constants that were stored, one for each statement that appended a constant. -/
def constants (l : Ledger) : List Value := Statements.constants l.statements

/-- Every byte that was written, with its line, if `stored` constants were there before. -/
def writtenFrom (stored : Nat) : Ledger → List (UInt8 × Line)
  | [] => []
  | e :: l => e.writes stored ++ writtenFrom (stored + e.constant?.toList.length) l

/-- Every byte that was written, with its line. -/
def written (l : Ledger) : List (UInt8 × Line) := writtenFrom 0 l

/-- Where the bytes of the entry `j` start. -/
def start (l : Ledger) (j : Nat) : Nat := (written (l.take j)).length

/-- What a call answers, and the ledger behind it.  The answer depends on the statements alone, and
those that the call appends come behind all entries; a release begins a new ledger. -/
def perform (l : Ledger) : Call → Reply × Ledger
  | .release => (.release, [])
  | call =>
    match Statements.perform l.statements call with
    | (reply, p) => (reply, l ++ (p.drop l.statements.length).map .statement)

/-- The ledger behind an edit. -/
def record (l : Ledger) : Edit → Ledger
  | .call call => (l.perform call).2
  | .byte byte line => l ++ [.byte byte line]
  | .clone => l

/-- The ledger of a history. -/
def ofEdits (edits : List Edit) : Ledger := edits.foldl record []

/-- The content of a chunk to which all this was written. -/
def content (l : Ledger) : Content :=
  ⟨l.written.map Prod.fst, l.written.map Prod.snd, l.constants⟩

variable (l m : Ledger)

@[simp] theorem statements_append : statements (l ++ m) = statements l ++ statements m :=
  List.filterMap_append

@[simp] theorem statements_map (p : Statements) : statements (p.map .statement) = p := by
  induction p with
  | nil => rfl
  | cons placed p ih => exact congrArg (placed :: ·) ih

@[simp] theorem constants_append : constants (l ++ m) = constants l ++ constants m := by
  rw [constants, statements_append]
  exact List.filterMap_append

theorem constants_nil : constants [] = [] := rfl

theorem constants_cons (e : Entry) : constants (e :: l) = e.constant?.toList ++ constants l := by
  cases e with
  | byte byte line => rfl
  | statement placed =>
    obtain ⟨line, statement⟩ := placed
    cases statement <;> rfl

/-- Later entries are written behind the others. -/
theorem writtenFrom_append (stored : Nat) :
    writtenFrom stored (l ++ m) =
      writtenFrom stored l ++ writtenFrom (stored + (constants l).length) m := by
  induction l generalizing stored with
  | nil => rfl
  | cons e l ih =>
    rw [List.cons_append, writtenFrom, writtenFrom, ih, constants_cons, List.length_append,
      Nat.add_assoc, List.append_assoc]

theorem written_append_singleton (e : Entry) :
    written (l ++ [e]) = written l ++ e.writes (constants l).length := by
  rw [written, writtenFrom_append, Nat.zero_add, writtenFrom, writtenFrom, List.append_nil]
  rfl

/-- An entry comes behind the content: its bytes, its line for each, and its constant. -/
theorem content_append_singleton (e : Entry) :
    content (l ++ [e]) =
      ⟨(content l).code ++ e.bytes (constants l).length,
        (content l).lines ++ List.replicate (e.bytes (constants l).length).length e.line,
        (content l).constants ++ e.constant?.toList⟩ := by
  simp [content, written_append_singleton, constants_cons, constants_nil]

/-- A byte comes behind the content. -/
theorem content_append_byte (byte : UInt8) (line : Line) :
    content (l ++ [.byte byte line]) = (content l).write [byte] line := by
  rw [content_append_singleton]
  exact congrArg _ (List.append_nil _)

/-- A statement comes behind the content. -/
theorem content_append_statement (placed : Listing.Placed) :
    content (l ++ [.statement placed]) = (content l).add placed := by
  rw [content_append_singleton]
  obtain ⟨line, statement⟩ := placed
  cases statement with
  | ret => exact congrArg _ (List.append_nil _)
  | constant value => rfl

/-- Statements come behind the content one after the other. -/
theorem content_append_statements (new : Statements) :
    content (l ++ new.map .statement) = new.foldl Content.add (content l) := by
  induction new generalizing l with
  | nil => rw [List.map_nil, List.append_nil, List.foldl_nil]
  | cons placed new ih =>
    rw [List.map_cons, List.append_cons, ih, content_append_statement, List.foldl_cons]

/-! ## 3. Chunks that hold a ledger -/

/-- The chunk holds what its ledger says, and its parts fit together. -/
structure Holds (c : Chunk) (l : Ledger) : Prop where
  coupled : c.Coupled
  content_eq : c.content = content l

section Holds

variable {c : Chunk} {l : Ledger}

theorem holds_empty : Holds Chunk.empty [] := ⟨Chunk.coupled_empty, rfl⟩

theorem Holds.constants_eq (h : Holds c l) :
    c.content.constants = Statements.constants l.statements := by
  rw [h.content_eq]
  rfl

/-- **A call answers as the ledger does, and has the same effect on both.** -/
theorem Holds.perform (h : Holds c l) (call : Call) :
    (c.perform call).answer = (perform l call).1 ∧
      Holds (c.perform call).state (perform l call).2 := by
  by_cases hrelease : call = .release
  · subst hrelease
    exact ⟨rfl, holds_empty⟩
  · have hcoupled := Chunk.invariant_coupled.perform h.coupled call
    obtain ⟨hanswer, hadvances⟩ := Statements.advances_perform h.constants_eq call
    obtain ⟨new, hnew, hcontent⟩ := hadvances hrelease
    have hperform : Ledger.perform l call =
        ((Statements.perform l.statements call).1, l ++ new.map .statement) := by
      have hdrop : (Statements.perform l.statements call).2.drop l.statements.length = new := by
        rw [hnew, List.drop_left]
      rw [← hdrop]
      cases call with
      | release => exact absurd rfl hrelease
      | instruction op line => rfl
      | constant value line => rfl
      | assemble source => rfl
    rw [hperform]
    refine ⟨hanswer, hcoupled, ?_⟩
    rw [hcontent, content_append_statements, h.content_eq]

/-- **An edit has the same effect on the chunk and on the ledger.** -/
theorem Holds.edit (h : Holds c l) (edit : Edit) : Holds (c.edit edit) (record l edit) := by
  cases edit with
  | call call => exact (h.perform call).2
  | byte byte line =>
    refine ⟨Chunk.coupled_writeByte h.coupled byte line, ?_⟩
    rw [Chunk.edit, Chunk.content_writeByte, h.content_eq, record, content_append_byte]
  | clone => exact h

/-- The same over a history. -/
theorem Holds.edited (h : Holds c l) (edits : List Edit) :
    Holds (c.edited edits) (edits.foldl record l) := by
  induction edits generalizing c l with
  | nil => exact h
  | cons edit edits ih => exact ih (h.edit edit)

end Holds

/-! ## 4. What such a chunk answers -/

/-- The chunk is the ledger written out: each of its accessors answers from the list of the bytes
with their lines, and from the list of the constants. -/
structure Mirrors (c : Chunk) (l : Ledger) : Prop where
  code_eq : c.code.items.toList = l.written.map Prod.fst
  size_eq : c.size = l.written.length
  lines_size_eq : c.lines.size = l.written.length
  /-- A byte is read inside the code, and every other offset is refused. -/
  byteAt_eq : ∀ o, c.byteAt o =
    match l.written[o]? with
    | some (byte, _) => .ok byte
    | none => .error ⟨o, l.written.length⟩
  /-- So is a line. -/
  lineAt_eq : ∀ o, c.lineAt o =
    match l.written[o]? with
    | some (_, line) => .ok line
    | none => .error ⟨o, l.written.length⟩
  /-- The runs follow each other from offset zero on, none empty, neighbours of other lines. -/
  runs_adjoin : Adjoin 0 c.lines.runs.items.toList
  /-- They cover the code and nothing else. -/
  runs_cover : ∀ o, (∃ run ∈ c.lines.runs.items.toList, run.start ≤ o ∧ o < run.stop) ↔ o < c.size
  /-- No run reaches over a change of the line. -/
  run_line : ∀ run ∈ c.lines.runs.items.toList, ∀ o, run.start ≤ o → o < run.stop →
    (l.written[o]?).map Prod.snd = some run.line
  /-- All bytes of an instruction have the line that it was appended with. -/
  entry_line : ∀ j (h : j < l.length) o, l.start j ≤ o → o < l.start (j + 1) →
    c.lineAt o = .ok l[j].line
  /-- One constant for each append of a constant that succeeded. -/
  constants_eq : c.constants.toList = l.constants
  constants_size_eq : c.constants.size = l.constants.length
  constants_le : c.constants.size ≤ 2 ^ 24
  constant_ok_iff : ∀ i, (∃ value, c.constant i = .ok value) ↔ i < l.constants.length

section Mirrors

variable {c : Chunk} {l : Ledger}

/-- The bytes of an entry stand where it starts. -/
theorem getElem?_written {j o : Nat} (hj : j < l.length) (hle : start l j ≤ o)
    (hlt : o < start l (j + 1)) : ∃ byte, (written l)[o]? = some (byte, l[j].line) := by
  have htake : l.take (j + 1) = l.take j ++ [l[j]] := List.take_succ_eq_append_getElem hj
  have hsplit : l = l.take (j + 1) ++ l.drop (j + 1) := (List.take_append_drop ..).symm
  have hwritten : written l = written (l.take (j + 1)) ++
      writtenFrom (constants (l.take (j + 1))).length (l.drop (j + 1)) := by
    conv_lhs => rw [hsplit]
    rw [written, writtenFrom_append, Nat.zero_add]
    rfl
  have hentry : written (l.take (j + 1)) =
      written (l.take j) ++ l[j].writes (constants (l.take j)).length := by
    rw [htake, written_append_singleton]
  have hinside : o - start l j < (l[j].bytes (constants (l.take j)).length).length := by
    rw [start, hentry, List.length_append, Entry.writes, List.length_map] at hlt
    rw [start] at hle ⊢
    omega
  refine ⟨(l[j].bytes (constants (l.take j)).length)[o - start l j], ?_⟩
  rw [hwritten, List.getElem?_append_left hlt, hentry, List.getElem?_append_right hle,
    Entry.writes, List.getElem?_map, ← start, List.getElem?_eq_getElem hinside]
  rfl

/-- **A chunk that holds a ledger mirrors it.** -/
theorem mirrors_of_holds (h : Holds c l) : Mirrors c l := by
  have hcode : c.content.code = l.written.map Prod.fst := by rw [h.content_eq]; rfl
  have hlines : c.content.lines = l.written.map Prod.snd := by rw [h.content_eq]; rfl
  have hconstants : c.content.constants = l.constants := by rw [h.content_eq]; rfl
  have hsize : c.size = l.written.length := by
    rw [Chunk.size_eq_length, hcode, List.length_map]
  have hline : ∀ o, c.lineAt o =
      match l.written[o]? with
      | some (_, line) => .ok line
      | none => .error ⟨o, l.written.length⟩ := by
    intro o
    rw [Chunk.lineAt, Chunk.line?_eq_content h.coupled, hlines, List.getElem?_map,
      h.coupled.size_eq, hsize]
    cases l.written[o]? <;> rfl
  have hexpand : expandRuns c.lines.runs.items.toList = l.written.map Prod.snd := hlines
  have hadjoin := h.coupled.sound.adjoin
  refine ⟨hcode, hsize, ?_, ?_, hline, hadjoin, ?_, ?_, ?_, hconstants, ?_, h.coupled.constants_le,
    ?_⟩
  · rw [h.coupled.size_eq, hsize]
  · intro o
    have hget : c.code.items[o]? = (l.written[o]?).map Prod.fst := by
      rw [← Array.getElem?_toList, ← List.getElem?_map]
      exact congrArg (·[o]?) hcode
    have hbytes : c.code.items.size = l.written.length := hsize
    rw [Chunk.byteAt, Buffer.get, hget, hbytes]
    cases l.written[o]? <;> rfl
  · intro o
    rw [exists_run_iff hadjoin, hexpand, List.length_map, hsize, Nat.zero_add]
    exact and_iff_right (Nat.zero_le o)
  · intro run hrun o hle hlt
    obtain ⟨i, hi, rfl⟩ := List.getElem_of_mem hrun
    obtain ⟨-, hget⟩ := getElem?_expandRuns hadjoin hi hle hlt
    rwa [hexpand, List.getElem?_map, Nat.sub_zero] at hget
  · intro j hj o hle hlt
    obtain ⟨byte, hget⟩ := getElem?_written hj hle hlt
    rw [hline, hget]
  · rw [Chunk.constants_size_eq_length, hconstants]
  · intro i
    rw [Chunk.constant_eq, hconstants]
    rcases Nat.lt_or_ge i l.constants.length with hlt | hge
    · rw [List.getElem?_eq_getElem hlt]
      exact iff_of_true ⟨_, rfl⟩ hlt
    · rw [List.getElem?_eq_none hge]
      constructor
      · rintro ⟨value, hvalue⟩
        cases hvalue
      · intro hlt
        exact absurd hlt (Nat.not_lt.mpr hge)

end Mirrors
end Ledger

/-- **Every chunk mirrors its ledger.**  Whatever calls, single bytes and copies make up its
history, successful or refused, a chunk holds exactly the bytes, the lines and the constants that
its ledger lists, and answers every further call as the ledger does. -/
theorem Chunk.edited_mirrors (edits : List Edit) :
    Ledger.Mirrors (Chunk.empty.edited edits) (Ledger.ofEdits edits) ∧
      ∀ call, ((Chunk.empty.edited edits).perform call).answer =
        ((Ledger.ofEdits edits).perform call).1 := by
  have h := Ledger.holds_empty.edited edits
  refine ⟨Ledger.mirrors_of_holds h, ?_⟩
  intro call
  exact (h.perform call).1

end BytecodeTrace
