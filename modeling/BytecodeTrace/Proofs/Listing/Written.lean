/-
# Lines of a listing that were written

A statement can be written as a line of a listing in one layout: the source line, a colon and the
words, each with one blank in front.  Such a line is read back as the statement, wherever it stands.

* `written`: the line;
* `parseLine_written`: what is read from it depends on its words only;
* `parseLine_operand`: the words of a statement are read as the statement;
* `Statements.assemble_of_forall₂`: so lines that are written for statements assemble to them.
-/
import BytecodeTrace.Proofs.Chunk.Statements
import BytecodeTrace.Proofs.Text.Pieces
import BytecodeTrace.Proofs.Value.ReadBack

namespace BytecodeTrace

/-! ## 1. Words of a listing -/

theorem Value.jsonChars_ne_nil {v : Value} (h : v.isFinite = true) : v.jsonChars ≠ [] := by
  intro hnil
  have hread := Value.read?_jsonChars h
  rw [hnil] at hread
  cases hread

namespace Listing

/-- A line: the source line, a colon, and the words with a blank in front of each. -/
def written (line : Line) (words : List (List Char)) : List Char :=
  digitsOf line.toNat ++ ':' :: words.flatMap (' ' :: ·)

/-- The words of an operation, and of the value that it loads. -/
def operationWords (op : Opcode) (value : Option Value) : List (List Char) :=
  op.mnemonic.toList :: (value.map Value.jsonChars).toList

/-- Words that neither end a line nor start a comment. -/
def PlainWords (words : List (List Char)) : Prop :=
  ∀ w ∈ words, Text.IsWord w ∧ ';' ∉ w

/-- The words of an operation and its operand are plain when those of the operand are. -/
theorem plainWords_cons_mnemonic (op : Opcode) {operands : List (List Char)}
    (h : PlainWords operands) : PlainWords (op.mnemonic.toList :: operands) := by
  intro w hw
  rcases List.mem_cons.mp hw with rfl | hw
  · cases op with
    | ret => exact ⟨.of_any (by decide) (by decide), by decide⟩
    | constant => exact ⟨.of_any (by decide) (by decide), by decide⟩
    | constantLong => exact ⟨.of_any (by decide) (by decide), by decide⟩
  · exact h w hw

theorem plainWords_jsonChars {value : Option Value} (h : ∀ v ∈ value, v.isFinite = true) :
    PlainWords (value.map Value.jsonChars).toList := by
  intro w hw
  obtain ⟨v, hv, rfl⟩ := Option.map_eq_some_iff.mp (Option.mem_toList.mp hw)
  have hchars := Value.numberChars_jsonChars (h v hv)
  exact ⟨hchars.isWord (Value.jsonChars_ne_nil (h v hv)), hchars.not_mem (by decide)⟩

section Line

variable {line : Line} {words : List (List Char)}

theorem written_eq_append :
    written line words = (digitsOf line.toNat ++ [':']) ++ words.flatMap (' ' :: ·) := by
  simp [written]

/-- What is neither in a number nor in a word, nor the colon or a blank, is not in the line. -/
theorem not_mem_written {c : Char} (hnumber : isNumberChar c = false) (hcolon : c ≠ ':')
    (hblank : c ≠ ' ') (h : ∀ w ∈ words, c ∉ w) : c ∉ written line words := by
  intro hmem
  rcases List.mem_append.mp hmem with hmem | hmem
  · exact (numberChars_digitsOf _).not_mem hnumber hmem
  · rcases List.mem_cons.mp hmem with heq | hmem
    · exact hcolon heq
    · obtain ⟨w, hw, hmem⟩ := List.mem_flatMap.mp hmem
      rcases List.mem_cons.mp hmem with heq | hmem
      · exact hblank heq
      · exact h w hw hmem

/-- The line ends with the last word. -/
theorem not_blank_of_mem_getLast?_written (hne : words ≠ []) (h : PlainWords words) :
    ∀ c ∈ (written line words).getLast?, Text.isBlank c = false := by
  have hwords : ∀ w ∈ words, Text.IsWord w := by
    intro w hw
    exact (h w hw).1
  rw [written_eq_append]
  exact Text.not_blank_of_mem_getLast?_flatMap hne hwords _

end Line

/-! ## 2. Reading a line back -/

theorem readLine?_digitsOf (line : Line) : readLine? (digitsOf line.toNat) = some line := by
  have hdigits : ∀ c ∈ digitsOf line.toNat, c.isDigit = true := fun _ => isDigit_of_mem_digitsOf
  have hplus : ∀ rest, digitsOf line.toNat ≠ '+' :: rest := by
    intro rest heq
    have hc := hdigits '+' (heq ▸ List.mem_cons_self ..)
    cases hc
  have hall : (digitsOf line.toNat).all Char.isDigit = true := List.all_eq_true.mpr hdigits
  have hempty : (digitsOf line.toNat).isEmpty = false :=
    List.isEmpty_eq_false_iff.mpr (digitsOf_ne_nil _)
  have hlt : line.toNat < 2 ^ 32 := line.toNat_lt
  rw [readLine?]
  · simp only [hempty, hall, ofDigits_digitsOf, hlt, UInt32.ofNat_toNat]
    rfl
  · exact hplus

/-- A written line is its source line and its words, wherever it stands in a listing. -/
theorem parseLine_written (n : Nat) (line : Line) {words : List (List Char)} (hne : words ≠ [])
    (h : PlainWords words) :
    parseLine n (written line words) =
      (wordsStatement words).map fun statement => some ⟨line, statement⟩ := by
  have hwords : ∀ w ∈ words, Text.IsWord w := by
    intro w hw
    exact (h w hw).1
  have hdigits : ∀ c ∈ digitsOf line.toNat, Text.isBlank c = false := by
    intro c hc
    exact not_blank_of_isNumberChar (numberChars_digitsOf _ c hc)
  have hcomment : ';' ∉ written line words := by
    refine not_mem_written (by decide) (by decide) (by decide) ?_
    intro w hw
    exact (h w hw).2
  have htrim : Text.trim (written line words) = written line words := by
    refine Text.trim_eq_self ?_ (not_blank_of_mem_getLast?_written hne h)
    intro c hc
    rw [written, List.head?_append_of_ne_nil _ (digitsOf_ne_nil _)] at hc
    exact hdigits c (List.mem_of_mem_head? hc)
  have hempty : (written line words).isEmpty = false := by
    rw [List.isEmpty_eq_false_iff, written]
    simp
  have hprefix : splitPrefix (written line words) n = .ok (line, words.flatMap (' ' :: ·)) := by
    have htrimmed : Text.trim (digitsOf line.toNat) = digitsOf line.toNat :=
      Text.trim_eq_self_of_forall hdigits
    have hcolon : ':' ∉ digitsOf line.toNat := (numberChars_digitsOf _).not_mem (by decide)
    rw [splitPrefix, written, Text.cut_append hcolon]
    simp only [htrimmed, readLine?_digitsOf]
  rw [parseLine, Text.cut_of_not_mem hcomment, htrim, hempty, if_neg Bool.false_ne_true, hprefix]
  simp only [bind, Except.bind, Text.words_flatMap hwords]
  cases wordsStatement words <;> rfl

/-- The operation, with a value or without one, that a statement is written with. -/
inductive Names : Statement → Opcode → Option Value → Prop where
  | ret : Names .ret .ret none
  | constant (value : Value) : Names (.constant value) .constant (some value)
  | constantLong (value : Value) : Names (.constant value) .constantLong (some value)

/-- The words of a statement: the operation, and a text that is read as the value. -/
theorem wordsStatement_of_names {statement : Statement} {op : Opcode} {value : Option Value}
    (h : Names statement op value) {operand : Option (List Char)}
    (hread : operand.map Value.read? = value.map some) :
    wordsStatement (op.mnemonic.toList :: operand.toList) = .ok statement := by
  have hname : ∀ op : Opcode, Opcode.ofMnemonic? op.mnemonic = some op :=
    fun op => by cases op <;> decide
  cases operand with
  | none =>
    cases h with
    | ret => simp [wordsStatement, namedStatement, hname, operandStatement]
    | constant value => cases hread
    | constantLong value => cases hread
  | some word =>
    cases h with
    | ret => cases hread
    | constant value =>
      have hword : Value.read? word = some value := Option.some.inj hread
      simp [wordsStatement, namedStatement, hname, operandStatement, hword]
    | constantLong value =>
      have hword : Value.read? word = some value := Option.some.inj hread
      simp [wordsStatement, namedStatement, hname, operandStatement, hword]

/-- **A statement is read back from its line**, whatever number the line has in its listing. -/
theorem parseLine_operand (n : Nat) (line : Line) {statement : Statement} {op : Opcode}
    {value : Option Value} (h : Names statement op value) {operand : Option (List Char)}
    (hread : operand.map Value.read? = value.map some) (hplain : PlainWords operand.toList) :
    parseLine n (written line (op.mnemonic.toList :: operand.toList)) =
      .ok (some ⟨line, statement⟩) := by
  rw [parseLine_written n line (List.cons_ne_nil _ _) (plainWords_cons_mnemonic op hplain),
    wordsStatement_of_names h hread]
  rfl

/-- The same with the number text of a row. -/
theorem parseLine_operation (n : Nat) (line : Line) {statement : Statement} {op : Opcode}
    {value : Option Value} (h : Names statement op value)
    (hfinite : ∀ v ∈ value, v.isFinite = true) :
    parseLine n (written line (operationWords op value)) = .ok (some ⟨line, statement⟩) := by
  refine parseLine_operand n line h ?_ (plainWords_jsonChars hfinite)
  cases value with
  | none => rfl
  | some v => exact congrArg some (Value.read?_jsonChars (hfinite v rfl))

/-- A written line is one line of a text. -/
theorem written_one_line (line : Line) {words : List (List Char)} (hne : words ≠ [])
    (h : PlainWords words) :
    '\n' ∉ written line words ∧ (written line words).getLast? ≠ some '\r' := by
  constructor
  · refine not_mem_written (by decide) (by decide) (by decide) ?_
    intro w hw hmem
    cases (h w hw).1.not_blank '\n' hmem
  · intro hlast
    cases not_blank_of_mem_getLast?_written hne h '\r' hlast

end Listing

/-! ## 3. Assembling lines -/

/-- What every item gives is given by all of them. -/
theorem mapM_eq_some_of_map_eq {α β : Type} {f : α → Option β} {xs : List α} {ys : List β}
    (h : xs.map f = ys.map some) : xs.mapM f = some ys :=
  calc xs.mapM f = (xs.map f).mapM id := (List.mapM_map (g := id)).symm
    _ = ys.mapM fun y => pure (id y) := by
        rw [h]
        exact List.mapM_map
    _ = some ys := by
        rw [List.mapM_pure, List.map_id]
        rfl

namespace Statements

/-- The operation of a statement's instruction is one that the statement is written with. -/
theorem names_instruction (before : Statements) (placed : Listing.Placed) :
    Listing.Names placed.statement (instruction before placed).opcode (constant? placed) := by
  obtain ⟨line, statement⟩ := placed
  cases statement with
  | ret => exact .ret
  | constant value =>
    show Listing.Names _ (Instruction.load _).opcode _
    unfold Instruction.load
    split
    · exact .constant value
    · exact .constantLong value

/-- A statement is appended while there is an index for its constant. -/
theorem append_of_length_le {p : Statements} {placed : Listing.Placed}
    (h : (constants (p ++ [placed])).length ≤ ConstantPool.limit) :
    append p placed = .ok (p ++ [placed]) := by
  obtain ⟨line, statement⟩ := placed
  cases statement with
  | ret => rfl
  | constant value =>
    rw [constants_append, List.length_append] at h
    exact if_pos (Nat.lt_of_succ_le h)

/-- **Lines that read as statements assemble to them.** -/
theorem assembleLines_of_forall₂ {ls : List (List Char)} {q : Statements}
    (h : List.Forall₂ (fun l placed => ∀ n, Listing.parseLine n l = .ok (some placed)) ls q)
    (p : Statements) (n : Nat) (hroom : (constants (p ++ q)).length ≤ ConstantPool.limit) :
    assembleLines p n ls = (.ok (), p ++ q) := by
  induction h generalizing p n with
  | nil => rw [List.append_nil]; rfl
  | @cons l placed ls q hl _ ih =>
    have hsplit : p ++ placed :: q = (p ++ [placed]) ++ q := by simp
    rw [hsplit] at hroom ⊢
    have hle : (constants (p ++ [placed])).length ≤ ConstantPool.limit := by
      refine Nat.le_trans ?_ hroom
      simp only [constants, List.filterMap_append, List.length_append]
      omega
    simp only [assembleLines, hl n, append_of_length_le hle]
    exact ih (p ++ [placed]) (n + 1) hroom

/-- **A listing of such lines** assembles to a chunk that represents the statements. -/
theorem assemble_of_forall₂ {ls : List (List Char)} {q : Statements}
    (h : List.Forall₂ (fun l placed => ∀ n, Listing.parseLine n l = .ok (some placed)) ls q)
    (hlines : ∀ l ∈ ls, '\n' ∉ l ∧ l.getLast? ≠ some '\r')
    (hroom : (constants q).length ≤ ConstantPool.limit) {source : String}
    (hsource : source.toList = ls.flatMap (· ++ ['\n'])) :
    (Chunk.assemble source).answer = .ok () ∧ Represents (Chunk.assemble source).state q := by
  have hassemble := assembleLines_of_forall₂ h [] 1 hroom
  obtain ⟨hanswer, hrepresents⟩ := represents_empty.assembleLines 1 ls
  rw [hassemble] at hanswer hrepresents
  rw [Chunk.assemble, Chunk.answer_assembleInto, Chunk.state_assembleInto, hsource,
    Text.lines_flatMap hlines]
  exact ⟨hanswer, hrepresents⟩

end Statements
end BytecodeTrace
