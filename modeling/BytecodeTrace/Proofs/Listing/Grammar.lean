/-
# The grammar of a listing

What a line of a listing says, as rules on the line and its parts, and not as the steps of a parser.
The rules are in the order in which faults are looked for: the line prefix, a third word, the
mnemonic, the operand, room in the pool.  `Reads` puts them together.

* `Listing.reads_iff`: every line is read in exactly one way, and that is how the parser reads it;
* `Chunk.takes_of_reads`: a line does what it is read to do, whatever is behind it;
* `Chunk.assembles_iff`: so assembling a source is applying the rules line by line;
* `Chunk.edited_followsGrammar`: all of it for every chunk that can come about.

`Text.UpTo`, `Text.Trimmed` and `Text.Spaced` say what the parts of a line are.
-/
import BytecodeTrace.Proofs.Listing.FirstFault
import BytecodeTrace.Proofs.Text.Shapes

namespace BytecodeTrace
namespace Listing

/-! ## 1. Words and numbers -/

/-- The word is the mnemonic of the operation, up to the case of ASCII letters. -/
def Spells (word : List Char) (op : Opcode) : Prop :=
  word.map Char.toLower = op.mnemonic.toList.map Char.toLower

/-- The text is a source line number: digits, with at most one plus sign in front of them, for a
number of 32 bits. -/
inductive LineNumber : List Char → Line → Prop where
  | digits {ds : List Char} {line : Line} : ds ≠ [] → (∀ d ∈ ds, d.isDigit = true) →
    ofDigits ds = line.toNat → LineNumber ds line
  | plus {ds : List Char} {line : Line} : ds ≠ [] → (∀ d ∈ ds, d.isDigit = true) →
    ofDigits ds = line.toNat → LineNumber ('+' :: ds) line

/-- What the words of a line say.  Three words are too many before anything else is looked at, and a
missing first word is an empty mnemonic. -/
inductive Says : List (List Char) → Except Fault Statement → Prop where
  | thirdWord {first second third : List Char} {rest : List (List Char)} :
    Says (first :: second :: third :: rest) (.error (.unexpectedOperand (String.ofList third)))
  | noWord : Says [] (.error (.unknownMnemonic ""))
  | unknownAlone {name : List Char} : (∀ op, ¬ Spells name op) →
    Says [name] (.error (.unknownMnemonic (String.ofList name)))
  | unknown {name operand : List Char} : (∀ op, ¬ Spells name op) →
    Says [name, operand] (.error (.unknownMnemonic (String.ofList name)))
  | ret {name : List Char} : Spells name .ret → Says [name] (.ok .ret)
  | retOperand {name operand : List Char} : Spells name .ret →
    Says [name, operand] (.error (.unexpectedOperand (String.ofList operand)))
  | missing {name : List Char} {op : Opcode} : Spells name op → op ≠ .ret →
    Says [name] (.error (.missingOperand op))
  | invalid {name operand : List Char} {op : Opcode} : Spells name op → op ≠ .ret →
    Value.read? operand = none →
      Says [name, operand] (.error (.invalidNumber (String.ofList operand)))
  | constant {name operand : List Char} {op : Opcode} {value : Value} : Spells name op →
    op ≠ .ret → Value.read? operand = some value → Says [name, operand] (.ok (.constant value))

/-- The source line of a text and what is behind its prefix.  Without a colon there is no prefix,
and the number of the line in its listing is taken, as far as it is a source line. -/
inductive Prefixed (number : Nat) : List Char → Except Fault (Line × List Char) → Prop where
  | line {before part body : List Char} {line : Line} : ':' ∉ before →
    Text.Trimmed before part → LineNumber part line →
      Prefixed number (before ++ ':' :: body) (.ok (line, body))
  | invalid {before part body : List Char} : ':' ∉ before → Text.Trimmed before part →
    (∀ line, ¬ LineNumber part line) →
      Prefixed number (before ++ ':' :: body)
        (.error (.invalidLinePrefix (String.ofList part)))
  | none {text : List Char} : ':' ∉ text → number < 2 ^ 32 →
    Prefixed number text (.ok (UInt32.ofNat number, text))
  | tooFar {text : List Char} : ':' ∉ text → 2 ^ 32 ≤ number →
    Prefixed number text (.error (.invalidLinePrefix (toString number)))

/-! ## 2. Lines -/

/-- The text of a line: what is in front of the comment, without the blanks at its ends. -/
def Stripped (raw text : List Char) : Prop :=
  ∃ code, Text.UpTo ';' raw code ∧ Text.Trimmed code text

/-- What line `number` of a listing says: nothing, a statement, or that it has a fault. -/
inductive Parses (number : Nat) (raw : List Char) : Except Fault (Option Placed) → Prop where
  | nothing : Stripped raw [] → Parses number raw (.ok none)
  | badPrefix {text : List Char} {fault : Fault} : Stripped raw text → text ≠ [] →
    Prefixed number text (.error fault) → Parses number raw (.error fault)
  | badWords {text body : List Char} {line : Line} {words : List (List Char)} {fault : Fault} :
    Stripped raw text → text ≠ [] → Prefixed number text (.ok (line, body)) →
    Text.Spaced body words → Says words (.error fault) → Parses number raw (.error fault)
  | statement {text body : List Char} {line : Line} {words : List (List Char)}
    {statement : Statement} : Stripped raw text → text ≠ [] →
    Prefixed number text (.ok (line, body)) → Text.Spaced body words →
    Says words (.ok statement) → Parses number raw (.ok (some ⟨line, statement⟩))

/-- What a line does to a chunk. -/
inductive Verdict where
  | nothing
  | appends (placed : Placed)
  | fails (fault : Fault)
deriving DecidableEq, Repr

/-- What line `number` of a listing does to a chunk with this many constants: only a constant needs
room. -/
inductive Reads (constants number : Nat) (raw : List Char) : Verdict → Prop where
  | nothing : Parses number raw (.ok none) → Reads constants number raw .nothing
  | fault {fault : Fault} : Parses number raw (.error fault) →
    Reads constants number raw (.fails fault)
  | full {line : Line} {value : Value} :
    Parses number raw (.ok (some ⟨line, .constant value⟩)) → 2 ^ 24 ≤ constants →
      Reads constants number raw (.fails (.refused (.poolFull (2 ^ 24))))
  | ret {line : Line} : Parses number raw (.ok (some ⟨line, .ret⟩)) →
    Reads constants number raw (.appends ⟨line, .ret⟩)
  | constant {line : Line} {value : Value} :
    Parses number raw (.ok (some ⟨line, .constant value⟩)) → constants < 2 ^ 24 →
      Reads constants number raw (.appends ⟨line, .constant value⟩)

/-! ## 3. The parser follows the rules -/

theorem spells_iff {word : List Char} {op : Opcode} :
    Spells word op ↔ Opcode.ofMnemonic? (String.ofList word) = some op := by
  rw [Opcode.ofMnemonic?, String.toList_ofList]
  constructor
  · intro h
    rw [Spells] at h
    rw [h]
    cases op <;> decide
  · intro h
    have hop := List.find?_some h
    exact (beq_iff_eq.mp hop).symm

theorem not_spells_iff {word : List Char} :
    (∀ op, ¬ Spells word op) ↔ Opcode.ofMnemonic? (String.ofList word) = none := by
  rw [Option.eq_none_iff_forall_ne_some]
  exact forall_congr' fun op => not_congr spells_iff

/-- Digits are read as a source line exactly if their number fits in 32 bits. -/
theorem readDigits_iff {ds : List Char} {line : Line} :
    (if ds.isEmpty ∨ ¬ ds.all Char.isDigit then none
      else if ofDigits ds < 2 ^ 32 then some (UInt32.ofNat (ofDigits ds)) else none) =
        some line ↔
      ds ≠ [] ∧ (∀ d ∈ ds, d.isDigit = true) ∧ ofDigits ds = line.toNat := by
  constructor
  · intro h
    split at h
    · cases h
    · rename_i hdigits
      simp only [List.isEmpty_iff, List.all_eq_true, not_or, not_not] at hdigits
      split at h
      · rename_i hlt
        obtain rfl : UInt32.ofNat (ofDigits ds) = line := Option.some.inj h
        refine ⟨hdigits.1, hdigits.2, ?_⟩
        rw [UInt32.toNat_ofNat_of_lt' hlt]
      · cases h
  · rintro ⟨hne, hall, hvalue⟩
    have hlt : ofDigits ds < 2 ^ 32 := by
      rw [hvalue]
      exact line.toNat_lt
    have hdigits : ¬ (ds.isEmpty ∨ ¬ ds.all Char.isDigit) := by
      simp only [List.isEmpty_iff, List.all_eq_true, not_or, not_not]
      exact ⟨hne, hall⟩
    rw [if_neg hdigits, if_pos hlt, hvalue, UInt32.ofNat_toNat]

theorem lineNumber_iff {s : List Char} {line : Line} :
    LineNumber s line ↔ readLine? s = some line := by
  constructor
  · intro h
    cases h with
    | digits hne hall hvalue =>
      have hplus : ∀ rest, s ≠ '+' :: rest := by
        rintro rest rfl
        cases hall '+' (List.mem_cons_self ..)
      rw [readLine?]
      · exact readDigits_iff.mpr ⟨hne, hall, hvalue⟩
      · exact hplus
    | plus hne hall hvalue =>
      rw [readLine?]
      exact readDigits_iff.mpr ⟨hne, hall, hvalue⟩
  · intro h
    by_cases hplus : ∃ rest, s = '+' :: rest
    · obtain ⟨rest, rfl⟩ := hplus
      rw [readLine?] at h
      obtain ⟨hne, hall, hvalue⟩ := readDigits_iff.mp h
      exact .plus hne hall hvalue
    · rw [readLine?] at h
      · obtain ⟨hne, hall, hvalue⟩ := readDigits_iff.mp h
        exact .digits hne hall hvalue
      · intro rest hrest
        exact hplus ⟨rest, hrest⟩

theorem not_lineNumber_iff {s : List Char} :
    (∀ line, ¬ LineNumber s line) ↔ readLine? s = none := by
  rw [Option.eq_none_iff_forall_ne_some]
  exact forall_congr' fun line => not_congr lineNumber_iff

theorem wordsStatement_cons_of_spells {name : List Char} {op : Opcode} (h : Spells name op) :
    wordsStatement [name] = operandStatement op none ∧
      ∀ operand, wordsStatement [name, operand] = operandStatement op (some operand) := by
  have hname := spells_iff.mp h
  simp [wordsStatement, namedStatement, hname]

theorem operandStatement_of_ne_ret {op : Opcode} (h : op ≠ .ret) :
    operandStatement op none = .error (.missingOperand op) ∧
      ∀ operand, operandStatement op (some operand) =
        match Value.read? operand with
        | some value => .ok (.constant value)
        | none => .error (.invalidNumber (String.ofList operand)) := by
  cases op with
  | ret => exact absurd rfl h
  | constant => exact ⟨rfl, fun _ => rfl⟩
  | constantLong => exact ⟨rfl, fun _ => rfl⟩

/-- Every list of words says something. -/
theorem says_wordsStatement (words : List (List Char)) : Says words (wordsStatement words) := by
  match words with
  | [] => exact .noWord
  | [name] =>
    cases hname : Opcode.ofMnemonic? (String.ofList name) with
    | none =>
      have h : wordsStatement [name] = .error (.unknownMnemonic (String.ofList name)) := by
        simp [wordsStatement, namedStatement, hname]
      rw [h]
      exact .unknownAlone (not_spells_iff.mpr hname)
    | some op =>
      have hspells : Spells name op := spells_iff.mpr hname
      rw [(wordsStatement_cons_of_spells hspells).1]
      by_cases hop : op = .ret
      · subst hop
        exact .ret hspells
      · rw [(operandStatement_of_ne_ret hop).1]
        exact .missing hspells hop
  | [name, operand] =>
    cases hname : Opcode.ofMnemonic? (String.ofList name) with
    | none =>
      have h : wordsStatement [name, operand] = .error (.unknownMnemonic (String.ofList name)) := by
        simp [wordsStatement, namedStatement, hname]
      rw [h]
      exact .unknown (not_spells_iff.mpr hname)
    | some op =>
      have hspells : Spells name op := spells_iff.mpr hname
      rw [(wordsStatement_cons_of_spells hspells).2]
      by_cases hop : op = .ret
      · subst hop
        exact .retOperand hspells
      · rw [(operandStatement_of_ne_ret hop).2]
        split
        · rename_i value hvalue
          exact .constant hspells hop hvalue
        · rename_i hnone
          exact .invalid hspells hop hnone
  | _ :: _ :: _ :: _ => exact .thirdWord

theorem says_iff {words : List (List Char)} {answer : Except Fault Statement} :
    Says words answer ↔ wordsStatement words = answer := by
  constructor
  · intro h
    cases h with
    | thirdWord => rfl
    | noWord => rfl
    | unknownAlone h => simp [wordsStatement, namedStatement, not_spells_iff.mp h]
    | unknown h => simp [wordsStatement, namedStatement, not_spells_iff.mp h]
    | ret h => exact (wordsStatement_cons_of_spells h).1
    | retOperand h => exact (wordsStatement_cons_of_spells h).2 _
    | missing h hop =>
      rw [(wordsStatement_cons_of_spells h).1, (operandStatement_of_ne_ret hop).1]
    | invalid h hop hread =>
      rw [(wordsStatement_cons_of_spells h).2, (operandStatement_of_ne_ret hop).2, hread]
    | constant h hop hread =>
      rw [(wordsStatement_cons_of_spells h).2, (operandStatement_of_ne_ret hop).2, hread]
  · rintro rfl
    exact says_wordsStatement words

/-- Every text has a prefix, or none, or one that is no source line. -/
theorem prefixed_splitPrefix (number : Nat) (text : List Char) :
    Prefixed number text (splitPrefix text number) := by
  by_cases hcolon : ':' ∈ text
  · obtain ⟨before, body, hbefore, rfl, hcut⟩ := Text.exists_cut_of_mem hcolon
    cases hline : readLine? (Text.trim before) with
    | none =>
      simp only [splitPrefix, hcut, hline]
      exact .invalid hbefore (Text.trimmed_trim before) (not_lineNumber_iff.mpr hline)
    | some line =>
      simp only [splitPrefix, hcut, hline]
      exact .line hbefore (Text.trimmed_trim before) (lineNumber_iff.mpr hline)
  · rw [splitPrefix, Text.cut_of_not_mem hcolon]
    dsimp only
    split
    · rename_i hlt
      exact .none hcolon hlt
    · rename_i hge
      exact .tooFar hcolon (Nat.le_of_not_lt hge)

theorem prefixed_iff {number : Nat} {text : List Char}
    {answer : Except Fault (Line × List Char)} :
    Prefixed number text answer ↔ splitPrefix text number = answer := by
  constructor
  · intro h
    cases h with
    | line hbefore htrimmed hline =>
      simp only [splitPrefix, Text.cut_append hbefore, Text.trimmed_iff.mp htrimmed,
        lineNumber_iff.mp hline]
    | invalid hbefore htrimmed hline =>
      simp only [splitPrefix, Text.cut_append hbefore, Text.trimmed_iff.mp htrimmed,
        not_lineNumber_iff.mp hline]
    | none hcolon hlt => rw [splitPrefix, Text.cut_of_not_mem hcolon, if_pos hlt]
    | tooFar hcolon hge =>
      rw [splitPrefix, Text.cut_of_not_mem hcolon, if_neg (Nat.not_lt.mpr hge)]
  · rintro rfl
    exact prefixed_splitPrefix number text

/-- What counts of a line: what is in front of its comment, without the blanks at its ends. -/
def lineText (raw : List Char) : List Char := Text.trim (Text.cut ';' raw).1

theorem stripped_lineText (raw : List Char) : Stripped raw (lineText raw) :=
  ⟨_, Text.upTo_iff.mpr rfl, Text.trimmed_trim _⟩

theorem stripped_iff {raw text : List Char} : Stripped raw text ↔ lineText raw = text := by
  constructor
  · rintro ⟨code, hcode, htext⟩
    rw [lineText, Text.upTo_iff.mp hcode, Text.trimmed_iff.mp htext]
  · rintro rfl
    exact stripped_lineText raw

/-- A line without text says nothing. -/
theorem parseLine_of_stripped_nil {number : Nat} {raw : List Char} (h : Stripped raw []) :
    parseLine number raw = .ok none := by
  rw [parseLine, ← lineText, stripped_iff.mp h]
  rfl

/-- A line with text says what its parts say. -/
theorem parseLine_of_stripped {number : Nat} {raw text : List Char} (h : Stripped raw text)
    (hne : text ≠ []) :
    parseLine number raw =
      (splitPrefix text number).bind fun placed =>
        (wordsStatement (Text.words placed.2)).map fun statement =>
          some ⟨placed.1, statement⟩ := by
  rw [parseLine, ← lineText, stripped_iff.mp h, if_neg (by simpa using hne)]
  cases splitPrefix text number with
  | error fault => rfl
  | ok placed =>
    cases hwords : wordsStatement (Text.words placed.2) with
    | error fault => simp [bind, Except.bind, hwords, Except.map]
    | ok statement => simp [bind, Except.bind, hwords, Except.map]; rfl

/-- Every line says something. -/
theorem parses_parseLine (number : Nat) (raw : List Char) :
    Parses number raw (parseLine number raw) := by
  have hstripped := stripped_lineText raw
  generalize lineText raw = text at hstripped
  by_cases hne : text = []
  · subst hne
    rw [parseLine_of_stripped_nil hstripped]
    exact .nothing hstripped
  · rw [parseLine_of_stripped hstripped hne]
    cases hprefix : splitPrefix text number with
    | error fault => exact .badPrefix hstripped hne (prefixed_iff.mpr hprefix)
    | ok placed =>
      cases hwords : wordsStatement (Text.words placed.2) with
      | error fault =>
        simp only [Except.bind, hwords, Except.map]
        exact .badWords hstripped hne (prefixed_iff.mpr hprefix) (Text.spaced_words _)
          (says_iff.mpr hwords)
      | ok statement =>
        simp only [Except.bind, hwords, Except.map]
        exact .statement hstripped hne (prefixed_iff.mpr hprefix) (Text.spaced_words _)
          (says_iff.mpr hwords)

/-- **A line is parsed by the rules**, in exactly one way. -/
theorem parses_iff {number : Nat} {raw : List Char} {answer : Except Fault (Option Placed)} :
    Parses number raw answer ↔ parseLine number raw = answer := by
  constructor
  · intro h
    cases h with
    | nothing hstripped => exact parseLine_of_stripped_nil hstripped
    | badPrefix hstripped hne hprefix =>
      rw [parseLine_of_stripped hstripped hne, prefixed_iff.mp hprefix]
      rfl
    | badWords hstripped hne hprefix hspaced hsays =>
      rw [parseLine_of_stripped hstripped hne, prefixed_iff.mp hprefix, Except.bind,
        Text.spaced_iff.mp hspaced, says_iff.mp hsays]
      rfl
    | statement hstripped hne hprefix hspaced hsays =>
      rw [parseLine_of_stripped hstripped hne, prefixed_iff.mp hprefix, Except.bind,
        Text.spaced_iff.mp hspaced, says_iff.mp hsays]
      rfl
  · rintro rfl
    exact parses_parseLine number raw

/-- What a parsed line does to a chunk with this many constants. -/
def verdict (constants : Nat) : Except Fault (Option Placed) → Verdict
  | .error fault => .fails fault
  | .ok none => .nothing
  | .ok (some ⟨line, .ret⟩) => .appends ⟨line, .ret⟩
  | .ok (some ⟨line, .constant value⟩) =>
    if constants < 2 ^ 24 then .appends ⟨line, .constant value⟩
    else .fails (.refused (.poolFull (2 ^ 24)))

theorem verdict_of_lt {constants : Nat} (h : constants < 2 ^ 24) (line : Line) (value : Value) :
    verdict constants (.ok (some ⟨line, .constant value⟩)) = .appends ⟨line, .constant value⟩ :=
  if_pos h

theorem verdict_of_le {constants : Nat} (h : 2 ^ 24 ≤ constants) (line : Line) (value : Value) :
    verdict constants (.ok (some ⟨line, .constant value⟩)) =
      .fails (.refused (.poolFull (2 ^ 24))) :=
  if_neg (Nat.not_lt.mpr h)

/-- Every line is read in some way. -/
theorem reads_verdict (constants number : Nat) (raw : List Char) :
    Reads constants number raw (verdict constants (parseLine number raw)) := by
  have hparses := parses_parseLine number raw
  match h : parseLine number raw with
  | .error fault => exact .fault (h ▸ hparses)
  | .ok none => exact .nothing (h ▸ hparses)
  | .ok (some ⟨line, .ret⟩) => exact .ret (h ▸ hparses)
  | .ok (some ⟨line, .constant value⟩) =>
    rcases Nat.lt_or_ge constants (2 ^ 24) with hlt | hge
    · rw [verdict_of_lt hlt]
      exact .constant (h ▸ hparses) hlt
    · rw [verdict_of_le hge]
      exact .full (h ▸ hparses) hge

/-- **A line is read by the rules**, in exactly one way. -/
theorem reads_iff {constants number : Nat} {raw : List Char} {v : Verdict} :
    Reads constants number raw v ↔ verdict constants (parseLine number raw) = v := by
  constructor
  · intro h
    cases h with
    | nothing hparses => rw [parses_iff.mp hparses, verdict]
    | fault hparses => rw [parses_iff.mp hparses, verdict]
    | full hparses hge => rw [parses_iff.mp hparses, verdict_of_le hge]
    | ret hparses => rw [parses_iff.mp hparses, verdict]
    | constant hparses hlt => rw [parses_iff.mp hparses, verdict_of_lt hlt]
  · rintro rfl
    exact reads_verdict constants number raw

end Listing

/-! ## 4. Assembling by the rules -/

namespace Chunk

open Listing

variable {c d : Chunk} {number : Nat}

/-- What becomes of a chunk at a line with the verdict, whatever lines are behind that line. -/
inductive Takes (c : Chunk) (number : Nat) (raw : List Char) : Verdict → Prop where
  | nothing : (∀ rest, c.assembleLines number (raw :: rest) = c.assembleLines (number + 1) rest) →
    Takes c number raw .nothing
  | appends {placed : Placed} : (c.appendStatement placed).answer = .ok () →
    (c.appendStatement placed).state.content = c.content.add placed →
    (∀ rest, (c.assembleLines number (raw :: rest)).answer =
        ((c.appendStatement placed).state.assembleLines (number + 1) rest).answer ∧
      (c.assembleLines number (raw :: rest)).state =
        ((c.appendStatement placed).state.assembleLines (number + 1) rest).state) →
      Takes c number raw (.appends placed)
  | fails {fault : Fault} :
    (∀ rest, c.assembleLines number (raw :: rest) = .pure (.error ⟨number, fault⟩) c) →
      Takes c number raw (.fails fault)

/-- There is room for a constant if its index is below the limit. -/
theorem hasRoom_constant_iff {line : Line} {value : Value} :
    c.content.HasRoom ⟨line, .constant value⟩ ↔ c.constants.size < ConstantPool.limit := by
  have hret : Statement.constant value ≠ .ret := by
    intro h
    cases h
  rw [Content.HasRoom, ← constants_size_eq_length]
  exact or_iff_right hret

/-- A statement that has room is appended, and what is behind its line to the chunk with it. -/
theorem assembleLines_of_hasRoom {raw : List Char} {placed : Placed}
    (hparse : parseLine number raw = .ok (some placed)) (hroom : c.content.HasRoom placed)
    (rest : List (List Char)) :
    (c.assembleLines number (raw :: rest)).answer =
        ((c.appendStatement placed).state.assembleLines (number + 1) rest).answer ∧
      (c.assembleLines number (raw :: rest)).state =
        ((c.appendStatement placed).state.assembleLines (number + 1) rest).state := by
  simp only [assembleLines, hparse, Outcome.answer_andThen, Outcome.state_andThen,
    (appendStatement_of_hasRoom hroom).1, and_self]

theorem takes_appends {raw : List Char} {placed : Placed}
    (hparse : parseLine number raw = .ok (some placed)) (hroom : c.content.HasRoom placed) :
    c.Takes number raw (.appends placed) := by
  obtain ⟨hanswer, hcontent⟩ := appendStatement_of_hasRoom hroom
  exact .appends hanswer hcontent (assembleLines_of_hasRoom hparse hroom)

/-- **A line does what it is read to do.** -/
theorem takes_of_reads (hc : c.Coupled) {raw : List Char} {v : Verdict}
    (h : Reads c.constants.size number raw v) : c.Takes number raw v := by
  cases h with
  | nothing hparses =>
    refine .nothing fun rest => ?_
    simp only [assembleLines, parses_iff.mp hparses]
  | fault hparses => exact .fails (BadLine.unread (parses_iff.mp hparses)).assembleLines_eq
  | full hparses hge =>
    rename_i line value
    have hroom : ¬ c.content.HasRoom ⟨line, .constant value⟩ := by
      rw [hasRoom_constant_iff]
      exact Nat.not_lt.mpr hge
    have hbad := (BadLine.refused (parses_iff.mp hparses) hroom).assembleLines_eq
    have hsize : c.constants.size = 2 ^ 24 := Nat.le_antisymm hc.constants_le hge
    rw [hsize] at hbad
    exact .fails hbad
  | ret hparses => exact takes_appends (parses_iff.mp hparses) (.inl rfl)
  | constant hparses hlt =>
    exact takes_appends (parses_iff.mp hparses) (hasRoom_constant_iff.mpr hlt)

/-- Lines are assembled into a chunk, the first of which is line `number` of its listing: each is
read for the chunk that the lines before it left, up to one that fails. -/
inductive Assembles :
    Chunk → Nat → List (List Char) → Except Listing.Error Unit → Chunk → Prop where
  | done {c : Chunk} {number : Nat} : Assembles c number [] (.ok ()) c
  | pass {c d : Chunk} {number : Nat} {raw : List Char} {rest : List (List Char)}
    {answer : Except Listing.Error Unit} : Reads c.constants.size number raw .nothing →
    Assembles c (number + 1) rest answer d → Assembles c number (raw :: rest) answer d
  | append {c d : Chunk} {number : Nat} {raw : List Char} {rest : List (List Char)}
    {placed : Placed} {answer : Except Listing.Error Unit} :
    Reads c.constants.size number raw (.appends placed) →
    Assembles (c.appendStatement placed).state (number + 1) rest answer d →
      Assembles c number (raw :: rest) answer d
  | stop {c : Chunk} {number : Nat} {raw : List Char} {rest : List (List Char)} {fault : Fault} :
    Reads c.constants.size number raw (.fails fault) →
      Assembles c number (raw :: rest) (.error ⟨number, fault⟩) c

/-- The rules lead to what assembly answers and leaves. -/
theorem assembles_assembleLines (hc : c.Coupled) (number : Nat) (lines : List (List Char)) :
    Assembles c number lines (c.assembleLines number lines).answer
      (c.assembleLines number lines).state := by
  induction lines generalizing c number with
  | nil => exact .done
  | cons raw rest ih =>
    have hreads := reads_verdict c.constants.size number raw
    generalize verdict c.constants.size (parseLine number raw) = v at hreads
    cases takes_of_reads hc hreads with
    | nothing heq =>
      rw [heq rest]
      exact .pass hreads (ih hc (number + 1))
    | @appends placed hanswer hcontent heq =>
      rw [(heq rest).1, (heq rest).2]
      exact .append hreads (ih (invariant_coupled.appendStatement hc placed) (number + 1))
    | fails heq =>
      rw [heq rest]
      exact .stop hreads

/-- **Assembling is applying the rules** from the first line to the last, or to one that fails. -/
theorem assembles_iff (hc : c.Coupled) {lines : List (List Char)}
    {answer : Except Listing.Error Unit} :
    Assembles c number lines answer d ↔
      (c.assembleLines number lines).answer = answer ∧
        (c.assembleLines number lines).state = d := by
  constructor
  · intro h
    induction h with
    | done => exact ⟨rfl, rfl⟩
    | pass hreads _ ih =>
      cases takes_of_reads hc hreads with
      | nothing heq =>
        rw [heq]
        exact ih hc
    | @append c d number raw rest placed answer hreads _ ih =>
      cases takes_of_reads hc hreads with
      | appends hanswer hcontent heq =>
        rw [(heq rest).1, (heq rest).2]
        exact ih (invariant_coupled.appendStatement hc placed)
    | @stop c number raw rest fault hreads =>
      cases takes_of_reads hc hreads with
      | fails heq =>
        rw [heq rest]
        exact ⟨rfl, rfl⟩
  · rintro ⟨rfl, rfl⟩
    exact assembles_assembleLines hc number lines

/-- The chunk assembles by the rules of the grammar. -/
structure FollowsGrammar (c : Chunk) : Prop where
  /-- Every line is read in exactly one way. -/
  existsUnique_reads : ∀ number raw, ∃! v, Reads c.constants.size number raw v
  /-- It does what it is read to do, whatever is behind it. -/
  takes : ∀ number raw v, Reads c.constants.size number raw v → c.Takes number raw v
  /-- A source is read line by line, its first line being line 1. -/
  assembles_iff : ∀ (source : String) answer d,
    Assembles c 1 (Text.lines source.toList) answer d ↔
      (c.assembleInto source).answer = answer ∧ (c.assembleInto source).state = d

/-- **Listings are assembled by the grammar**, into every chunk that can come about. -/
theorem edited_followsGrammar (edits : List Edit) : (empty.edited edits).FollowsGrammar := by
  have hc : (empty.edited edits).Coupled := coupled_edited coupled_empty edits
  refine ⟨?_, ?_, ?_⟩
  · intro number raw
    refine ⟨_, reads_verdict _ number raw, ?_⟩
    intro other hother
    exact (reads_iff.mp hother).symm
  · intro number raw v
    exact takes_of_reads hc
  · intro source answer d
    rw [answer_assembleInto, state_assembleInto]
    exact assembles_iff hc

/-- A third word is looked at before the mnemonic, and the line prefix before both. -/
example :
    Reads 0 1 "CONST 1 2 ; 3: x".toList (.fails (.unexpectedOperand "2")) ∧
      Reads 0 1 " x : CONST 1 2".toList (.fails (.invalidLinePrefix "x")) ∧
      Reads (2 ^ 24) 1 "+007:constant 1e400;".toList (.fails (.refused (.poolFull (2 ^ 24)))) := by
  refine ⟨reads_iff.mpr ?_, reads_iff.mpr ?_, reads_iff.mpr ?_⟩ <;> decide +kernel

end Chunk
end BytecodeTrace
