/-
# Listings one behind the other

A listing behind another is assembled to what the first one leaves, and only the numbers of its
lines are different: a statement without a line prefix is recorded at the line that it stands in,
and a fault is reported for that line.  With prefixes it makes no difference where lines stand.

* `Text.lines_append_newline`: the lines of joined texts;
* `Listing.parseLine_add`: a line that stands further down;
* `Chunk.shifts_assembleLines`: lines that stand further down, for two chunks with the same code;
* `Chunk.sameEnd_texts`: with prefixes only the texts of the lines count;
* `Listing.texts_inserted`: lines that say nothing do not change these;
* `Chunk.assembleInto_joins`: all of it for every chunk and every two listings.
-/
import BytecodeTrace.Proofs.Listing.Grammar
import Mathlib.Logic.Relation

namespace BytecodeTrace

/-! ## 1. The lines of joined texts -/

namespace Text

/-- A text is its lines: what holds of a text without a line feed, and is kept by a line in front,
holds of every text. -/
theorem lines_induction {P : List Char → Prop} (last : ∀ s, '\n' ∉ s → P s)
    (line : ∀ first rest, '\n' ∉ first → P rest → P (first ++ '\n' :: rest)) (s : List Char) :
    P s := by
  induction hn : s.length using Nat.strongRecOn generalizing s with
  | ind n ih =>
    by_cases h : '\n' ∈ s
    · obtain ⟨first, rest, rfl, hfirst⟩ := List.eq_append_cons_of_mem h
      refine line first rest hfirst (ih rest.length ?_ rest rfl)
      rw [← hn, List.length_append, List.length_cons]
      omega
    · exact last s h

/-- A text without a line feed is one line, if it is not empty. -/
theorem lines_of_not_mem {s : List Char} (h : '\n' ∉ s) (hne : s ≠ []) : lines s = [s] := by
  obtain ⟨c, s, rfl⟩ := List.exists_cons_of_ne_nil hne
  have hdrop : (c :: s).dropWhile (· != '\n') = [] := by
    rw [List.dropWhile_eq_nil_iff]
    intro d hd
    simpa using fun heq : d = '\n' => h (heq ▸ hd)
  rw [lines]
  split
  · rfl
  · rename_i heq
    rw [hdrop] at heq
    cases heq

/-- **The lines of joined texts** are those of the first one, with its end, and of the second. -/
theorem lines_append_newline (s t : List Char) :
    lines (s ++ '\n' :: t) = lines (s ++ ['\n']) ++ lines t := by
  induction s using lines_induction with
  | last s h => rw [lines_append h, lines_append h, lines_nil, List.singleton_append]
  | line first rest h ih =>
    have hassoc : ∀ u, first ++ '\n' :: rest ++ u = first ++ '\n' :: (rest ++ u) := by
      intro u
      rw [List.append_assoc, List.cons_append]
    rw [hassoc, hassoc, lines_append h, lines_append h, ih, List.cons_append]

/-- A line feed at the end of a text is one more line, which is empty, or ends its last line. -/
theorem lines_concat_newline (s : List Char) :
    lines (s ++ ['\n']) = lines s ++ [[]] ∨
      ∃ front last, lines s = front ++ [last] ∧
        lines (s ++ ['\n']) = front ++ [dropReturn last] := by
  induction s using lines_induction with
  | last s h =>
    rw [lines_append h, lines_nil]
    by_cases hne : s = []
    · subst hne
      left
      rw [lines_nil]
      rfl
    · right
      exact ⟨[], s, lines_of_not_mem h hne, rfl⟩
  | line first rest h ih =>
    rw [List.append_assoc, List.cons_append, lines_append h, lines_append h]
    rcases ih with heq | ⟨front, last, hrest, heq⟩
    · left
      rw [heq, List.cons_append]
    · right
      exact ⟨dropReturn first :: front, last, by rw [hrest, List.cons_append],
        by rw [heq, List.cons_append]⟩

/-- Another line can start behind the text. -/
def AtLineStart (s : List Char) : Prop := ∀ c ∈ s.getLast?, c = '\n'

theorem lines_append_of_atLineStart {s : List Char} (h : AtLineStart s) (t : List Char) :
    lines (s ++ t) = lines s ++ lines t := by
  rcases List.eq_nil_or_concat' s with rfl | ⟨front, c, rfl⟩
  · rw [lines_nil]
    rfl
  · obtain rfl : c = '\n' := h c (by simp)
    rw [List.append_assoc, List.singleton_append, lines_append_newline]

/-- Without a carriage return, or with one less, at its end. -/
theorem dropReturn_cases (line : List Char) :
    dropReturn line = line ∨ line = dropReturn line ++ ['\r'] := by
  by_cases h : line.getLast? = some '\r'
  · right
    rw [dropReturn, h]
    exact (List.dropLast_append_getLast? _ h).symm
  · left
    exact dropReturn_eq_self h

end Text

/-! ## 2. The text of a line -/

namespace Listing

/-- The line says itself at which source line its statement is recorded. -/
def hasPrefix (raw : List Char) : Bool := (lineText raw).contains ':'

/-- The texts of the lines that have one. -/
def texts (lines : List (List Char)) : List (List Char) :=
  (lines.map lineText).filter fun text => ! text.isEmpty

theorem hasText_iff {raw : List Char} : hasText raw = true ↔ lineText raw ≠ [] := by
  rw [hasText, ← lineText, Bool.not_eq_true', List.isEmpty_eq_false_iff]

theorem lineText_eq_nil {raw : List Char} (h : hasText raw = false) : lineText raw = [] := by
  rwa [hasText, ← lineText, Bool.not_eq_false', List.isEmpty_iff] at h

theorem texts_cons (raw : List Char) (lines : List (List Char)) :
    texts (raw :: lines) =
      if hasText raw then lineText raw :: texts lines else texts lines := by
  rw [texts, List.map_cons, List.filter_cons]
  rfl

theorem texts_append (before after : List (List Char)) :
    texts (before ++ after) = texts before ++ texts after := by
  rw [texts, List.map_append, List.filter_append, ← texts, ← texts]

/-- A carriage return at the end of a line does not count. -/
theorem lineText_dropReturn (line : List Char) :
    lineText (Text.dropReturn line) = lineText line := by
  rcases Text.dropReturn_cases line with heq | heq
  · rw [heq]
  · generalize Text.dropReturn line = kept at heq ⊢
    subst heq
    obtain ⟨code, hcode, htext⟩ := stripped_lineText kept
    refine (stripped_iff.mp ?_).symm
    cases hcode with
    | whole hmem =>
      have hreturn : Text.Blanks ['\r'] := by
        intro c hc
        rw [List.mem_singleton.mp hc]
        rfl
      refine ⟨_, .whole ?_, htext.append hreturn⟩
      simp [hmem]
    | part hmem =>
      rw [List.append_assoc, List.cons_append]
      exact ⟨_, .part hmem, htext⟩

/-- The text of a line is its own text. -/
theorem lineText_lineText (raw : List Char) : lineText (lineText raw) = lineText raw := by
  obtain ⟨code, hcode, htext⟩ := stripped_lineText raw
  refine stripped_iff.mp ⟨_, .whole ?_, htext.self⟩
  intro hmem
  exact hcode.not_mem (htext.mem hmem)

/-- Only the text of a line is parsed. -/
theorem parseLine_congr {raw other : List Char} (h : lineText raw = lineText other) (n : Nat) :
    parseLine n raw = parseLine n other := by
  rw [lineText, lineText] at h
  rw [parseLine, parseLine, h]

/-- A line that has a prefix says the same wherever it stands. -/
theorem parseLine_of_hasPrefix {raw : List Char} (h : hasPrefix raw = true) (m n : Nat) :
    parseLine m raw = parseLine n raw := by
  have hcolon : ':' ∈ lineText raw := List.contains_iff_mem.mp h
  have hne : lineText raw ≠ [] := List.ne_nil_of_mem hcolon
  have hsplit : splitPrefix (lineText raw) m = splitPrefix (lineText raw) n := by
    obtain ⟨before, body, -, -, hcut⟩ := Text.exists_cut_of_mem hcolon
    simp only [splitPrefix, hcut]
  rw [parseLine_of_stripped (stripped_lineText raw) hne,
    parseLine_of_stripped (stripped_lineText raw) hne, hsplit]

/-- A line that has none is recorded where it stands. -/
theorem parseLine_of_not_hasPrefix {raw : List Char} (h : hasPrefix raw = false)
    (htext : hasText raw = true) {n : Nat} (hn : n < 2 ^ 32) :
    parseLine n raw = (wordsStatement (Text.words (lineText raw))).map fun statement =>
      some ⟨UInt32.ofNat n, statement⟩ := by
  have hcolon : ':' ∉ lineText raw := by
    intro hmem
    rw [hasPrefix, List.contains_iff_mem.mpr hmem] at h
    cases h
  rw [parseLine_of_stripped (stripped_lineText raw) (hasText_iff.mp htext), splitPrefix,
    Text.cut_of_not_mem hcolon]
  dsimp only
  rw [if_pos hn]
  rfl

/-- Every line that has a statement says itself at which source line it is recorded. -/
def AllPrefixed (lines : List (List Char)) : Prop :=
  ∀ raw ∈ lines, ∀ n placed, parseLine n raw = .ok (some placed) → hasPrefix raw = true

theorem allPrefixed_of_forall {lines : List (List Char)}
    (h : ∀ raw ∈ lines, hasPrefix raw = true) : AllPrefixed lines := by
  intro raw hmem n placed hparse
  exact h raw hmem

/-- Whether lines have prefixes is said by their texts. -/
theorem allPrefixed_texts_iff {lines : List (List Char)} :
    AllPrefixed (texts lines) ↔ AllPrefixed lines := by
  constructor
  · intro h raw hmem n placed hparse
    have htext : hasText raw = true := by
      cases htext : hasText raw with
      | false =>
        rw [parseLine_of_not_hasText htext] at hparse
        cases hparse
      | true => rfl
    have hmem' : lineText raw ∈ texts lines := by
      refine List.mem_filter.mpr ⟨List.mem_map_of_mem hmem, ?_⟩
      simpa using hasText_iff.mp htext
    rw [← parseLine_congr (lineText_lineText raw)] at hparse
    rw [hasPrefix, ← lineText_lineText, ← hasPrefix]
    exact h _ hmem' n placed hparse
  · intro h text hmem n placed hparse
    obtain ⟨raw, hraw, rfl⟩ := List.mem_map.mp (List.mem_filter.mp hmem).1
    rw [parseLine_congr (lineText_lineText raw)] at hparse
    rw [hasPrefix, lineText_lineText, ← hasPrefix]
    exact h raw hraw n placed hparse

/-! ## 3. A line further down -/

/-- What the statement of line `number` becomes when its line stands `shift` lines further down.
Without a prefix it is recorded at the line of the listing, in both places. -/
inductive Moved (shift : Nat) (raw : List Char) (number : Nat) : Placed → Placed → Prop where
  | prefixed {placed : Placed} : hasPrefix raw = true → Moved shift raw number placed placed
  | listed {line line' : Line} {statement : Statement} : hasPrefix raw = false →
    line.toNat = number → line'.toNat = number + shift →
      Moved shift raw number ⟨line, statement⟩ ⟨line', statement⟩

theorem Moved.statement_eq {shift number : Nat} {raw : List Char} {placed placed' : Placed}
    (h : Moved shift raw number placed placed') : placed'.statement = placed.statement := by
  cases h with
  | prefixed => rfl
  | listed => rfl

/-- **A line further down** is passed over, has its fault, or has its statement, as before. -/
theorem parseLine_add {number shift : Nat} (raw : List Char) (h : number + shift < 2 ^ 32) :
    (hasText raw = false ∧ ∀ n, parseLine n raw = .ok none) ∨
      (∃ fault, parseLine number raw = .error fault ∧
        parseLine (number + shift) raw = .error fault) ∨
      (hasText raw = true ∧ ∃ placed placed', Moved shift raw number placed placed' ∧
        parseLine number raw = .ok (some placed) ∧
        parseLine (number + shift) raw = .ok (some placed')) := by
  cases htext : hasText raw with
  | false => exact .inl ⟨rfl, fun n => parseLine_of_not_hasText htext⟩
  | true =>
    right
    cases hprefix : hasPrefix raw with
    | true =>
      have hsame := parseLine_of_hasPrefix hprefix (number + shift) number
      rcases parseLine_of_hasText (n := number) htext with ⟨fault, hparse, -⟩ | ⟨placed, hparse⟩
      · exact .inl ⟨fault, hparse, hsame.trans hparse⟩
      · exact .inr ⟨rfl, placed, placed, .prefixed hprefix, hparse, hsame.trans hparse⟩
    | false =>
      have hnumber : number < 2 ^ 32 := Nat.lt_of_le_of_lt (Nat.le_add_right _ _) h
      rw [parseLine_of_not_hasPrefix hprefix htext hnumber,
        parseLine_of_not_hasPrefix hprefix htext h]
      cases wordsStatement (Text.words (lineText raw)) with
      | error fault => exact .inl ⟨fault, rfl, rfl⟩
      | ok statement =>
        have hline := UInt32.toNat_ofNat_of_lt' hnumber
        have hline' := UInt32.toNat_ofNat_of_lt' h
        exact .inr ⟨rfl, _, _, .listed hprefix hline hline', rfl, rfl⟩

/-- The statements of the first of these lines, and what they become `shift` lines further down. -/
inductive Moves (shift : Nat) :
    List (List Char × Nat) → List Placed → List Placed → Prop where
  | nil {lines : List (List Char × Nat)} : Moves shift lines [] []
  | cons {raw : List Char} {number : Nat} {lines : List (List Char × Nat)}
    {placed placed' : Placed} {statements statements' : List Placed} :
    parseLine number raw = .ok (some placed) → Moved shift raw number placed placed' →
    Moves shift lines statements statements' →
      Moves shift ((raw, number) :: lines) (placed :: statements) (placed' :: statements')

end Listing

/-! ## 4. Chunks that are equal but for their lines -/

namespace Chunk

open Listing

variable {c d : Chunk}

/-- Equal code and constants, with equal capacities. -/
structure SameCode (c d : Chunk) : Prop where
  code_eq : d.code = c.code
  constants_eq : d.constants = c.constants

theorem SameCode.refl (c : Chunk) : SameCode c c := ⟨rfl, rfl⟩

theorem SameCode.writeByte (h : SameCode c d) (byte : UInt8) (line line' : Line) :
    SameCode (c.writeByte byte line).state (d.writeByte byte line').state := by
  rw [state_writeByte, state_writeByte]
  exact ⟨by rw [h.code_eq], h.constants_eq⟩

theorem SameCode.writeBytes (h : SameCode c d) (bytes : List UInt8) (line line' : Line) :
    SameCode (c.writeBytes bytes line).state (d.writeBytes bytes line').state := by
  induction bytes generalizing c d with
  | nil => exact h
  | cons byte bytes ih => exact ih (h.writeByte byte line line')

theorem SameCode.withConstant (h : SameCode c d) (value : Value) :
    SameCode (c.withConstant value) (d.withConstant value) :=
  ⟨h.code_eq, by rw [Chunk.withConstant, Chunk.withConstant, h.constants_eq]⟩

/-- There is room for a statement in both or in neither, at whichever line it is recorded. -/
theorem SameCode.hasRoom_iff (h : SameCode c d) {placed placed' : Placed}
    (hstatement : placed'.statement = placed.statement) :
    d.content.HasRoom placed' ↔ c.content.HasRoom placed := by
  rw [Content.HasRoom, Content.HasRoom, ← constants_size_eq_length, ← constants_size_eq_length,
    h.constants_eq, hstatement]

/-- **A statement has the same effect on both**, at whichever line it is recorded. -/
theorem SameCode.appendStatement (h : SameCode c d) {placed placed' : Placed}
    (hstatement : placed'.statement = placed.statement) :
    SameCode (c.appendStatement placed).state (d.appendStatement placed').state := by
  by_cases hroom : c.content.HasRoom placed
  · obtain ⟨line, statement⟩ := placed
    obtain ⟨line', statement'⟩ := placed'
    obtain rfl : statement' = statement := hstatement
    cases statement' with
    | ret => exact h.writeByte _ line line'
    | constant value =>
      have hlt : c.constants.size < ConstantPool.limit := hasRoom_constant_iff.mp hroom
      have hlt' : d.constants.size < ConstantPool.limit := by rwa [h.constants_eq]
      show SameCode (c.appendConstant value line).state (d.appendConstant value line').state
      rw [(appendConstant_of_lt_limit hlt value line).2,
        (appendConstant_of_lt_limit hlt' value line').2, h.constants_eq]
      exact (h.withConstant value).writeBytes _ line line'
  · have hroom' : ¬ d.content.HasRoom placed' := by rwa [h.hasRoom_iff hstatement]
    rw [appendStatement_of_not_hasRoom hroom, appendStatement_of_not_hasRoom hroom']
    exact h

/-! ## 5. Lines further down -/

/-- The same lines were assembled twice, once as a listing and once `shift` lines further down, into
chunks with the same code. -/
structure Shifts (c d : Chunk) (shift : Nat) (lines : List (List Char × Nat))
    (alone behind : Outcome Chunk (Except Listing.Error Unit)) : Prop where
  /-- A fault is reported `shift` lines further down. -/
  answer_eq : behind.answer = alone.answer.mapError fun e => ⟨e.line + shift, e.fault⟩
  /-- Code and constants are the same. -/
  sameCode : SameCode alone.state behind.state
  /-- So are the statements, but for the lines at which they are recorded. -/
  exists_moves : ∃ statements statements', Moves shift lines statements statements' ∧
    alone.state = c.appended statements ∧ behind.state = d.appended statements'

/-- Nothing is appended from there on. -/
theorem Shifts.pure (h : SameCode c d) {shift : Nat} (lines : List (List Char × Nat))
    {alone behind : Except Listing.Error Unit}
    (hanswer : behind = alone.mapError fun e => ⟨e.line + shift, e.fault⟩) :
    Shifts c d shift lines (.pure alone c) (.pure behind d) :=
  ⟨hanswer, h, [], [], .nil, rfl, rfl⟩

/-- A statement is appended, and then what is behind it. -/
theorem Shifts.cons {shift number : Nat} {raw : List Char} {rest : List (List Char)}
    {placed placed' : Placed} (hmoved : Moved shift raw number placed placed')
    (hparse : parseLine number raw = .ok (some placed))
    (hparse' : parseLine (number + shift) raw = .ok (some placed'))
    (hroom : c.content.HasRoom placed) (hroom' : d.content.HasRoom placed')
    (h : Shifts (c.appendStatement placed).state (d.appendStatement placed').state shift
      (textLines (number + 1) rest)
      ((c.appendStatement placed).state.assembleLines (number + 1) rest)
      ((d.appendStatement placed').state.assembleLines (number + shift + 1) rest)) :
    Shifts c d shift ((raw, number) :: textLines (number + 1) rest)
      (c.assembleLines number (raw :: rest)) (d.assembleLines (number + shift) (raw :: rest)) := by
  obtain ⟨hanswer, hsame, statements, statements', hmoves, hstate, hstate'⟩ := h
  obtain ⟨hanswers, hstates⟩ := assembleLines_of_hasRoom hparse hroom rest
  obtain ⟨hanswers', hstates'⟩ := assembleLines_of_hasRoom hparse' hroom' rest
  refine ⟨?_, ?_, placed :: statements, placed' :: statements', .cons hparse hmoved hmoves, ?_, ?_⟩
  · rw [hanswers, hanswers', hanswer]
  · rw [hstates, hstates']
    exact hsame
  · rw [hstates, hstate]
    rfl
  · rw [hstates', hstate']
    rfl

/-- **Lines further down** are assembled to the same code, and to a fault further down. -/
theorem shifts_assembleLines (h : SameCode c d) (number shift : Nat) (lines : List (List Char))
    (hbound : number + shift + lines.length ≤ 2 ^ 32) :
    Shifts c d shift (textLines number lines) (c.assembleLines number lines)
      (d.assembleLines (number + shift) lines) := by
  induction lines generalizing c d number with
  | nil => exact .pure h _ rfl
  | cons raw rest ih =>
    rw [List.length_cons] at hbound
    have hnext : number + shift + 1 = number + 1 + shift := by omega
    have hrest : number + 1 + shift + rest.length ≤ 2 ^ 32 := by omega
    have hline : number + shift < 2 ^ 32 := by omega
    rw [textLines_cons]
    rcases parseLine_add raw hline with
      ⟨htext, hparse⟩ | ⟨fault, hparse, hparse'⟩ | ⟨htext, placed, placed', hmoved, hparse, hparse'⟩
    · simp only [assembleLines, hparse, htext, hnext]
      exact ih h (number + 1) hrest
    · simp only [assembleLines, hparse, hparse']
      exact .pure h _ rfl
    · rw [htext, if_pos rfl]
      have hstatement := hmoved.statement_eq
      by_cases hroom : c.content.HasRoom placed
      · have hroom' : d.content.HasRoom placed' := (h.hasRoom_iff hstatement).mpr hroom
        refine .cons hmoved hparse hparse' hroom hroom' ?_
        rw [hnext]
        exact ih (h.appendStatement hstatement) (number + 1) hrest
      · have hroom' : ¬ d.content.HasRoom placed' := by rwa [h.hasRoom_iff hstatement]
        rw [(BadLine.refused hparse hroom).assembleLines_eq,
          (BadLine.refused hparse' hroom').assembleLines_eq]
        refine .pure h _ ?_
        rw [h.constants_eq]
        rfl

/-! ## 6. Lines with prefixes -/

/-- The same chunk is left, with a fault or without. -/
structure SameEnd (a b : Outcome Chunk (Except Listing.Error Unit)) : Prop where
  state_eq : a.state = b.state
  ok_iff : a.answer = .ok () ↔ b.answer = .ok ()

theorem SameEnd.symm {a b : Outcome Chunk (Except Listing.Error Unit)} (h : SameEnd a b) :
    SameEnd b a := ⟨h.state_eq.symm, h.ok_iff.symm⟩

theorem SameEnd.trans {a b o : Outcome Chunk (Except Listing.Error Unit)} (h : SameEnd a b)
    (h' : SameEnd b o) : SameEnd a o :=
  ⟨h.state_eq.trans h'.state_eq, h.ok_iff.trans h'.ok_iff⟩

/-- Two faults of the next lines leave the chunk as it is. -/
theorem sameEnd_of_badLine {raw raw' : List Char} {e e' : Listing.Error} (h : BadLine c raw e)
    (h' : BadLine c raw' e') (rest rest' : List (List Char)) :
    SameEnd (c.assembleLines e.line (raw :: rest)) (c.assembleLines e'.line (raw' :: rest')) := by
  rw [h.assembleLines_eq, h'.assembleLines_eq]
  exact ⟨rfl, iff_of_false nofun nofun⟩

/-- The same statement of the next lines is appended, if there is room, and then what is behind. -/
theorem sameEnd_of_statement {raw raw' : List Char} {rest rest' : List (List Char)} {m n : Nat}
    {placed : Placed} (hparse : parseLine m raw = .ok (some placed))
    (hparse' : parseLine n raw' = .ok (some placed))
    (h : ∀ d : Chunk, SameEnd (d.assembleLines (m + 1) rest) (d.assembleLines (n + 1) rest')) :
    SameEnd (c.assembleLines m (raw :: rest)) (c.assembleLines n (raw' :: rest')) := by
  by_cases hroom : c.content.HasRoom placed
  · obtain ⟨hanswers, hstates⟩ := assembleLines_of_hasRoom hparse hroom rest
    obtain ⟨hanswers', hstates'⟩ := assembleLines_of_hasRoom hparse' hroom rest'
    obtain ⟨hstate, hok⟩ := h (c.appendStatement placed).state
    refine ⟨?_, ?_⟩
    · rw [hstates, hstates', hstate]
    · rw [hanswers, hanswers', hok]
  · exact sameEnd_of_badLine (.refused hparse hroom) (.refused hparse' hroom) rest rest'

/-- **With prefixes only the texts of the lines count.** -/
theorem sameEnd_texts {lines : List (List Char)} (h : AllPrefixed lines) (c : Chunk) (m n : Nat) :
    SameEnd (c.assembleLines m lines) (c.assembleLines n (texts lines)) := by
  induction lines generalizing c m n with
  | nil => exact ⟨rfl, Iff.rfl⟩
  | cons raw rest ih =>
    obtain ⟨hraw, hrest⟩ := List.forall_mem_cons.mp h
    rw [texts_cons]
    cases htext : hasText raw with
    | false =>
      rw [if_neg Bool.false_ne_true]
      simp only [assembleLines, parseLine_of_not_hasText htext]
      exact ih hrest c (m + 1) n
    | true =>
      rw [if_pos rfl]
      have hparses := parseLine_congr (lineText_lineText raw) n
      have hsame : ∀ {i j : Nat} {placed : Placed}, parseLine i raw = .ok (some placed) →
          parseLine j raw = .ok (some placed) := by
        intro i j placed hparse
        exact (parseLine_of_hasPrefix (hraw i placed hparse) j i).trans hparse
      -- without a prefix there is a fault, which may be another one in another line
      rcases parseLine_of_hasText (n := m) htext with ⟨fault, hparse, -⟩ | ⟨placed, hparse⟩
      · rcases parseLine_of_hasText (n := n) htext with ⟨fault', hparse', -⟩ | ⟨placed, hparse'⟩
        · exact sameEnd_of_badLine (.unread hparse) (.unread (hparses.trans hparse')) rest _
        · rw [hsame hparse'] at hparse
          cases hparse
      · exact sameEnd_of_statement hparse (hparses.trans (hsame hparse))
          fun d => ih hrest d (m + 1) (n + 1)

theorem sameEnd_of_texts_eq {lines lines' : List (List Char)} (h : AllPrefixed lines)
    (htexts : texts lines' = texts lines) (c : Chunk) (m n : Nat) :
    SameEnd (c.assembleLines m lines') (c.assembleLines n lines) := by
  have h' : AllPrefixed lines' := by
    rw [← allPrefixed_texts_iff, htexts, allPrefixed_texts_iff]
    exact h
  have hsame := sameEnd_texts h' c m 1
  rw [htexts] at hsame
  exact hsame.trans (sameEnd_texts h c n 1).symm

end Chunk

/-! ## 7. Lines without a statement -/

namespace Listing

/-- One line that is blank or only a comment. -/
structure SaysNothing (line : List Char) : Prop where
  one_line : '\n' ∉ line
  no_text : hasText line = false

/-- One line that says nothing is put into a text: where a line can start, or behind its end. -/
inductive InsertsLine : List Char → List Char → Prop where
  | between {front line rest : List Char} : Text.AtLineStart front → SaysNothing line →
    InsertsLine (front ++ rest) (front ++ (line ++ '\n' :: rest))
  | atEnd {front line : List Char} : Text.AtLineStart front → SaysNothing line →
    InsertsLine front (front ++ line)
  | behindEnd {front line : List Char} : SaysNothing line →
    InsertsLine front (front ++ '\n' :: line)

/-- Any number of lines that say nothing are put into a text, anywhere. -/
def Inserted (source other : List Char) : Prop := Relation.ReflTransGen InsertsLine source other

/-- A line feed at the end adds no text. -/
theorem texts_concat_newline (s : List Char) :
    texts (Text.lines (s ++ ['\n'])) = texts (Text.lines s) := by
  rcases Text.lines_concat_newline s with heq | ⟨front, last, hs, heq⟩
  · rw [heq, texts_append]
    exact List.append_nil _
  · rw [heq, hs, texts_append, texts_append, texts_cons, texts_cons, lineText_dropReturn, hasText,
      hasText, ← lineText, ← lineText, lineText_dropReturn]

theorem SaysNothing.texts_eq {line : List Char} (h : SaysNothing line) (rest : List Char) :
    texts (Text.lines (line ++ '\n' :: rest)) = texts (Text.lines rest) := by
  have hnothing : hasText (Text.dropReturn line) = false := by
    rw [hasText, ← lineText, lineText_dropReturn, lineText_eq_nil h.no_text]
    rfl
  rw [Text.lines_append h.one_line, texts_cons, hnothing, if_neg Bool.false_ne_true]

theorem SaysNothing.texts_eq_nil {line : List Char} (h : SaysNothing line) :
    texts (Text.lines line) = [] := by
  rw [← texts_concat_newline, h.texts_eq, Text.lines_nil]
  rfl

/-- **A line that says nothing adds no text.** -/
theorem texts_insertsLine {source other : List Char} (h : InsertsLine source other) :
    texts (Text.lines other) = texts (Text.lines source) := by
  cases h with
  | between hstart hline =>
    rw [Text.lines_append_of_atLineStart hstart, Text.lines_append_of_atLineStart hstart,
      texts_append, texts_append, hline.texts_eq]
  | atEnd hstart hline =>
    rw [Text.lines_append_of_atLineStart hstart, texts_append, hline.texts_eq_nil,
      List.append_nil]
  | behindEnd hline =>
    rw [Text.lines_append_newline, texts_append, texts_concat_newline, hline.texts_eq_nil,
      List.append_nil]

theorem texts_inserted {source other : List Char} (h : Inserted source other) :
    texts (Text.lines other) = texts (Text.lines source) := by
  induction h with
  | refl => rfl
  | tail _ hstep ih => rw [texts_insertsLine hstep, ih]

end Listing

/-! ## 8. Whole listings -/

namespace Chunk

open Listing

/-- Lines that are parsed alike have the same effect. -/
theorem assembleLines_congr {lines lines' : List (List Char)}
    (h : List.Forall₂ (fun line other => ∀ n, parseLine n line = parseLine n other) lines lines')
    (c : Chunk) (number : Nat) : c.assembleLines number lines = c.assembleLines number lines' := by
  induction h generalizing c number with
  | nil => rfl
  | cons hparse _ ih => simp only [assembleLines, hparse number, ih]

/-- A line feed at the end of a listing makes no difference. -/
theorem assembleLines_concat_newline (c : Chunk) (number : Nat) (s : List Char) :
    c.assembleLines number (Text.lines (s ++ ['\n'])) = c.assembleLines number (Text.lines s) := by
  rcases Text.lines_concat_newline s with heq | ⟨front, last, hs, heq⟩
  · rw [heq, assembleLines_append]
    obtain ⟨answer, d, events⟩ := c.assembleLines number (Text.lines s)
    have hnothing : ∀ n, parseLine n [] = .ok none := fun n => parseLine_of_not_hasText rfl
    cases answer with
    | error e => simp only [Outcome.andThen, Outcome.pure, List.append_nil]
    | ok u => simp only [Outcome.andThen, Outcome.pure, assembleLines, hnothing, List.append_nil]
  · have hlast : ∀ (d : Chunk) n,
        d.assembleLines n [Text.dropReturn last] = d.assembleLines n [last] :=
      assembleLines_congr (.cons (parseLine_congr (lineText_dropReturn last)) .nil)
    rw [heq, hs, assembleLines_append, assembleLines_append]
    simp only [hlast]

/-- The number of lines of a listing that a line feed ends. -/
def endedLines (source : String) : Nat := (Text.lines (source ++ "\n").toList).length

/-- Two listings with a line feed between them. -/
def joined (first second : String) : String := first ++ "\n" ++ second

theorem lines_joined (first second : String) :
    Text.lines (joined first second).toList =
      Text.lines (first.toList ++ ['\n']) ++ Text.lines second.toList := by
  rw [← Text.lines_append_newline, joined]
  simp

theorem length_lines_joined (first second : String) :
    (Text.lines (joined first second).toList).length =
      endedLines first + (Text.lines second.toList).length := by
  rw [lines_joined, List.length_append, endedLines]
  simp

/-- The second listing is assembled to what the first one leaves, if that has no fault. -/
theorem assembleLines_joined (c : Chunk) (first second : String) :
    c.assembleLines 1 (Text.lines (joined first second).toList) =
      (c.assembleLines 1 (Text.lines first.toList)).andThen fun answer d =>
        match answer with
        | .error e => .pure (.error e) d
        | .ok () => d.assembleLines (1 + endedLines first) (Text.lines second.toList) := by
  have hlength : (Text.lines (first.toList ++ ['\n'])).length = endedLines first := by
    rw [endedLines]
    simp
  have happend := assembleLines_append c 1 (Text.lines (first.toList ++ ['\n']))
    (Text.lines second.toList)
  rw [assembleLines_concat_newline, hlength] at happend
  rw [lines_joined]
  exact happend

/-- A listing behind another one is assembled to what that one leaves. -/
structure Joins (c : Chunk) (first second : String) : Prop where
  /-- A fault of the first listing is all that there is. -/
  first_fails : ∀ e, (c.assembleInto first).answer = .error e →
    c.assembleInto (joined first second) = c.assembleInto first
  /-- Otherwise the lines of the second are assembled further down. -/
  second_shifts : (c.assembleInto first).answer = .ok () →
    (Text.lines (joined first second).toList).length < 2 ^ 32 →
      Shifts (c.assembleInto first).state (c.assembleInto first).state (endedLines first)
        (textLines 1 (Text.lines second.toList))
        ((c.assembleInto first).state.assembleInto second) (c.assembleInto (joined first second))
  /-- With prefixes in the second listing that makes no difference. -/
  second_prefixed : (c.assembleInto first).answer = .ok () →
    AllPrefixed (Text.lines second.toList) →
      SameEnd (c.assembleInto (joined first second))
        ((c.assembleInto first).state.assembleInto second)

/-- The first listing has no fault: what is behind it is assembled to what it leaves. -/
theorem assembleInto_joined_of_ok {c : Chunk} {first : String}
    (h : (c.assembleInto first).answer = .ok ()) (second : String) :
    (c.assembleInto (joined first second)).answer =
        ((c.assembleInto first).state.assembleLines (endedLines first + 1)
          (Text.lines second.toList)).answer ∧
      (c.assembleInto (joined first second)).state =
        ((c.assembleInto first).state.assembleLines (endedLines first + 1)
          (Text.lines second.toList)).state := by
  rw [answer_assembleInto] at h
  rw [answer_assembleInto, state_assembleInto, state_assembleInto, assembleLines_joined,
    Outcome.answer_andThen, Outcome.state_andThen, h, Nat.add_comm 1]
  exact ⟨rfl, rfl⟩

/-- The first listing has a fault: nothing else happens. -/
theorem assembleInto_joined_of_error {c : Chunk} {first : String} {e : Listing.Error}
    (h : (c.assembleInto first).answer = .error e) (second : String) :
    c.assembleInto (joined first second) = c.assembleInto first := by
  rw [answer_assembleInto] at h
  rw [assembleInto, assembleInto, assembleLines_joined]
  generalize c.assembleLines 1 (Text.lines first.toList) = o at h
  obtain ⟨answer, d, events⟩ := o
  obtain rfl : answer = .error e := h
  simp only [Outcome.andThen, Outcome.pure, List.append_nil]

theorem joins (c : Chunk) (first second : String) : c.Joins first second := by
  refine ⟨?_, ?_, ?_⟩
  · intro e h
    exact assembleInto_joined_of_error h second
  · intro h hbound
    rw [length_lines_joined] at hbound
    obtain ⟨hanswer, hstate⟩ := assembleInto_joined_of_ok h second
    have hshifts := shifts_assembleLines (.refl (c.assembleInto first).state) 1 (endedLines first)
      (Text.lines second.toList) (by omega)
    rw [Nat.add_comm 1] at hshifts
    obtain ⟨hanswers, hsame, hmoves⟩ := hshifts
    refine ⟨?_, ?_, ?_⟩
    · rw [hanswer, answer_assembleInto _ second, hanswers]
    · rw [hstate, state_assembleInto _ second]
      exact hsame
    · rw [hstate, state_assembleInto _ second]
      exact hmoves
  · intro h hall
    obtain ⟨hanswer, hstate⟩ := assembleInto_joined_of_ok h second
    have hsame := sameEnd_of_texts_eq hall rfl (c.assembleInto first).state
      (endedLines first + 1) 1
    refine ⟨?_, ?_⟩
    · rw [hstate, state_assembleInto _ second, hsame.state_eq]
    · rw [hanswer, answer_assembleInto _ second, hsame.ok_iff]

/-- **A listing behind another is assembled to what that one leaves**, and lines that say nothing
make no difference where the others have prefixes. -/
theorem assembleInto_joins (c : Chunk) :
    (∀ first second : String, c.Joins first second) ∧
    (∀ source other : String, AllPrefixed (Text.lines source.toList) →
      Inserted source.toList other.toList →
        SameEnd (c.assembleInto other) (c.assembleInto source)) := by
  refine ⟨joins c, ?_⟩
  intro source other hall hinserted
  have hsame := sameEnd_of_texts_eq hall (texts_inserted hinserted) c 1 1
  refine ⟨?_, ?_⟩
  · rw [state_assembleInto, state_assembleInto, hsame.state_eq]
  · rw [answer_assembleInto, answer_assembleInto, hsame.ok_iff]

/-- A fault in front, a constant behind a return, and a comment between two lines. -/
theorem assembleInto_joins_return :
    empty.assembleInto (joined "BOGUS" "RETURN") = empty.assembleInto "BOGUS" ∧
      Shifts (empty.assembleInto "RETURN\r").state (empty.assembleInto "RETURN\r").state
        (endedLines "RETURN\r") (textLines 1 (Text.lines "; one\nCONSTANT 1\nBOGUS".toList))
        ((empty.assembleInto "RETURN\r").state.assembleInto "; one\nCONSTANT 1\nBOGUS")
        (empty.assembleInto (joined "RETURN\r" "; one\nCONSTANT 1\nBOGUS")) ∧
      SameEnd (empty.assembleInto (joined "RETURN" "7: RETURN"))
        ((empty.assembleInto "RETURN").state.assembleInto "7: RETURN") ∧
      SameEnd (empty.assembleInto "1: RETURN\n;\n7: RETURN")
        (empty.assembleInto "1: RETURN\n7: RETURN") := by
  obtain ⟨hjoins, hinserted⟩ := assembleInto_joins empty
  have hfails := (hjoins "BOGUS" "RETURN").first_fails ⟨1, .unknownMnemonic "BOGUS"⟩
    (by decide +kernel)
  have hshifts := (hjoins "RETURN\r" "; one\nCONSTANT 1\nBOGUS").second_shifts
    (by decide +kernel) (by decide +kernel)
  have hprefixed := (hjoins "RETURN" "7: RETURN").second_prefixed (by decide +kernel)
    (allPrefixed_of_forall (by decide +kernel))
  have hall : AllPrefixed (Text.lines "1: RETURN\n7: RETURN".toList) :=
    allPrefixed_of_forall (by decide +kernel)
  have hline : InsertsLine ("1: RETURN\n".toList ++ "7: RETURN".toList)
      ("1: RETURN\n".toList ++ ([';'] ++ '\n' :: "7: RETURN".toList)) := by
    have hlast : "1: RETURN\n".toList.getLast? = some '\n' := by decide +kernel
    refine .between ?_ ⟨by decide, by decide⟩
    intro c hc
    rw [hlast] at hc
    exact (Option.some.inj hc).symm
  exact ⟨hfails, hshifts, hprefixed, hinserted _ _ hall (.single hline)⟩

end Chunk
end BytecodeTrace
