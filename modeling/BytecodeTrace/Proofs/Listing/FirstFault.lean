/-
# Assembly ends at the first bad line

A listing is assembled line by line, and the first line with a fault ends it.  The lines before that
one are kept, the line itself leaves nothing, and the lines behind it are not looked at.

* `Text.firstLines`: a text up to the end of one of its lines;
* `Chunk.assembleLines_append`: lines behind other lines are assembled to what these leave;
* `Chunk.exists_bad_line`: where a fault comes from;
* `Chunk.exists_statements`: what was appended if there is none;
* `Chunk.assembleInto_stops_or_appends`: both for every chunk that can come about.
-/
import BytecodeTrace.Proofs.Chunk.Edit
import BytecodeTrace.Proofs.Text.Pieces
import Mathlib.Data.List.Forall2

namespace BytecodeTrace

/-! ## 1. The first lines of a text -/

namespace Text

/-- The text up to the end of its line `n`, or the whole text if it has no more lines. -/
def firstLines : Nat → List Char → List Char
  | 0, _ => []
  | n + 1, s =>
    match s.dropWhile (· != '\n') with
    | [] => s
    | _ :: rest => s.takeWhile (· != '\n') ++ '\n' :: firstLines n rest

/-- What a text without a line feed, or up to its first one, has as lines. -/
theorem lines_cases (s : List Char) :
    (s.dropWhile (· != '\n') = [] ∧ (lines s).length ≤ 1) ∨
      ∃ first rest, '\n' ∉ first ∧ s = first ++ '\n' :: rest ∧
        s.takeWhile (· != '\n') = first ∧ s.dropWhile (· != '\n') = '\n' :: rest := by
  cases hdrop : s.dropWhile (· != '\n') with
  | nil =>
    left
    refine ⟨rfl, ?_⟩
    cases s with
    | nil => simp [lines_nil]
    | cons c s =>
      rw [lines]
      split
      · exact Nat.le_refl _
      · rename_i heq
        rw [hdrop] at heq
        cases heq
  | cons c rest =>
    right
    have hne : s.dropWhile (· != '\n') ≠ [] := by
      rw [hdrop]
      exact List.cons_ne_nil _ _
    have hfeed : c = '\n' := by
      have hhead := List.head_dropWhile_not (· != '\n') hne
      simp only [hdrop, List.head_cons] at hhead
      simpa using hhead
    subst hfeed
    refine ⟨s.takeWhile (· != '\n'), rest, ?_, ?_, rfl, rfl⟩
    · intro hmem
      simpa using List.mem_takeWhile_imp hmem
    · rw [← hdrop, List.takeWhile_append_dropWhile]

/-- **The first lines of a text**, taken from the text itself. -/
theorem lines_firstLines (n : Nat) (s : List Char) :
    lines (firstLines n s) = (lines s).take n := by
  induction n generalizing s with
  | zero => rw [firstLines, lines_nil, List.take_zero]
  | succ n ih =>
    rcases lines_cases s with ⟨hdrop, hlength⟩ | ⟨first, rest, hfeed, hs, htake, hdrop⟩
    · rw [firstLines, hdrop, List.take_of_length_le (by omega)]
    · rw [firstLines, hdrop]
      simp only [htake]
      rw [lines_append hfeed, ih, hs, lines_append hfeed, List.take_succ_cons]

end Text

/-! ## 2. Lines with a statement -/

namespace Listing

/-- Something is left of the line without its comment and the blanks at its ends. -/
def hasText (raw : List Char) : Bool := !(Text.trim (Text.cut ';' raw).1).isEmpty

/-- The lines that have text, each with its number. -/
def textLines (number : Nat) (lines : List (List Char)) : List (List Char × Nat) :=
  (lines.zipIdx number).filter fun line => hasText line.1

theorem textLines_cons (number : Nat) (raw : List Char) (lines : List (List Char)) :
    textLines number (raw :: lines) =
      if hasText raw then (raw, number) :: textLines (number + 1) lines
      else textLines (number + 1) lines := by
  rw [textLines, List.zipIdx_cons, List.filter_cons]
  rfl

/-- A line without text is passed over. -/
theorem parseLine_of_not_hasText {n : Nat} {raw : List Char} (h : hasText raw = false) :
    parseLine n raw = .ok none := by
  rw [hasText, Bool.not_eq_false'] at h
  rw [parseLine, h, if_pos rfl]

/-- A line with text is a source line and a statement, or has one of their faults. -/
theorem parseLine_of_hasText {n : Nat} {raw : List Char} (h : hasText raw = true) :
    (∃ fault, parseLine n raw = .error fault ∧
      (splitPrefix (Text.trim (Text.cut ';' raw).1) n = .error fault ∨
        ∃ words, wordsStatement words = .error fault)) ∨
      ∃ placed, parseLine n raw = .ok (some placed) := by
  rw [hasText, Bool.not_eq_true'] at h
  rw [parseLine, h, if_neg Bool.false_ne_true]
  cases splitPrefix (Text.trim (Text.cut ';' raw).1) n with
  | error fault => exact .inl ⟨fault, rfl, .inl rfl⟩
  | ok line =>
    obtain ⟨line, body⟩ := line
    cases hwords : wordsStatement (Text.words body) with
    | error fault => exact .inl ⟨fault, by simp [bind, Except.bind, hwords], .inr ⟨_, hwords⟩⟩
    | ok statement => exact .inr ⟨⟨line, statement⟩, by simp [bind, Except.bind, hwords]; rfl⟩

theorem splitPrefix_ne_refused (text : List Char) (n : Nat) (cause : ChunkError) :
    splitPrefix text n ≠ .error (.refused cause) := by
  unfold splitPrefix
  split
  · split <;> simp
  · split <;> simp

theorem namedStatement_ne_refused (name : String) (operand : Option (List Char))
    (cause : ChunkError) : namedStatement name operand ≠ .error (.refused cause) := by
  unfold namedStatement operandStatement
  split
  · split
    · simp
    · simp
    · simp
    · simp
    · split <;> simp
    · split <;> simp
  · simp

theorem wordsStatement_ne_refused (words : List (List Char)) (cause : ChunkError) :
    wordsStatement words ≠ .error (.refused cause) := by
  unfold wordsStatement
  split
  · exact namedStatement_ne_refused _ _ _
  · exact namedStatement_ne_refused _ _ _
  · exact namedStatement_ne_refused _ _ _
  · simp

/-- What is wrong with a line alone is not that a chunk refuses it. -/
theorem parseLine_ne_refused (n : Nat) (raw : List Char) (cause : ChunkError) :
    parseLine n raw ≠ .error (.refused cause) := by
  intro herror
  cases htext : hasText raw with
  | false =>
    rw [parseLine_of_not_hasText htext] at herror
    cases herror
  | true =>
    rcases parseLine_of_hasText (n := n) htext with ⟨fault, hfault, hpart⟩ | ⟨placed, hok⟩
    · obtain rfl : fault = .refused cause := Except.error.inj (hfault.symm.trans herror)
      rcases hpart with hsplit | ⟨words, hwords⟩
      · exact splitPrefix_ne_refused _ _ _ hsplit
      · exact wordsStatement_ne_refused _ _ hwords
    · rw [hok] at herror
      cases herror

end Listing

/-! ## 3. Lines behind lines -/

namespace Outcome

variable {σ α β γ : Type}

theorem pure_andThen (a : α) (s : σ) (next : α → σ → Outcome σ β) :
    (pure a s).andThen next = next a s := by
  simp [pure, andThen]

theorem andThen_assoc (o : Outcome σ α) (f : α → σ → Outcome σ β) (g : β → σ → Outcome σ γ) :
    (o.andThen f).andThen g = o.andThen fun a s => (f a s).andThen g := by
  simp [andThen, List.append_assoc]

end Outcome

namespace Chunk

variable {c : Chunk} {number : Nat} {lines : List (List Char)} {e : Listing.Error}

/-- **Lines behind other lines** are assembled to what these leave, if they have no fault. -/
theorem assembleLines_append (c : Chunk) (number : Nat) (before rest : List (List Char)) :
    c.assembleLines number (before ++ rest) =
      (c.assembleLines number before).andThen fun answer d =>
        match answer with
        | .error e => .pure (.error e) d
        | .ok () => d.assembleLines (number + before.length) rest := by
  induction before generalizing c number with
  | nil =>
    rw [assembleLines, Outcome.pure_andThen]
    rfl
  | cons raw before ih =>
    have hnumber : number + (raw :: before).length = number + 1 + before.length := by
      rw [List.length_cons]
      omega
    rw [List.cons_append, assembleLines, assembleLines, hnumber]
    cases hparse : Listing.parseLine number raw with
    | error fault => simp only [Outcome.pure_andThen]
    | ok statement =>
      cases statement with
      | none => exact ih c (number + 1)
      | some placed =>
        simp only [Outcome.andThen_assoc]
        congr 1
        funext answer d
        cases answer with
        | error cause => simp only [Outcome.pure_andThen]
        | ok u => exact ih d (number + 1)

/-! ## 4. The bad line -/

/-- The line, which comes next behind those that gave the chunk, has the fault: it cannot be read as
a statement, or there is no room for its constant. -/
inductive BadLine (c : Chunk) (raw : List Char) : Listing.Error → Prop where
  | unread {number : Nat} {fault : Listing.Fault} :
    Listing.parseLine number raw = .error fault → BadLine c raw ⟨number, fault⟩
  | refused {number : Nat} {placed : Listing.Placed} :
    Listing.parseLine number raw = .ok (some placed) → ¬ c.content.HasRoom placed →
      BadLine c raw ⟨number, .refused (.poolFull c.constants.size)⟩

/-- A bad line leaves nothing, and whatever is behind it does not matter. -/
theorem BadLine.assembleLines_eq {raw : List Char} (h : BadLine c raw e)
    (rest : List (List Char)) : c.assembleLines e.line (raw :: rest) = .pure (.error e) c := by
  cases h with
  | unread hparse => simp only [assembleLines, hparse]
  | refused hparse hroom =>
    simp only [assembleLines, hparse, appendStatement_of_not_hasRoom hroom, Outcome.pure_andThen]

/-- **One line** is bad, or is passed over, or appends its statement. -/
theorem assembleLines_cons_cases (c : Chunk) (number : Nat) (raw : List Char) :
    (∃ e : Listing.Error, e.line = number ∧ BadLine c raw e) ∨
    (Listing.hasText raw = false ∧ ∀ rest,
      c.assembleLines number (raw :: rest) = c.assembleLines (number + 1) rest) ∨
    (Listing.hasText raw = true ∧ ∃ placed, Listing.parseLine number raw = .ok (some placed) ∧
      (c.appendStatement placed).state.content = c.content.add placed ∧ ∀ rest,
        (c.assembleLines number (raw :: rest)).answer =
          ((c.appendStatement placed).state.assembleLines (number + 1) rest).answer ∧
        (c.assembleLines number (raw :: rest)).state =
          ((c.appendStatement placed).state.assembleLines (number + 1) rest).state) := by
  cases htext : Listing.hasText raw with
  | false =>
    have hparse := Listing.parseLine_of_not_hasText (n := number) htext
    refine .inr (.inl ⟨rfl, fun rest => ?_⟩)
    simp only [assembleLines, hparse]
  | true =>
    rcases Listing.parseLine_of_hasText (n := number) htext with
      ⟨fault, hparse, -⟩ | ⟨placed, hparse⟩
    · exact .inl ⟨⟨number, fault⟩, rfl, .unread hparse⟩
    · by_cases hroom : c.content.HasRoom placed
      · obtain ⟨hanswer, hcontent⟩ := appendStatement_of_hasRoom hroom
        refine .inr (.inr ⟨rfl, placed, hparse, hcontent, fun rest => ?_⟩)
        simp only [assembleLines, hparse, Outcome.answer_andThen, Outcome.state_andThen, hanswer,
          and_self]
      · exact .inl ⟨_, rfl, .refused hparse hroom⟩

/-- **A fault is that of the first bad line.** -/
theorem exists_bad_line (h : (c.assembleLines number lines).answer = .error e) :
    ∃ before raw rest, lines = before ++ raw :: rest ∧ e.line = number + before.length ∧
      (c.assembleLines number before).answer = .ok () ∧
      BadLine (c.assembleLines number before).state raw e := by
  induction lines generalizing c number with
  | nil => cases h
  | cons raw lines ih =>
    rcases c.assembleLines_cons_cases number raw with
      ⟨bad, rfl, hbad⟩ | ⟨-, hskip⟩ | ⟨-, placed, -, -, hnext⟩
    · rw [hbad.assembleLines_eq] at h
      obtain rfl : bad = e := Except.error.inj h
      exact ⟨[], raw, lines, rfl, rfl, rfl, hbad⟩
    · rw [hskip] at h
      obtain ⟨before, last, rest, rfl, hline, hok, hbad⟩ := ih h
      refine ⟨raw :: before, last, rest, rfl, ?_, ?_, ?_⟩
      · rw [hline, List.length_cons]
        omega
      · rw [hskip, hok]
      · rw [hskip]
        exact hbad
    · rw [(hnext lines).1] at h
      obtain ⟨before, last, rest, rfl, hline, hok, hbad⟩ := ih h
      refine ⟨raw :: before, last, rest, rfl, ?_, ?_, ?_⟩
      · rw [hline, List.length_cons]
        omega
      · rw [(hnext before).1, hok]
      · rw [(hnext before).2]
        exact hbad

/-- Whatever is behind the first bad line, the outcome is that of the lines before it with the
fault. -/
theorem assembleLines_append_bad {before : List (List Char)} {raw : List Char}
    (hok : (c.assembleLines number before).answer = .ok ())
    (hbad : BadLine (c.assembleLines number before).state raw e)
    (hline : e.line = number + before.length) (rest : List (List Char)) :
    c.assembleLines number (before ++ raw :: rest) =
      ⟨.error e, (c.assembleLines number before).state,
        (c.assembleLines number before).events⟩ := by
  rw [assembleLines_append, ← hline]
  generalize c.assembleLines number before = o at hok hbad
  obtain ⟨answer, d, events⟩ := o
  obtain rfl : answer = .ok () := hok
  simp only [Outcome.andThen, hbad.assembleLines_eq rest, Outcome.pure, List.append_nil]

/-! ## 5. Without a bad line -/

/-- The chunk to which statements were appended one after the other. -/
def appended (c : Chunk) (statements : List Listing.Placed) : Chunk :=
  statements.foldl (fun d placed => (d.appendStatement placed).state) c

/-- **Without a fault each line with text appends its statement.** -/
theorem exists_statements (h : (c.assembleLines number lines).answer = .ok ()) :
    ∃ statements : List Listing.Placed,
      List.Forall₂ (fun line placed => Listing.parseLine line.2 line.1 = .ok (some placed))
        (Listing.textLines number lines) statements ∧
      (c.assembleLines number lines).state = c.appended statements ∧
      (c.appended statements).content = statements.foldl Content.add c.content := by
  induction lines generalizing c number with
  | nil => exact ⟨[], .nil, rfl, rfl⟩
  | cons raw lines ih =>
    rcases c.assembleLines_cons_cases number raw with
      ⟨bad, rfl, hbad⟩ | ⟨htext, hskip⟩ | ⟨htext, placed, hparse, hcontent, hnext⟩
    · rw [hbad.assembleLines_eq] at h
      cases h
    · rw [hskip] at h ⊢
      obtain ⟨statements, hparsed, hstate⟩ := ih h
      refine ⟨statements, ?_, hstate⟩
      rw [Listing.textLines_cons, htext, if_neg Bool.false_ne_true]
      exact hparsed
    · rw [(hnext lines).1] at h
      obtain ⟨statements, hparsed, hstate, hall⟩ := ih h
      refine ⟨placed :: statements, ?_, ?_, ?_⟩
      · rw [Listing.textLines_cons, htext, if_pos rfl]
        exact .cons hparse hparsed
      · rw [(hnext lines).2, hstate]
        rfl
      · rw [List.foldl_cons, ← hcontent]
        exact hall

/-! ## 6. Whole listings -/

/-- The fault is that of the first bad line of the source, and nothing but the lines before it are
in the chunk that is left. -/
structure StopsAt (c : Chunk) (source : String) (e : Listing.Error) : Prop where
  one_le : 1 ≤ e.line
  le_length : e.line ≤ (Text.lines source.toList).length
  /-- The lines before the bad one assemble. -/
  earlier_ok :
    (c.assembleInto (String.ofList (Text.firstLines (e.line - 1) source.toList))).answer = .ok ()
  /-- They give the chunk that is left, with its runs and its capacities. -/
  earlier_kept : (c.assembleInto source).state =
    (c.assembleInto (String.ofList (Text.firstLines (e.line - 1) source.toList))).state
  /-- Up to the bad line the source has the same fault. -/
  same_fault :
    (c.assembleInto (String.ofList (Text.firstLines e.line source.toList))).answer = .error e
  /-- Behind it there may be anything. -/
  later_ignored : ∀ other : String,
    (Text.lines other.toList).take e.line = (Text.lines source.toList).take e.line →
      c.assembleInto other = c.assembleInto source
  /-- The only reason for a chunk to refuse is that no index is left. -/
  refused_eq : ∀ cause, e.fault = .refused cause → cause = .poolFull (2 ^ 24)

/-- The source was appended: one statement for each of its lines that has text, in their order. -/
structure AppendsLines (c : Chunk) (source : String) : Prop where
  exists_statements : ∃ statements : List Listing.Placed,
    List.Forall₂ (fun line placed => Listing.parseLine line.2 line.1 = .ok (some placed))
      (Listing.textLines 1 (Text.lines source.toList)) statements ∧
    (c.assembleInto source).state = c.appended statements ∧
    (c.assembleInto source).state.content = statements.foldl Content.add c.content

theorem lines_ofList_firstLines (n : Nat) (source : String) :
    Text.lines (String.ofList (Text.firstLines n source.toList)).toList =
      (Text.lines source.toList).take n := by
  rw [String.toList_ofList, Text.lines_firstLines]

/-- A chunk whose parts fit together stops at the first bad line. -/
theorem stopsAt_of_coupled (hc : c.Coupled) {source : String}
    (h : (c.assembleInto source).answer = .error e) : c.StopsAt source e := by
  rw [answer_assembleInto] at h
  obtain ⟨before, raw, rest, hlines, hline, hok, hbad⟩ := exists_bad_line h
  have houtcome := assembleLines_append_bad hok hbad hline
  have hbefore : (Text.lines source.toList).take (e.line - 1) = before := by
    rw [hlines, hline, Nat.add_sub_cancel_left, List.take_left]
  have hupto : (Text.lines source.toList).take e.line = before ++ [raw] := by
    rw [hlines, hline, Nat.add_comm, List.take_length_add_append, List.take_one]
    rfl
  refine ⟨?_, ?_, ?_, ?_, ?_, ?_, ?_⟩
  · omega
  · rw [hlines, hline, List.length_append, List.length_cons]
    omega
  · rw [answer_assembleInto, lines_ofList_firstLines, hbefore, hok]
  · rw [state_assembleInto, state_assembleInto, lines_ofList_firstLines, hbefore, hlines,
      houtcome]
  · rw [answer_assembleInto, lines_ofList_firstLines, hupto, houtcome]
  · intro other hother
    rw [hupto] at hother
    obtain ⟨more, hmore⟩ : ∃ more, Text.lines other.toList = before ++ raw :: more := by
      have hsplit := List.take_append_drop e.line (Text.lines other.toList)
      rw [hother, List.append_assoc, List.singleton_append] at hsplit
      exact ⟨_, hsplit.symm⟩
    rw [assembleInto, assembleInto, hmore, hlines, houtcome, houtcome]
  · intro cause hcause
    have hd : (c.assembleLines 1 before).state.Coupled :=
      invariant_coupled.assembleLines hc 1 before
    cases hbad with
    | unread hparse =>
      simp only at hcause
      rw [hcause] at hparse
      exact absurd hparse (Listing.parseLine_ne_refused _ _ _)
    | refused hparse hroom =>
      simp only [Content.HasRoom, not_or, Nat.not_lt, ← constants_size_eq_length] at hroom
      have hfull : (c.assembleLines 1 before).state.constants.size = 2 ^ 24 :=
        Nat.le_antisymm hd.constants_le hroom.2
      rw [hfull] at hcause
      exact (Listing.Fault.refused.inj hcause).symm

/-- **Assembly stops at the first bad line or appends every line.** -/
theorem assembleInto_stops_or_appends (edits : List Edit) (source : String) :
    (∀ e, ((empty.edited edits).assembleInto source).answer = .error e →
      (empty.edited edits).StopsAt source e) ∧
    (((empty.edited edits).assembleInto source).answer = .ok () →
      (empty.edited edits).AppendsLines source) := by
  refine ⟨fun e => stopsAt_of_coupled (coupled_edited coupled_empty edits), ?_⟩
  intro h
  rw [answer_assembleInto] at h
  obtain ⟨statements, hparsed, hstate, hcontent⟩ := exists_statements h
  refine ⟨statements, hparsed, ?_, ?_⟩
  · rw [state_assembleInto, hstate]
  · rw [state_assembleInto, hstate, hcontent]

/-- Behind a single byte, an unknown mnemonic in the fourth line; without it two statements. -/
theorem assembleInto_stops_at_unknown_mnemonic :
    (empty.edited [.byte 0xEE 3]).StopsAt
        "RETURN ; one\n\n7: CONSTANT 2\r\nBOGUS 1\nRETURN" ⟨4, .unknownMnemonic "BOGUS"⟩ ∧
      (empty.edited [.byte 0xEE 3]).AppendsLines "RETURN ; one\n\n7: CONSTANT 2" := by
  obtain ⟨hstops, -⟩ := assembleInto_stops_or_appends [.byte 0xEE 3]
    "RETURN ; one\n\n7: CONSTANT 2\r\nBOGUS 1\nRETURN"
  obtain ⟨-, happends⟩ := assembleInto_stops_or_appends [.byte 0xEE 3]
    "RETURN ; one\n\n7: CONSTANT 2"
  exact ⟨hstops _ (by decide +kernel), happends (by decide +kernel)⟩

end Chunk
end BytecodeTrace
