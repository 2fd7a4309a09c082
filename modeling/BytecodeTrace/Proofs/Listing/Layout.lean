/-
# The layout of a listing

Two listings with the same lines up to their layout are assembled alike: comments, blanks around and
between the words, the ends of lines and the case of a mnemonic do not count, and neither does which
of its two mnemonics a constant with an operand is written with.

* `SameWords`, `SameLine`, `SameLayout`: what may differ, said of words, lines and sources;
* `parseLine_of_plain`, `parseLine_of_prefixed`: a line is what its words and its prefix are;
* `parseLine_of_sameLine`: so lines with the same ones are parsed alike, faults included;
* `Chunk.assembleInto_of_sameLayout`: the same answer, the same chunk and the same events.

The blanks are those of Unicode.  All that stands between two line feeds is one line, so a carriage
return counts as a blank wherever it stands, and the one in front of a line feed is no exception.
-/
import BytecodeTrace.Proofs.Listing.Concatenation

namespace BytecodeTrace

/-! ## 1. Blanks that do not count -/

namespace Text

theorem dropWhile_append_cons {c : Char} (hc : isBlank c = false) (s t : List Char) :
    (s ++ c :: t).dropWhile isBlank = s.dropWhile isBlank ++ c :: t := by
  have hstart : (c :: t).dropWhile isBlank = c :: t := by
    rw [List.dropWhile_cons, hc, if_neg Bool.false_ne_true]
  rw [List.dropWhile_append]
  split
  · rename_i hempty
    rw [hstart, List.isEmpty_iff.mp hempty, List.nil_append]
  · rfl

/-- A text is trimmed on both sides of a character that is not blank. -/
theorem trim_append_cons {c : Char} (hc : isBlank c = false) (s t : List Char) :
    trim (s ++ c :: t) = s.dropWhile isBlank ++ c :: dropEndWhile isBlank t := by
  have hreverse : (s.dropWhile isBlank ++ c :: t).reverse =
      t.reverse ++ c :: (s.dropWhile isBlank).reverse := by
    simp
  rw [trim, dropWhile_append_cons hc, dropEndWhile, hreverse, dropWhile_append_cons hc,
    dropEndWhile]
  simp

/-- Blanks behind the words make no difference. -/
theorem Spaced.append {s blanks : List Char} {ws : List (List Char)} (h : Spaced s ws)
    (hblanks : Blanks blanks) : Spaced (s ++ blanks) ws := by
  induction h with
  | blanks hs =>
    refine .blanks ?_
    intro c hc
    rcases List.mem_append.mp hc with hc | hc
    · exact hs c hc
    · exact hblanks c hc
  | @word gap w rest ws hgap hw hrest _ ih =>
    rw [List.append_assoc (gap ++ w)]
    refine .word hgap hw ?_ ih
    intro c hc
    rw [List.head?_append, Option.mem_def, Option.or_eq_some_iff] at hc
    rcases hc with hc | ⟨-, hc⟩
    · exact hrest c hc
    · exact hblanks c (List.mem_of_mem_head? hc)

theorem words_dropEndWhile (s : List Char) : words (dropEndWhile isBlank s) = words s := by
  obtain ⟨blanks, hsplit, hblanks⟩ := exists_eq_dropEndWhile_append isBlank s
  have h := (spaced_words (dropEndWhile isBlank s)).append hblanks
  rw [← hsplit] at h
  exact (spaced_iff.mp h).symm

theorem words_dropWhile (s : List Char) : words (s.dropWhile isBlank) = words s := by
  have hblanks : Blanks (s.takeWhile isBlank) := fun c => List.mem_takeWhile_imp
  rw [← words_blanks hblanks, List.takeWhile_append_dropWhile]

/-- Trimming leaves the words. -/
theorem words_trim (s : List Char) : words (trim s) = words s := by
  rw [trim, words_dropEndWhile, words_dropWhile]

end Text

/-! ## 2. The same up to layout -/

namespace Listing

/-- Words that say the same: equal ones; a mnemonic in letters of another case; and one mnemonic of
a constant for the other, if there is a second word. -/
inductive SameWords : List (List Char) → List (List Char) → Prop where
  | same {words : List (List Char)} : SameWords words words
  | letterCase {first first' : List Char} {rest : List (List Char)} {op : Opcode} :
    Spells first op → Spells first' op → SameWords (first :: rest) (first' :: rest)
  | width {first first' second : List Char} {rest : List (List Char)} {op op' : Opcode} :
    Spells first op → Spells first' op' → op ≠ .ret → op' ≠ .ret →
      SameWords (first :: second :: rest) (first' :: second :: rest)

/-- Lines that differ in nothing but their comments, the blanks at their ends, around the first
colon and between the words of their bodies, and those words as `SameWords` allows. -/
inductive SameLine : List Char → List Char → Prop where
  | plain {line other code code' : List Char} {words words' : List (List Char)} :
    Text.UpTo ';' line code → Text.UpTo ';' other code' → ':' ∉ code → ':' ∉ code' →
    Text.Spaced code words → Text.Spaced code' words' → SameWords words words' →
      SameLine line other
  | prefixed {line other before before' part body body' : List Char}
    {words words' : List (List Char)} :
    Text.UpTo ';' line (before ++ ':' :: body) → Text.UpTo ';' other (before' ++ ':' :: body') →
    ':' ∉ before → ':' ∉ before' → Text.Trimmed before part → Text.Trimmed before' part →
    Text.Spaced body words → Text.Spaced body' words' → SameWords words words' →
      SameLine line other

/-- The end of a line. -/
inductive LineEnd : List Char → Prop where
  | feed : LineEnd ['\n']
  | returnFeed : LineEnd ['\r', '\n']

/-- Sources with as many lines, which differ in nothing but their layout; each line has either end,
and the last one may have none. -/
inductive SameLayout : List Char → List Char → Prop where
  | last {line other ending ending' : List Char} : '\n' ∉ line → '\n' ∉ other →
    SameLine line other → ending = [] ∨ LineEnd ending → ending' = [] ∨ LineEnd ending' →
      SameLayout (line ++ ending) (other ++ ending')
  | line {line other ending ending' rest rest' : List Char} : '\n' ∉ line → '\n' ∉ other →
    SameLine line other → LineEnd ending → LineEnd ending' → SameLayout rest rest' →
      SameLayout (line ++ ending ++ rest) (other ++ ending' ++ rest')

/-! ## 3. Lines by their words -/

/-- A line without a colon is what its words are. -/
theorem parseLine_of_plain {line code : List Char} {words : List (List Char)}
    (hcode : Text.UpTo ';' line code) (hcolon : ':' ∉ code) (hwords : Text.Spaced code words)
    (n : Nat) :
    parseLine n line =
      if words = [] then .ok none
      else if n < 2 ^ 32 then
        (wordsStatement words).map fun statement => some ⟨UInt32.ofNat n, statement⟩
      else .error (.invalidLinePrefix (toString n)) := by
  have hstripped : Stripped line (Text.trim code) := ⟨code, hcode, Text.trimmed_trim code⟩
  have htrim : Text.words (Text.trim code) = words := by
    rw [Text.words_trim, Text.spaced_iff.mp hwords]
  split
  · rename_i hnil
    subst hnil
    cases hwords with
    | blanks hblanks =>
      rw [Text.trim_blanks hblanks] at hstripped
      exact parseLine_of_stripped_nil hstripped
  · rename_i hne
    have htext : Text.trim code ≠ [] := by
      intro hnil
      rw [hnil, Text.words_nil] at htrim
      exact hne htrim.symm
    have hnone : ':' ∉ Text.trim code := fun hmem =>
      hcolon ((Text.trimmed_trim code).mem hmem)
    rw [parseLine_of_stripped hstripped htext, splitPrefix, Text.cut_of_not_mem hnone]
    dsimp only
    split
    · rw [Except.bind, htrim]
    · rfl

/-- A line with a colon is what its prefix and the words behind it are. -/
theorem parseLine_of_prefixed {line before part body : List Char} {words : List (List Char)}
    (hcode : Text.UpTo ';' line (before ++ ':' :: body)) (hcolon : ':' ∉ before)
    (hpart : Text.Trimmed before part) (hwords : Text.Spaced body words) (n : Nat) :
    parseLine n line =
      match readLine? part with
      | some number => (wordsStatement words).map fun statement => some ⟨number, statement⟩
      | none => .error (.invalidLinePrefix (String.ofList part)) := by
  have htrim : Text.trim (before ++ ':' :: body) =
      before.dropWhile Text.isBlank ++ ':' :: Text.dropEndWhile Text.isBlank body :=
    Text.trim_append_cons (by decide) before body
  have hstripped : Stripped line _ := ⟨_, hcode, Text.trimmed_iff.mpr htrim⟩
  have hbefore : ':' ∉ before.dropWhile Text.isBlank := fun hmem =>
    hcolon ((List.dropWhile_suffix _).subset hmem)
  have htrimmed : Text.trim (before.dropWhile Text.isBlank) = part := by
    rw [← Text.trimmed_iff.mp hpart, Text.trim, Text.trim,
      Text.dropWhile_eq_self fun c => Text.not_of_mem_head?_dropWhile]
  have hbody : Text.words (Text.dropEndWhile Text.isBlank body) = words := by
    rw [Text.words_dropEndWhile, Text.spaced_iff.mp hwords]
  rw [parseLine_of_stripped hstripped (by simp), splitPrefix, Text.cut_append hbefore]
  dsimp only
  rw [htrimmed]
  cases readLine? part with
  | none => rfl
  | some number =>
    dsimp only [Except.bind]
    rw [hbody]

/-- **Words that are the same say the same.** -/
theorem wordsStatement_of_sameWords {words words' : List (List Char)} (h : SameWords words words') :
    wordsStatement words = wordsStatement words' := by
  cases h with
  | same => rfl
  | @letterCase first first' rest op hfirst hfirst' =>
    have hnamed := wordsStatement_cons_of_spells hfirst
    have hnamed' := wordsStatement_cons_of_spells hfirst'
    match rest with
    | [] => rw [hnamed.1, hnamed'.1]
    | [operand] => rw [hnamed.2, hnamed'.2]
    | _ :: _ :: _ => rfl
  | @width first first' second rest op op' hfirst hfirst' hop hop' =>
    match rest with
    | [] =>
      rw [(wordsStatement_cons_of_spells hfirst).2, (wordsStatement_cons_of_spells hfirst').2,
        (operandStatement_of_ne_ret hop).2, (operandStatement_of_ne_ret hop').2]
    | _ :: _ => rfl

theorem SameWords.eq_nil_iff {words words' : List (List Char)} (h : SameWords words words') :
    words = [] ↔ words' = [] := by
  cases h with
  | same => rfl
  | letterCase => exact iff_of_false (List.cons_ne_nil _ _) (List.cons_ne_nil _ _)
  | width => exact iff_of_false (List.cons_ne_nil _ _) (List.cons_ne_nil _ _)

/-- **Lines that differ in nothing but their layout are parsed alike**, wherever they stand and with
the same faults. -/
theorem parseLine_of_sameLine {line other : List Char} (h : SameLine line other) (n : Nat) :
    parseLine n line = parseLine n other := by
  cases h with
  | plain hline hother hcolon hcolon' hwords hwords' hsame =>
    rw [parseLine_of_plain hline hcolon hwords, parseLine_of_plain hother hcolon' hwords',
      wordsStatement_of_sameWords hsame]
    simp only [hsame.eq_nil_iff]
  | prefixed hline hother hcolon hcolon' hpart hpart' hwords hwords' hsame =>
    rw [parseLine_of_prefixed hline hcolon hpart hwords,
      parseLine_of_prefixed hother hcolon' hpart' hwords', wordsStatement_of_sameWords hsame]

/-! ## 4. Sources by their lines -/

/-- A line with its end in front of others is the first of the lines, up to a carriage return. -/
theorem exists_lines_eq_cons {line ending : List Char} (h : '\n' ∉ line) (hend : LineEnd ending)
    (rest : List Char) :
    ∃ kept, Text.lines (line ++ ending ++ rest) = kept :: Text.lines rest ∧
      lineText kept = lineText line := by
  cases hend with
  | feed =>
    refine ⟨Text.dropReturn line, ?_, lineText_dropReturn line⟩
    rw [List.append_assoc, List.singleton_append, Text.lines_append h]
  | returnFeed =>
    have hline : '\n' ∉ line ++ ['\r'] := by simp [h]
    have hsplit : line ++ ['\r', '\n'] ++ rest = (line ++ ['\r']) ++ '\n' :: rest := by simp
    refine ⟨Text.dropReturn (line ++ ['\r']), ?_, ?_⟩
    · rw [hsplit, Text.lines_append hline]
    · simp [Text.dropReturn]

end Listing

namespace Chunk

open Listing

/-- The last line of a source, whether it has an end or not. -/
theorem assembleLines_last {line ending : List Char} (h : '\n' ∉ line)
    (hend : ending = [] ∨ LineEnd ending) (c : Chunk) (number : Nat) :
    c.assembleLines number (Text.lines (line ++ ending)) = c.assembleLines number [line] := by
  have hended : ∀ {ending : List Char}, LineEnd ending →
      c.assembleLines number (Text.lines (line ++ ending)) = c.assembleLines number [line] := by
    intro ending hend
    obtain ⟨kept, hlines, htext⟩ := exists_lines_eq_cons h hend []
    rw [List.append_nil, Text.lines_nil] at hlines
    rw [hlines]
    exact assembleLines_congr (.cons (parseLine_congr htext) .nil) c number
  rcases hend with rfl | hend
  · rw [List.append_nil, ← assembleLines_concat_newline]
    exact hended .feed
  · exact hended hend

theorem assembleLines_of_sameLayout {source other : List Char} (h : SameLayout source other)
    (c : Chunk) (number : Nat) :
    c.assembleLines number (Text.lines source) = c.assembleLines number (Text.lines other) := by
  induction h generalizing c number with
  | last hline hother hsame hend hend' =>
    rw [assembleLines_last hline hend, assembleLines_last hother hend']
    exact assembleLines_congr (.cons (parseLine_of_sameLine hsame) .nil) c number
  | line hline hother hsame hend hend' _ ih =>
    obtain ⟨kept, hlines, htext⟩ := exists_lines_eq_cons hline hend _
    obtain ⟨kept', hlines', htext'⟩ := exists_lines_eq_cons hother hend' _
    have hparse : ∀ n, parseLine n kept = parseLine n kept' := by
      intro n
      rw [parseLine_congr htext, parseLine_congr htext', parseLine_of_sameLine hsame]
    rw [hlines, hlines']
    simp only [assembleLines, hparse number, ih]

/-- **The layout of a listing does not matter.**  Sources whose lines differ in nothing but their
layout are assembled into every chunk with the same success, or the same fault of the same line,
and leave the same chunk and the same events. -/
theorem assembleInto_of_sameLayout (c : Chunk) (source other : String)
    (h : SameLayout source.toList other.toList) :
    c.assembleInto source = c.assembleInto other := by
  rw [assembleInto, assembleInto, assembleLines_of_sameLayout h]

/-- Blanks of other kinds, a comment, the other mnemonic, and no end of the line. -/
theorem assembleInto_of_sameLayout_constant :
    SameLayout "\u00a07\t:constant  1.5; one\r\n".toList "7:\u2003CONSTANT_LONG 1.5".toList ∧
      empty.assembleInto "\u00a07\t:constant  1.5; one\r\n" =
        empty.assembleInto "7:\u2003CONSTANT_LONG 1.5" := by
  have hcode : Text.UpTo ';' "\u00a07\t:constant  1.5; one".toList
      ("\u00a07\t".toList ++ ':' :: "constant  1.5".toList) := Text.upTo_iff.mpr (by decide)
  have hcode' : Text.UpTo ';' "7:\u2003CONSTANT_LONG 1.5".toList
      ("7".toList ++ ':' :: "\u2003CONSTANT_LONG 1.5".toList) := Text.upTo_iff.mpr (by decide)
  have hpart : Text.Trimmed "\u00a07\t".toList "7".toList := Text.trimmed_iff.mpr (by decide)
  have hpart' : Text.Trimmed "7".toList "7".toList := Text.trimmed_iff.mpr (by decide)
  have hwords : Text.Spaced "constant  1.5".toList ["constant".toList, "1.5".toList] :=
    Text.spaced_iff.mpr (by decide +kernel)
  have hwords' : Text.Spaced "\u2003CONSTANT_LONG 1.5".toList
      ["CONSTANT_LONG".toList, "1.5".toList] := Text.spaced_iff.mpr (by decide +kernel)
  have hshort : Spells "constant".toList .constant := spells_iff.mpr (by decide)
  have hlong : Spells "CONSTANT_LONG".toList .constantLong := spells_iff.mpr (by decide)
  have hline := SameLine.prefixed hcode hcode' (by decide) (by decide) hpart hpart' hwords hwords'
    (.width hshort hlong nofun nofun)
  have hlayout : SameLayout "\u00a07\t:constant  1.5; one\r\n".toList
      "7:\u2003CONSTANT_LONG 1.5".toList := by
    have hsource : "\u00a07\t:constant  1.5; one\r\n".toList =
        "\u00a07\t:constant  1.5; one".toList ++ ['\r', '\n'] := by decide
    rw [hsource, ← List.append_nil "7:\u2003CONSTANT_LONG 1.5".toList]
    exact .last (by decide) (by decide) hline (.inr .returnFeed) (.inl rfl)
  exact ⟨hlayout, assembleInto_of_sameLayout _ _ _ hlayout⟩

end Chunk
end BytecodeTrace
