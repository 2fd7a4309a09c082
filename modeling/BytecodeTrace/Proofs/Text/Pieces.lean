/-
# Texts put together from pieces

What trimming, splitting into words and splitting into lines do to a text of which the pieces are
known:

* `trim_eq_self`: nothing is trimmed between characters that are not blank;
* `words_append`: a piece without blanks in front of a blank is the first word;
* `words_flatMap`: so words with a blank in front of each are split apart again;
* `words_column`: and so are words in columns;
* `lines_append`: a piece without a line feed in front of one is the first line;
* `lines_flatMap`: so lines with a line feed behind each are split apart again.
-/
import BytecodeTrace.Text.Blank
import BytecodeTrace.Text.Line
import Mathlib.Data.List.Basic
import Mathlib.Data.List.TakeWhile

namespace BytecodeTrace
namespace Text

/-! ## 1. Ends -/

theorem dropWhile_eq_self {α : Type} {p : α → Bool} {s : List α}
    (h : ∀ x ∈ s.head?, p x = false) : s.dropWhile p = s := by
  cases s with
  | nil => rfl
  | cons x s => rw [List.dropWhile_cons, h x rfl, if_neg Bool.false_ne_true]

theorem dropEndWhile_eq_self {α : Type} {p : α → Bool} {s : List α}
    (h : ∀ x ∈ s.getLast?, p x = false) : dropEndWhile p s = s := by
  have hhead : ∀ x ∈ s.reverse.head?, p x = false := by rwa [List.head?_reverse]
  rw [dropEndWhile, dropWhile_eq_self hhead, List.reverse_reverse]

/-- A text that neither starts nor ends with a blank is trimmed already. -/
theorem trim_eq_self {s : List Char} (hhead : ∀ c ∈ s.head?, isBlank c = false)
    (hlast : ∀ c ∈ s.getLast?, isBlank c = false) : trim s = s := by
  rw [trim, dropWhile_eq_self hhead, dropEndWhile_eq_self hlast]

/-- A text without blanks is trimmed already. -/
theorem trim_eq_self_of_forall {s : List Char} (h : ∀ c ∈ s, isBlank c = false) : trim s = s := by
  refine trim_eq_self ?_ ?_
  · intro c hc
    exact h c (List.mem_of_mem_head? hc)
  · intro c hc
    exact h c (List.mem_of_mem_getLast? hc)

/-! ## 2. Words -/

theorem words_eq_nil {s : List Char} (h : s.dropWhile isBlank = []) : words s = [] := by
  rw [words]
  split
  · rfl
  · rename_i heq
    rw [h] at heq
    cases heq

theorem words_eq_cons {c : Char} {s rest : List Char} (h : s.dropWhile isBlank = c :: rest) :
    words s = (c :: rest.takeWhile (! isBlank ·)) :: words (rest.dropWhile (! isBlank ·)) := by
  rw [words]
  split
  · rename_i heq
    rw [h] at heq
    cases heq
  · rename_i heq
    rw [h] at heq
    obtain ⟨rfl, rfl⟩ := List.cons.inj heq
    rfl

theorem words_nil : words [] = [] := words_eq_nil rfl

/-- A blank in front of the words makes no difference. -/
theorem words_cons {c : Char} (hc : isBlank c = true) (s : List Char) :
    words (c :: s) = words s := by
  have hdrop : (c :: s).dropWhile isBlank = s.dropWhile isBlank := by
    rw [List.dropWhile_cons, hc, if_pos rfl]
  cases hs : s.dropWhile isBlank with
  | nil => rw [words_eq_nil hs, words_eq_nil (hdrop.trans hs)]
  | cons d rest => rw [words_eq_cons hs, words_eq_cons (hdrop.trans hs)]

/-- A piece without blanks is the first word, if a blank or nothing is behind it. -/
theorem words_append {w rest : List Char} (hne : w ≠ []) (hw : ∀ c ∈ w, isBlank c = false)
    (hrest : ∀ c ∈ rest.head?, isBlank c = true) : words (w ++ rest) = w :: words rest := by
  obtain ⟨c, w, rfl⟩ := List.exists_cons_of_ne_nil hne
  have hc : isBlank c = false := hw c (List.mem_cons_self ..)
  have htail : ∀ d ∈ w, (! isBlank d) = true := by
    intro d hd
    rw [hw d (List.mem_cons_of_mem _ hd)]
    rfl
  have hstart : ((c :: w) ++ rest).dropWhile isBlank = c :: (w ++ rest) := by
    rw [List.cons_append, List.dropWhile_cons, hc, if_neg Bool.false_ne_true]
  have hend : rest.takeWhile (! isBlank ·) = [] ∧ rest.dropWhile (! isBlank ·) = rest := by
    cases rest with
    | nil => exact ⟨rfl, rfl⟩
    | cons d rest =>
      have hd := hrest d rfl
      simp [hd]
  rw [words_eq_cons hstart, List.takeWhile_append_of_pos htail,
    List.dropWhile_append_of_pos htail, hend.1, hend.2, List.append_nil]

/-- A word: some characters, none of them blank. -/
structure IsWord (w : List Char) : Prop where
  ne_nil : w ≠ []
  not_blank : ∀ c ∈ w, isBlank c = false

theorem IsWord.of_any {w : List Char} (hne : w ≠ []) (h : w.any isBlank = false) : IsWord w :=
  ⟨hne, fun c hc => by simpa using List.any_eq_false.mp h c hc⟩

/-- Words that were written with a blank in front of each. -/
theorem words_flatMap {ws : List (List Char)} (h : ∀ w ∈ ws, IsWord w) :
    words (ws.flatMap (' ' :: ·)) = ws := by
  induction ws with
  | nil => exact words_nil
  | cons w ws ih =>
    have hw := h w (List.mem_cons_self ..)
    have hrest : ∀ c ∈ (ws.flatMap (' ' :: ·)).head?, isBlank c = true := by
      cases ws with
      | nil => simp
      | cons v ws =>
        intro c hc
        have hc : c = ' ' := by simpa using hc.symm
        rw [hc]
        rfl
    have hws : ∀ v ∈ ws, IsWord v := by
      intro v hv
      exact h v (List.mem_cons_of_mem _ hv)
    rw [List.flatMap_cons, List.cons_append, words_cons rfl,
      words_append hw.ne_nil hw.not_blank hrest, ih hws]

/-- Blanks in front of the words make no difference. -/
theorem words_replicate (n : Nat) (s : List Char) :
    words (List.replicate n ' ' ++ s) = words s := by
  induction n with
  | zero => rfl
  | succ n ih => rw [List.replicate_succ, List.cons_append, words_cons rfl, ih]

/-- A word in a column, with the next column behind it. -/
theorem words_column {w : List Char} (hw : IsWord w) (n : Nat) (rest : List Char) :
    words (List.replicate n ' ' ++ (w ++ ' ' :: rest)) = w :: words rest := by
  have hblank : ∀ c ∈ (' ' :: rest).head?, isBlank c = true := by
    intro c hc
    rw [← Option.some.inj hc]
    rfl
  rw [words_replicate, words_append hw.ne_nil hw.not_blank hblank, words_cons rfl]

/-- A word in the last column. -/
theorem words_lastColumn {w : List Char} (hw : IsWord w) : words w = [w] := by
  have h : words (w ++ []) = w :: words [] := words_append hw.ne_nil hw.not_blank nofun
  rwa [List.append_nil, words_nil] at h

/-- Words with blanks in front of them end with a character that is not blank. -/
theorem not_blank_of_mem_getLast?_flatMap {ws : List (List Char)} (hne : ws ≠ [])
    (h : ∀ w ∈ ws, IsWord w) (s : List Char) :
    ∀ c ∈ (s ++ ws.flatMap (' ' :: ·)).getLast?, isBlank c = false := by
  obtain ⟨front, w, rfl⟩ : ∃ front w, ws = front ++ [w] :=
    ⟨_, _, (List.dropLast_append_getLast hne).symm⟩
  have hw := h w (by simp)
  intro c hc
  have hsplit : s ++ (front ++ [w]).flatMap (' ' :: ·) =
      (s ++ front.flatMap (' ' :: ·) ++ [' ']) ++ w := by simp
  rw [hsplit, List.getLast?_append_of_ne_nil _ hw.ne_nil] at hc
  exact hw.not_blank c (List.mem_of_mem_getLast? hc)

/-! ## 3. Lines -/

theorem lines_nil : lines [] = [] := by
  unfold lines
  rfl

/-- A piece without a line feed is the first line, if a line feed is behind it. -/
theorem lines_append {l : List Char} (h : '\n' ∉ l) (rest : List Char) :
    lines (l ++ '\n' :: rest) = dropReturn l :: lines rest := by
  have hl : ∀ c ∈ l, (c != '\n') = true := by
    intro c hc
    simpa using fun heq : c = '\n' => h (heq ▸ hc)
  have htake : (l ++ '\n' :: rest).takeWhile (· != '\n') = l := by
    rw [List.takeWhile_append_of_pos hl]
    exact List.append_nil l
  have hdrop : (l ++ '\n' :: rest).dropWhile (· != '\n') = '\n' :: rest := by
    rw [List.dropWhile_append_of_pos hl]
    rfl
  obtain ⟨c, s, hcons⟩ : ∃ c s, l ++ '\n' :: rest = c :: s :=
    List.exists_cons_of_ne_nil (by simp)
  rw [hcons] at htake hdrop ⊢
  rw [lines]
  split
  · rename_i heq
    rw [hdrop] at heq
    cases heq
  · rename_i heq
    rw [hdrop] at heq
    obtain ⟨-, rfl⟩ := List.cons.inj heq
    rw [htake]

/-- A line that does not end with a carriage return is kept whole. -/
theorem dropReturn_eq_self {l : List Char} (h : l.getLast? ≠ some '\r') : dropReturn l = l := by
  unfold dropReturn
  split
  · exact absurd ‹_› h
  · rfl

/-- Lines that were written with a line feed behind each. -/
theorem lines_flatMap {ls : List (List Char)} (h : ∀ l ∈ ls, '\n' ∉ l ∧ l.getLast? ≠ some '\r') :
    lines (ls.flatMap (· ++ ['\n'])) = ls := by
  induction ls with
  | nil => exact lines_nil
  | cons l ls ih =>
    obtain ⟨hfeed, hreturn⟩ := h l (List.mem_cons_self ..)
    have hls : ∀ l ∈ ls, '\n' ∉ l ∧ l.getLast? ≠ some '\r' := by
      intro l hl
      exact h l (List.mem_cons_of_mem _ hl)
    rw [List.flatMap_cons, List.append_assoc, List.singleton_append, lines_append hfeed,
      dropReturn_eq_self hreturn, ih hls]

end Text
end BytecodeTrace
