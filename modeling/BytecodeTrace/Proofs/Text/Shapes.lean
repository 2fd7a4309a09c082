/-
# What cutting, trimming and splitting into words mean

Each of the three is a function on characters; here is the relation that it computes, said of the
text and its parts and not of how they are found.

* `upTo_iff`: the part in front of the first character of a kind;
* `trimmed_iff`: a text without the blanks at its ends;
* `spaced_iff`: words with blanks between them.

So the parts exist for every text, and they are unique.
-/
import BytecodeTrace.Proofs.Number.Digits
import BytecodeTrace.Proofs.Text.Pieces

namespace BytecodeTrace
namespace Text

/-! ## 1. The part in front -/

/-- The part of a text in front of its first `c`, or the whole text if it has none. -/
inductive UpTo (c : Char) : List Char → List Char → Prop where
  | whole {s : List Char} : c ∉ s → UpTo c s s
  | part {before after : List Char} : c ∉ before → UpTo c (before ++ c :: after) before

/-- A text that has a `c` is cut at its first one. -/
theorem exists_cut_of_mem {c : Char} {s : List Char} (h : c ∈ s) :
    ∃ before after, c ∉ before ∧ s = before ++ c :: after ∧ cut c s = (before, some after) := by
  obtain ⟨before, after, rfl, hbefore⟩ := List.eq_append_cons_of_mem h
  exact ⟨before, after, hbefore, rfl, cut_append hbefore⟩

theorem upTo_iff {c : Char} {s before : List Char} : UpTo c s before ↔ (cut c s).1 = before := by
  constructor
  · intro h
    cases h with
    | whole hs => rw [cut_of_not_mem hs]
    | part hbefore => rw [cut_append hbefore]
  · rintro rfl
    by_cases h : c ∈ s
    · obtain ⟨before, after, hbefore, rfl, hcut⟩ := exists_cut_of_mem h
      rw [hcut]
      exact .part hbefore
    · rw [cut_of_not_mem h]
      exact .whole h

/-- The part in front of a character does not have it. -/
theorem UpTo.not_mem {c : Char} {s before : List Char} (h : UpTo c s before) : c ∉ before := by
  cases h with
  | whole h => exact h
  | part h => exact h

/-! ## 2. Blanks at the ends -/

/-- Nothing but blanks. -/
def Blanks (s : List Char) : Prop := ∀ c ∈ s, isBlank c = true

/-- The second text is the first one without the blanks at its ends. -/
inductive Trimmed : List Char → List Char → Prop where
  | between {left text right : List Char} : Blanks left → Blanks right →
    (∀ c ∈ text.head?, isBlank c = false) → (∀ c ∈ text.getLast?, isBlank c = false) →
      Trimmed (left ++ text ++ right) text

theorem dropWhile_blanks {s : List Char} (h : Blanks s) (t : List Char) :
    (s ++ t).dropWhile isBlank = t.dropWhile isBlank := List.dropWhile_append_of_pos h

theorem dropEndWhile_blanks {s : List Char} (h : Blanks s) (t : List Char) :
    dropEndWhile isBlank (t ++ s) = dropEndWhile isBlank t := by
  have hreverse : Blanks s.reverse := by
    intro c hc
    exact h c (List.mem_reverse.mp hc)
  rw [dropEndWhile, List.reverse_append, dropWhile_blanks hreverse, ← dropEndWhile]

/-- Blanks alone are trimmed away. -/
theorem trim_blanks {s : List Char} (h : Blanks s) : trim s = [] := by
  have hdrop : s.dropWhile isBlank = [] := List.dropWhile_eq_nil_iff.mpr h
  rw [trim, hdrop]
  rfl

/-- What stands between blanks is left. -/
theorem trim_between {left text right : List Char} (hleft : Blanks left) (hright : Blanks right)
    (hhead : ∀ c ∈ text.head?, isBlank c = false)
    (hlast : ∀ c ∈ text.getLast?, isBlank c = false) : trim (left ++ text ++ right) = text := by
  cases text with
  | nil =>
    refine trim_blanks ?_
    intro c hc
    rw [List.append_nil] at hc
    rcases List.mem_append.mp hc with hc | hc
    · exact hleft c hc
    · exact hright c hc
  | cons c text =>
    have hstart : ((c :: text) ++ right).dropWhile isBlank = (c :: text) ++ right :=
      dropWhile_eq_self hhead
    rw [trim, List.append_assoc, dropWhile_blanks hleft, hstart, dropEndWhile_blanks hright,
      dropEndWhile_eq_self hlast]

/-- What is left of a text starts with a character that is not dropped. -/
theorem not_of_mem_head?_dropWhile {s : List Char} {c : Char}
    (h : c ∈ (s.dropWhile isBlank).head?) : isBlank c = false := by
  have hnot := List.head?_dropWhile_not isBlank s
  rwa [Option.mem_def.mp h] at hnot

/-- Every text has its trimmed form. -/
theorem trimmed_trim (s : List Char) : Trimmed s (trim s) := by
  obtain ⟨right, hright, hblanks⟩ := exists_eq_dropEndWhile_append isBlank (s.dropWhile isBlank)
  have hsplit : s.takeWhile isBlank ++ trim s ++ right = s := by
    rw [trim, List.append_assoc, ← hright, List.takeWhile_append_dropWhile]
  have hhead : ∀ c ∈ (trim s).head?, isBlank c = false := by
    intro c hc
    refine not_of_mem_head?_dropWhile (s := s) ?_
    rw [hright, ← trim, List.head?_append, Option.mem_def.mp hc]
    rfl
  have hlast : ∀ c ∈ (trim s).getLast?, isBlank c = false := by
    intro c hc
    rw [trim, dropEndWhile, List.getLast?_reverse] at hc
    exact not_of_mem_head?_dropWhile hc
  have hleft : Blanks (s.takeWhile isBlank) := fun c => List.mem_takeWhile_imp
  have h := Trimmed.between hleft hblanks hhead hlast
  rwa [hsplit] at h

theorem trimmed_iff {s text : List Char} : Trimmed s text ↔ trim s = text := by
  constructor
  · intro h
    cases h with
    | between hleft hright hhead hlast => exact trim_between hleft hright hhead hlast
  · rintro rfl
    exact trimmed_trim s

/-- Blanks behind a text are trimmed away with those at its end. -/
theorem Trimmed.append {s text blanks : List Char} (h : Trimmed s text) (hblanks : Blanks blanks) :
    Trimmed (s ++ blanks) text := by
  cases h with
  | @between left _ right hleft hright hhead hlast =>
    rw [List.append_assoc (left ++ text)]
    refine .between hleft ?_ hhead hlast
    intro c hc
    rcases List.mem_append.mp hc with hc | hc
    · exact hright c hc
    · exact hblanks c hc

/-- A trimmed text is its own trimmed form. -/
theorem Trimmed.self {s text : List Char} (h : Trimmed s text) : Trimmed text text := by
  cases h with
  | between hleft hright hhead hlast =>
    have hself : Trimmed ([] ++ text ++ []) text := .between nofun nofun hhead hlast
    rwa [List.nil_append, List.append_nil] at hself

/-- Trimming adds nothing. -/
theorem Trimmed.mem {s text : List Char} (h : Trimmed s text) {c : Char} (hc : c ∈ text) :
    c ∈ s := by
  cases h with
  | between => exact List.mem_append_left _ (List.mem_append_right _ hc)

/-! ## 3. Words -/

/-- The text consists of these words, with at least one blank between any two of them and any
number of blanks in front of the first one and behind the last one. -/
inductive Spaced : List Char → List (List Char) → Prop where
  | blanks {s : List Char} : Blanks s → Spaced s []
  | word {gap w rest : List Char} {ws : List (List Char)} :
    Blanks gap → IsWord w → (∀ c ∈ rest.head?, isBlank c = true) → Spaced rest ws →
      Spaced (gap ++ w ++ rest) (w :: ws)

/-- Blanks in front of the words make no difference. -/
theorem words_blanks {s : List Char} (h : Blanks s) (t : List Char) :
    words (s ++ t) = words t := by
  induction s with
  | nil => rfl
  | cons c s ih =>
    obtain ⟨hc, hs⟩ := List.forall_mem_cons.mp h
    rw [List.cons_append, words_cons hc, ih hs]

/-- A text is made of its words. -/
theorem spaced_words (s : List Char) : Spaced s (words s) := by
  induction hn : s.length using Nat.strongRecOn generalizing s with
  | ind n ih =>
    cases hdrop : s.dropWhile isBlank with
    | nil =>
      rw [words_eq_nil hdrop]
      exact .blanks (List.dropWhile_eq_nil_iff.mp hdrop)
    | cons c rest =>
      have hc : isBlank c = false := not_of_mem_head?_dropWhile (s := s) (by rw [hdrop]; rfl)
      have hgap : Blanks (s.takeWhile isBlank) := fun c => List.mem_takeWhile_imp
      have hword : IsWord (c :: rest.takeWhile (! isBlank ·)) := by
        refine ⟨List.cons_ne_nil _ _, List.forall_mem_cons.mpr ⟨hc, ?_⟩⟩
        intro d hd
        simpa using List.mem_takeWhile_imp hd
      have hnext : ∀ d ∈ (rest.dropWhile (! isBlank ·)).head?, isBlank d = true := by
        intro d hd
        have hnot := List.head?_dropWhile_not (! isBlank ·) rest
        rw [Option.mem_def.mp hd] at hnot
        simpa using hnot
      have hsplit : s.takeWhile isBlank ++ (c :: rest.takeWhile (! isBlank ·)) ++
          rest.dropWhile (! isBlank ·) = s := by
        rw [List.append_assoc, List.cons_append, List.takeWhile_append_dropWhile, ← hdrop,
          List.takeWhile_append_dropWhile]
      have hshorter : (rest.dropWhile (! isBlank ·)).length < n := by
        rw [← hn, ← hsplit]
        simp only [List.length_append, List.length_cons]
        omega
      have h := Spaced.word hgap hword hnext (ih _ hshorter _ rfl)
      rw [hsplit, ← words_eq_cons hdrop] at h
      exact h

theorem spaced_iff {s : List Char} {ws : List (List Char)} : Spaced s ws ↔ words s = ws := by
  constructor
  · intro h
    induction h with
    | blanks hs => exact words_eq_nil (List.dropWhile_eq_nil_iff.mpr hs)
    | word hgap hw hrest _ ih =>
      rw [List.append_assoc, words_blanks hgap, words_append hw.ne_nil hw.not_blank hrest, ih]
  · rintro rfl
    exact spaced_words s

end Text
end BytecodeTrace
