/-
# The components of a path and of the path above it

What the components of a path are, and how they relate to those of the directory that it is in:

* `components_append_slash`: a slash parts the components of a path;
* `trimmed`: a path without the slashes and `.` components at its end, which lead nowhere else;
* `exists_of_lastComponent?_eq_some`: a trimmed path is the text up to its last slash and one more
  name;
* `components_of_parent?_eq_some`: so a path has the components of the path above it, one more
  name, and `.` components;
* `components_of_parent?_eq_none`: and where there is no path above, `.` components only.
-/
import BytecodeTrace.Files.Path
import Mathlib.Data.List.Basic
import Mathlib.Data.List.Infix
import Mathlib.Data.List.TakeWhile

namespace BytecodeTrace
namespace Path

/-! ## 1. Components -/

theorem components_eq_nil {path : List Char} (h : path.dropWhile (· == '/') = []) :
    components path = [] := by
  rw [components]
  split
  · rfl
  · rename_i heq
    rw [h] at heq
    cases heq

theorem components_eq_cons {path rest : List Char} {c : Char}
    (h : path.dropWhile (· == '/') = c :: rest) :
    components path =
      (c :: rest.takeWhile (· != '/')) :: components (rest.dropWhile (· != '/')) := by
  rw [components]
  split
  · rename_i heq
    rw [h] at heq
    cases heq
  · rename_i heq
    rw [h] at heq
    obtain ⟨rfl, rfl⟩ := List.cons.inj heq
    rfl

@[simp] theorem components_nil : components [] = [] := components_eq_nil rfl

/-- A slash in front of a path makes no difference to its components. -/
@[simp] theorem components_slash (path : List Char) :
    components ('/' :: path) = components path := by
  have hdrop : ('/' :: path).dropWhile (· == '/') = path.dropWhile (· == '/') := by simp
  cases hs : path.dropWhile (· == '/') with
  | nil => rw [components_eq_nil hs, components_eq_nil (hdrop.trans hs)]
  | cons c rest => rw [components_eq_cons hs, components_eq_cons (hdrop.trans hs)]

/-- A name in front of a slash, or alone, is the first component. -/
theorem components_append {name rest : List Char} (hne : name ≠ []) (hname : '/' ∉ name)
    (hrest : ∀ c ∈ rest.head?, c = '/') :
    components (name ++ rest) = name :: components rest := by
  obtain ⟨c, name, rfl⟩ := List.exists_cons_of_ne_nil hne
  obtain ⟨hc, htail⟩ : '/' ≠ c ∧ '/' ∉ name := by simpa using hname
  have hkeep : ∀ d ∈ name, (d != '/') = true := by
    intro d hd
    simpa using fun heq : d = '/' => htail (heq ▸ hd)
  have hstart : ((c :: name) ++ rest).dropWhile (· == '/') = c :: (name ++ rest) := by
    simp [hc.symm]
  have hend : rest.takeWhile (· != '/') = [] ∧ rest.dropWhile (· != '/') = rest := by
    cases rest with
    | nil => exact ⟨rfl, rfl⟩
    | cons d rest => simp [hrest d rfl]
  rw [components_eq_cons hstart, List.takeWhile_append_of_pos hkeep,
    List.dropWhile_append_of_pos hkeep, hend.1, hend.2, List.append_nil]

/-- A single name is its own component. -/
theorem components_name {name : List Char} (hne : name ≠ []) (hname : '/' ∉ name) :
    components name = [name] := by
  have hnil : ∀ c ∈ ([] : List Char).head?, c = '/' := by simp
  have happend := components_append hne hname hnil
  rwa [List.append_nil, components_nil] at happend

/-- A path is empty, starts with a slash, or starts with a name. -/
theorem components_cases (path : List Char) :
    path = [] ∨ (∃ rest, path = '/' :: rest) ∨
      ∃ name rest, path = name ++ rest ∧ name ≠ [] ∧ '/' ∉ name ∧ ∀ c ∈ rest.head?, c = '/' := by
  cases path with
  | nil => exact .inl rfl
  | cons c path =>
    by_cases hc : c = '/'
    · exact .inr (.inl ⟨path, by rw [hc]⟩)
    · refine .inr (.inr ⟨c :: path.takeWhile (· != '/'), path.dropWhile (· != '/'), ?_, ?_, ?_, ?_⟩)
      · rw [List.cons_append, List.takeWhile_append_dropWhile]
      · exact List.cons_ne_nil _ _
      · rintro (_ | ⟨_, hmem⟩)
        · exact hc rfl
        · simpa using List.mem_takeWhile_imp hmem
      · intro d hd
        have hnot := List.head?_dropWhile_not (· != '/') path
        rw [Option.mem_def] at hd
        rw [hd] at hnot
        simpa using hnot

/-- **A slash parts the components of a path.** -/
theorem components_append_slash (above below : List Char) :
    components (above ++ '/' :: below) = components above ++ components below := by
  -- on the length of the front, from which a slash or a whole name is taken
  induction hn : above.length using Nat.strong_induction_on generalizing above with
  | _ n ih =>
    rcases components_cases above with rfl | ⟨rest, rfl⟩ | ⟨name, rest, rfl, hne, hname, hrest⟩
    · simp
    · have hshort : rest.length < n := by simp [← hn]
      rw [List.cons_append, components_slash, components_slash, ih _ hshort rest rfl]
    · have hshort : rest.length < n := by
        have := List.length_pos_iff.mpr hne
        simp only [← hn, List.length_append]
        omega
      have hhead : ∀ c ∈ (rest ++ '/' :: below).head?, c = '/' := by
        cases rest with
        | nil => simp
        | cons c rest => simpa using hrest
      rw [List.append_assoc, components_append hne hname hhead, ih _ hshort rest rfl,
        components_append hne hname hrest, List.cons_append]

/-- A slash at the end makes no difference either. -/
theorem components_concat_slash (path : List Char) :
    components (path ++ ['/']) = components path := by
  rw [components_append_slash, components_nil, List.append_nil]

/-- Slashes in front of a path make no difference to its components. -/
theorem components_replicate_append (count : Nat) (path : List Char) :
    components (List.replicate count '/' ++ path) = components path := by
  induction count with
  | zero => rfl
  | succ count ih => rw [List.replicate_succ, List.cons_append, components_slash, ih]

theorem components_append_replicate (count : Nat) (path : List Char) :
    components (path ++ List.replicate count '/') = components path := by
  induction count with
  | zero => rw [List.replicate_zero, List.append_nil]
  | succ count ih =>
    rw [List.replicate_succ', ← List.append_assoc, components_concat_slash, ih]

/-- Only slashes have no components. -/
theorem components_eq_nil_iff {path : List Char} :
    components path = [] ↔ ∀ c ∈ path, c = '/' := by
  constructor
  · intro h
    have hdrop : path.dropWhile (· == '/') = [] := by
      cases hs : path.dropWhile (· == '/') with
      | nil => rfl
      | cons c rest => simp [components_eq_cons hs] at h
    simpa using List.dropWhile_eq_nil_iff.mp hdrop
  · intro h
    exact components_eq_nil (List.dropWhile_eq_nil_iff.mpr (by simpa using h))

/-- A component is not empty and has no slash. -/
theorem ne_nil_of_mem_components {path name : List Char} (h : name ∈ components path) :
    name ≠ [] ∧ '/' ∉ name := by
  fun_induction components path with
  | case1 => cases h
  | case2 path c rest hs ih =>
    rcases List.mem_cons.mp h with rfl | h
    · have hc := List.head?_dropWhile_not (· == '/') path
      rw [hs] at hc
      have hc : c ≠ '/' := by simpa using hc
      refine ⟨List.cons_ne_nil _ _, ?_⟩
      rintro (_ | ⟨_, hmem⟩)
      · exact hc rfl
      · simpa using List.mem_takeWhile_imp hmem
    · exact ih h

/-- A path is empty, ends with a slash, or ends with a name. -/
theorem components_cases_last (path : List Char) :
    path = [] ∨ (∃ rest, path = rest ++ ['/']) ∨
      ∃ front last, path = front ++ last ∧ last ≠ [] ∧ '/' ∉ last ∧
        (front = [] ∨ ∃ above, front = above ++ ['/']) := by
  rcases components_cases path.reverse with h | ⟨rest, h⟩ | ⟨name, rest, h, hne, hname, hrest⟩
  · exact .inl (List.reverse_eq_nil_iff.mp h)
  · exact .inr (.inl ⟨rest.reverse, by rw [← List.reverse_cons, ← h, List.reverse_reverse]⟩)
  · refine .inr (.inr ⟨rest.reverse, name.reverse, ?_, ?_, ?_, ?_⟩)
    · rw [← List.reverse_append, ← h, List.reverse_reverse]
    · simpa using hne
    · simpa using hname
    · cases rest with
      | nil => exact .inl rfl
      | cons c rest => exact .inr ⟨rest.reverse, by rw [hrest c rfl, List.reverse_cons]⟩

/-! ## 2. Trimmed paths -/

/-- A path without the slashes and `.` components at its end. -/
def trimmed (path : List Char) : List Char := (dropTail path.reverse).reverse

theorem dropTail_suffix (reversed : List Char) : dropTail reversed <:+ reversed := by
  fun_induction dropTail reversed with
  | case1 => exact List.suffix_refl _
  | case2 rest _ ih => exact ih.trans (List.suffix_cons _ _)
  | case3 rest ih => exact ih.trans (List.suffix_cons _ _)
  | case4 => exact List.suffix_refl _

theorem dropTail_dropTail (reversed : List Char) :
    dropTail (dropTail reversed) = dropTail reversed := by
  fun_induction dropTail reversed with
  | case1 => rfl
  | case2 rest _ ih => exact ih
  | case3 rest ih => exact ih
  | case4 reversed hroot hslash hdot => exact dropTail.eq_4 reversed hroot hslash hdot

/-- The first character of a path stays. -/
theorem getLast?_dropTail (reversed : List Char) :
    (dropTail reversed).getLast? = reversed.getLast? := by
  fun_induction dropTail reversed with
  | case1 => rfl
  | case2 rest hne ih =>
    obtain ⟨c, rest, rfl⟩ := List.exists_cons_of_ne_nil hne
    rw [ih, List.getLast?_cons_cons]
  | case3 rest ih => rw [ih, List.getLast?_cons_cons]
  | case4 => rfl

/-- What is left is empty, the root, or ends with a name. -/
theorem dropTail_cases (reversed : List Char) :
    dropTail reversed = [] ∨ dropTail reversed = ['/'] ∨
      ∃ c rest, dropTail reversed = c :: rest ∧ c ≠ '/' := by
  fun_induction dropTail reversed with
  | case1 => exact .inr (.inl rfl)
  | case2 rest _ ih => exact ih
  | case3 rest ih => exact ih
  | case4 reversed hroot hslash hdot =>
    cases reversed with
    | nil => exact .inl rfl
    | cons c rest =>
      refine .inr (.inr ⟨c, rest, rfl, ?_⟩)
      rintro rfl
      exact hslash rest rfl

theorem trimmed_trimmed (path : List Char) : trimmed (trimmed path) = trimmed path := by
  rw [trimmed, trimmed, List.reverse_reverse, dropTail_dropTail]

theorem isPrefix_trimmed (path : List Char) : trimmed path <+: path := by
  have := List.reverse_prefix.mpr (dropTail_suffix path.reverse)
  rwa [List.reverse_reverse] at this

theorem head?_trimmed (path : List Char) : (trimmed path).head? = path.head? := by
  rw [trimmed, List.head?_reverse, getLast?_dropTail, List.getLast?_reverse]

/-- Trimming takes only `.` components away. -/
theorem components_trimmed (path : List Char) :
    ∃ dots, components path = components (trimmed path) ++ List.replicate dots ['.'] := by
  have key (reversed : List Char) : ∃ dots, components reversed.reverse =
      components (dropTail reversed).reverse ++ List.replicate dots ['.'] := by
    fun_induction dropTail reversed with
    | case1 => exact ⟨0, by simp⟩
    | case2 rest _ ih =>
      obtain ⟨dots, ih⟩ := ih
      exact ⟨dots, by rw [List.reverse_cons, components_append_slash, ih]; simp⟩
    | case3 rest ih =>
      obtain ⟨dots, ih⟩ := ih
      rw [List.reverse_cons, components_concat_slash] at ih
      refine ⟨dots + 1, ?_⟩
      have hdot : components ['.'] = [['.']] := components_name (by decide) (by decide)
      rw [List.reverse_cons, List.reverse_cons, List.append_assoc, List.singleton_append,
        components_append_slash, ih, hdot, List.append_assoc, ← List.replicate_succ']
    | case4 => exact ⟨0, by simp⟩
  obtain ⟨dots, hdots⟩ := key path.reverse
  rw [List.reverse_reverse] at hdots
  exact ⟨dots, hdots⟩

/-! ## 3. The path above -/

/-- **A trimmed path is the text up to its last slash and one more name.** -/
theorem exists_of_lastComponent?_eq_some {path last reversed : List Char}
    (h : lastComponent? path = some (last, reversed)) :
    trimmed path = reversed.reverse ++ last ∧ last ≠ [] ∧ '/' ∉ last ∧
      (reversed.reverse = [] ∨ ∃ above, reversed.reverse = above ++ ['/']) := by
  rw [lastComponent?] at h
  split at h
  · cases h
  · cases h
  · rename_i hempty hroot
    obtain ⟨c, rest, hshape, hc⟩ :=
      ((dropTail_cases path.reverse).resolve_left hempty).resolve_left hroot
    rw [Option.some.injEq, Prod.mk.injEq] at h
    obtain ⟨rfl, rfl⟩ := h
    rw [trimmed, hshape] at *
    refine ⟨?_, ?_, ?_, ?_⟩
    · rw [← List.reverse_append, List.takeWhile_append_dropWhile]
    · simp [hc]
    · intro hmem
      simpa using List.mem_takeWhile_imp (List.mem_reverse.mp hmem)
    · cases hdrop : (c :: rest).dropWhile (· != '/') with
      | nil => exact .inl rfl
      | cons d above =>
        have hd := List.head?_dropWhile_not (· != '/') (c :: rest)
        rw [hdrop] at hd
        have hd : d = '/' := by simpa using hd
        exact .inr ⟨above.reverse, by rw [hd, List.reverse_cons]⟩

/-- The path above a path is the text up to its last slash, trimmed. -/
theorem exists_of_parent?_eq_some {path parent : List Char} (h : parent? path = some parent) :
    ∃ front last, trimmed path = front ++ last ∧ last ≠ [] ∧ '/' ∉ last ∧
      (front = [] ∨ ∃ above, front = above ++ ['/']) ∧ parent = trimmed front := by
  obtain ⟨⟨last, reversed⟩, hlast, rfl⟩ := Option.map_eq_some_iff.mp h
  obtain ⟨htrimmed, hne, hslash, hfront⟩ := exists_of_lastComponent?_eq_some hlast
  exact ⟨_, last, htrimmed, hne, hslash, hfront, by rw [trimmed, List.reverse_reverse]⟩

/-- A name behind the last slash is the last component. -/
theorem components_append_last {front last : List Char}
    (hfront : front = [] ∨ ∃ above, front = above ++ ['/']) (hne : last ≠ [])
    (hlast : '/' ∉ last) : components (front ++ last) = components front ++ [last] := by
  rcases hfront with rfl | ⟨above, rfl⟩
  · simp [components_name hne hlast]
  · rw [List.append_assoc, List.singleton_append, components_append_slash,
      components_concat_slash, components_name hne hlast]

section Parent

variable {path parent : List Char}

/-- The path above is a part of the path, and shorter. -/
theorem prefix_of_parent?_eq_some (h : parent? path = some parent) :
    parent <+: path ∧ parent.length < path.length := by
  obtain ⟨front, last, htrimmed, hne, -, -, rfl⟩ := exists_of_parent?_eq_some h
  have hpath : front ++ last <+: path := htrimmed ▸ isPrefix_trimmed path
  have hfront := isPrefix_trimmed front
  refine ⟨hfront.trans ((List.prefix_append ..).trans hpath), ?_⟩
  have hlast := List.length_pos_iff.mpr hne
  have := hpath.length_le
  rw [List.length_append] at this
  exact Nat.lt_of_le_of_lt hfront.length_le (by omega)

/-- The path above is trimmed. -/
theorem trimmed_of_parent?_eq_some (h : parent? path = some parent) :
    trimmed parent = parent := by
  obtain ⟨front, last, -, -, -, -, rfl⟩ := exists_of_parent?_eq_some h
  exact trimmed_trimmed front

/-- The path above starts where the path starts: at the root if and only if the path does. -/
theorem head?_of_parent?_eq_some (h : parent? path = some parent) :
    parent.head? = some '/' ↔ path.head? = some '/' := by
  obtain ⟨front, last, htrimmed, hne, hlast, hfront, rfl⟩ := exists_of_parent?_eq_some h
  rw [head?_trimmed, ← head?_trimmed path, htrimmed]
  rcases hfront with rfl | ⟨above, rfl⟩
  · obtain ⟨c, last, rfl⟩ := List.exists_cons_of_ne_nil hne
    have hc : c ≠ '/' := fun heq => hlast (heq ▸ List.mem_cons_self ..)
    simp [hc]
  · cases above <;> simp

/-- **The components of a path** are those of the path above it, one more, and `.` components. -/
theorem components_of_parent?_eq_some (h : parent? path = some parent) :
    ∃ before last behind, components path =
      components parent ++ List.replicate before ['.'] ++ [last] ++
        List.replicate behind ['.'] ∧
      (trimmed path = path → behind = 0) := by
  obtain ⟨front, last, htrimmed, hne, hlast, hfront, rfl⟩ := exists_of_parent?_eq_some h
  have hsplit : components (trimmed path) = components front ++ [last] := by
    rw [htrimmed, components_append_last hfront hne hlast]
  obtain ⟨before, hbefore⟩ := components_trimmed front
  by_cases heq : trimmed path = path
  · refine ⟨before, last, 0, ?_, fun _ => rfl⟩
    rw [← heq, hsplit, hbefore, List.replicate_zero, List.append_nil]
  · obtain ⟨behind, hbehind⟩ := components_trimmed path
    refine ⟨before, last, behind, ?_, fun h => absurd h heq⟩
    rw [hbehind, hsplit, hbefore]

/-- A path without a path above it has only `.` components. -/
theorem components_of_parent?_eq_none (h : parent? path = none) :
    ∃ dots, components path = List.replicate dots ['.'] := by
  have hroot : components (trimmed path) = [] := by
    rw [parent?, lastComponent?] at h
    split at h
    · rename_i hempty
      rw [trimmed, hempty, List.reverse_nil, components_nil]
    · rename_i hslash
      rw [trimmed, hslash, List.reverse_singleton, components_slash, components_nil]
    · cases h
  obtain ⟨dots, hdots⟩ := components_trimmed path
  exact ⟨dots, by rw [hdots, hroot, List.nil_append]⟩

end Parent
end Path
end BytecodeTrace
