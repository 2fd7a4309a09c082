/-
# Cutting and filling character lists

The list operations that every text rule of this library is made of: dropping from the end,
cutting at the first occurrence of a character, and filling to a width.
-/
namespace BytecodeTrace
namespace Text

/-- Drops the longest run at the end whose members all satisfy `p`. -/
def dropEndWhile {α : Type} (p : α → Bool) (s : List α) : List α :=
  (s.reverse.dropWhile p).reverse

/-- The part before the first `c`, and the part after it when there is a `c`. -/
def cut (c : Char) (s : List Char) : List Char × Option (List Char) :=
  (s.takeWhile (· != c),
    match s.dropWhile (· != c) with
    | [] => none
    | _ :: rest => some rest)

/-- The parts before and after the last `c`, when there is one. -/
def cutLast (c : Char) (s : List Char) : Option (List Char × List Char) :=
  match cut c s.reverse with
  | (_, none) => none
  | (after, some before) => some (before.reverse, after.reverse)

/-- Without a `c` the whole text is the part before it. -/
theorem cut_of_not_mem {c : Char} {s : List Char} (h : c ∉ s) : cut c s = (s, none) := by
  have key : s.takeWhile (· != c) = s ∧ s.dropWhile (· != c) = [] := by
    induction s with
    | nil => simp
    | cons a s ih =>
      simp only [List.mem_cons, not_or] at h
      have ha : (a != c) = true := by simpa using fun e : a = c => h.1 e.symm
      simp [ha, ih h.2]
  simp [cut, key]

/-- A text whose first part has no `c` is cut right behind that part. -/
theorem cut_append {c : Char} {s t : List Char} (h : c ∉ s) :
    cut c (s ++ c :: t) = (s, some t) := by
  have ht : ∀ x ∈ s, (x != c) = true := fun x hx => by
    simpa using fun e : x = c => h (e ▸ hx)
  simp [cut, List.takeWhile_append_of_pos ht, List.dropWhile_append_of_pos ht]

/-- Without a `c` there is no last one. -/
theorem cutLast_of_not_mem {c : Char} {s : List Char} (h : c ∉ s) : cutLast c s = none := by
  have hreverse : c ∉ s.reverse := by simpa using h
  rw [cutLast, cut_of_not_mem hreverse]

/-- A text whose last part has no `c` is cut right in front of that part. -/
theorem cutLast_append {c : Char} {s t : List Char} (h : c ∉ t) :
    cutLast c (s ++ c :: t) = some (s, t) := by
  have hnone : c ∉ t.reverse := by simpa using h
  have hreverse : (s ++ c :: t).reverse = t.reverse ++ c :: s.reverse := by simp
  rw [cutLast, hreverse, cut_append hnone]
  simp

/-! ## Filling to a width -/

/-- Where a text stands in its column. -/
inductive Alignment where
  | left
  | right
  | center
deriving DecidableEq, Repr

/-- A column of at least `width` characters, filled up with `fill`.  With a `limit` the text is
cut to that many characters before it is placed. -/
structure Column where
  width : Nat
  alignment : Alignment
  limit : Option Nat
  fill : Char
deriving DecidableEq, Repr

namespace Column

/-- The characters in their column.  In the centre, an odd filling character goes to the right. -/
def place (col : Column) (s : List Char) : List Char :=
  let s := match col.limit with
    | none => s
    | some n => s.take n
  match col.alignment with
  | .left => s.rightpad col.width col.fill
  | .right => s.leftpad col.width col.fill
  | .center =>
    (List.replicate ((col.width - s.length) / 2) col.fill ++ s).rightpad col.width col.fill

/-- The text in its column. -/
def text (col : Column) (s : String) : String := String.ofList (col.place s.toList)

end Column
end Text
end BytecodeTrace
