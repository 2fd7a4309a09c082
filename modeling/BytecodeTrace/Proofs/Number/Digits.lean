/-
# Digits and the characters of numbers

What a list of decimal digits stands for, and what zeros at its ends do to that number; and which
characters the texts of numbers are made of.  A text of `isNumberChar`s has no blank, no line feed
and no mark of a listing in it, so it stays in one piece wherever it is put.
-/
import BytecodeTrace.Json.Basic
import BytecodeTrace.Proofs.Text.Pieces
import BytecodeTrace.Value.Text
import Mathlib.Data.List.TakeWhile

namespace BytecodeTrace

/-! ## 1. Digits -/

theorem toList_toString (n : Nat) : (toString n).toList = digitsOf n := Nat.toList_repr

theorem digitsOf_ne_nil (n : Nat) : digitsOf n ≠ [] := Nat.toDigits_ne_nil

theorem isDigit_of_mem_digitsOf {n : Nat} {c : Char} (h : c ∈ digitsOf n) : c.isDigit = true :=
  Nat.isDigit_of_mem_toDigits (by decide) (by decide) h

/-- The digits of a number stand for it. -/
@[simp] theorem ofDigits_digitsOf (n : Nat) : ofDigits (digitsOf n) = n :=
  Nat.ofDigitChars_ten_toDigits

/-- A number has as many digits as `decimalLength` counts. -/
theorem length_digitsOf (n : Nat) : (digitsOf n).length = decimalLength n := by
  have h : ∀ k, 0 < k → ((digitsOf n).length ≤ k ↔ decimalLength n ≤ k) := by
    intro k hk
    rw [decimalLength_le_iff hk]
    exact Nat.length_toDigits_le_iff (by decide) hk
  have h1 := (h _ (decimalLength_pos n)).mpr (Nat.le_refl _)
  have h2 := (h _ Nat.length_toDigits_pos).mp (Nat.le_refl _)
  exact Nat.le_antisymm h1 h2

/-- Digits behind others count for less. -/
theorem ofDigits_append (ds es : List Char) :
    ofDigits (ds ++ es) = ofDigits ds * 10 ^ es.length + ofDigits es := by
  show Nat.ofDigitChars 10 (ds ++ es) 0 = _
  rw [Nat.ofDigitChars_append, Nat.ofDigitChars_eq_ofDigitChars_zero, Nat.mul_comm]
  rfl

/-- Zeros stand for zero. -/
@[simp] theorem ofDigits_replicate_zero (k : Nat) : ofDigits (List.replicate k '0') = 0 := by
  show Nat.ofDigitChars 10 (List.replicate k '0') 0 = 0
  rw [Nat.ofDigitChars_replicate_zero, Nat.mul_zero]

/-- What is dropped at the end is a run of what `p` holds of. -/
theorem exists_eq_dropEndWhile_append {α : Type} (p : α → Bool) (s : List α) :
    ∃ t, s = Text.dropEndWhile p s ++ t ∧ ∀ x ∈ t, p x = true := by
  refine ⟨(s.reverse.takeWhile p).reverse, ?_, ?_⟩
  · rw [Text.dropEndWhile, ← List.reverse_append, List.takeWhile_append_dropWhile,
      List.reverse_reverse]
  · intro x hx
    exact List.mem_takeWhile_imp (List.mem_reverse.mp hx)

/-- Only zeros are trimmed. -/
theorem exists_eq_trimZeros_append (ds : List Char) :
    ∃ k, ds = trimZeros ds ++ List.replicate k '0' := by
  obtain ⟨t, ht, hall⟩ := exists_eq_dropEndWhile_append (· == '0') ds
  refine ⟨t.length, ?_⟩
  have hzero : ∀ x ∈ t, x = '0' := by
    intro x hx
    exact beq_iff_eq.mp (hall x hx)
  rw [← List.eq_replicate_of_mem hzero]
  exact ht

theorem mem_of_mem_dropEndWhile {α : Type} {p : α → Bool} {s : List α} {x : α}
    (h : x ∈ Text.dropEndWhile p s) : x ∈ s := by
  obtain ⟨t, ht, -⟩ := exists_eq_dropEndWhile_append p s
  rw [ht]
  exact List.mem_append_left _ h

/-! ## 2. The characters of numbers -/

/-- A digit, a point, a sign or the letter of an exponent. -/
def isNumberChar (c : Char) : Bool :=
  c.isDigit || c == '.' || c == '-' || c == '+' || c == 'e'

/-- All characters are those of numbers. -/
def NumberChars (s : List Char) : Prop := ∀ c ∈ s, isNumberChar c = true

section NumberChars

variable {s t : List Char}

theorem isNumberChar_of_isDigit {c : Char} (h : c.isDigit = true) : isNumberChar c = true := by
  simp [isNumberChar, h]

theorem numberChars_of_isDigit (h : ∀ c ∈ s, c.isDigit = true) : NumberChars s := by
  intro c hc
  exact isNumberChar_of_isDigit (h c hc)

theorem NumberChars.append (hs : NumberChars s) (ht : NumberChars t) : NumberChars (s ++ t) := by
  intro c hc
  rcases List.mem_append.mp hc with hc | hc
  · exact hs c hc
  · exact ht c hc

theorem NumberChars.cons {c : Char} (hc : isNumberChar c = true) (hs : NumberChars s) :
    NumberChars (c :: s) := by
  intro x hx
  rcases List.mem_cons.mp hx with rfl | hx
  · exact hc
  · exact hs x hx

theorem NumberChars.of_subset (hs : NumberChars s) (h : ∀ c ∈ t, c ∈ s) : NumberChars t := by
  intro c hc
  exact hs c (h c hc)

theorem numberChars_digitsOf (n : Nat) : NumberChars (digitsOf n) :=
  numberChars_of_isDigit fun _ => isDigit_of_mem_digitsOf

theorem numberChars_replicate_zero (k : Nat) : NumberChars (List.replicate k '0') := by
  intro c hc
  rw [List.eq_of_mem_replicate hc]
  rfl

theorem NumberChars.leftpad (hs : NumberChars s) (k : Nat) : NumberChars (s.leftpad k '0') :=
  (numberChars_replicate_zero _).append hs

theorem NumberChars.rightpad (hs : NumberChars s) (k : Nat) : NumberChars (s.rightpad k '0') :=
  hs.append (numberChars_replicate_zero _)

theorem NumberChars.trimZeros (hs : NumberChars s) : NumberChars (trimZeros s) :=
  hs.of_subset fun _ => mem_of_mem_dropEndWhile

theorem NumberChars.joinPoint (hs : NumberChars s) (ht : NumberChars t) :
    NumberChars (joinPoint s t) := by
  unfold BytecodeTrace.joinPoint
  split
  · exact hs
  · exact hs.append (.cons (by decide) ht)

end NumberChars

theorem ExponentStyle.numberChars_text (style : ExponentStyle) (x : Int) :
    NumberChars (style.text x) := by
  refine .cons (by decide) (.cons ?_ ((numberChars_digitsOf _).leftpad _))
  split <;> decide

namespace Decimal

theorem numberChars_significantDigits (d : Decimal) : NumberChars d.significantDigits :=
  (numberChars_digitsOf _).trimZeros

theorem numberChars_exponentText (style : ExponentStyle) (d : Decimal) :
    NumberChars (d.exponentText style) := by
  have hds := d.numberChars_significantDigits
  have hfirst : NumberChars (d.significantDigits.take 1) :=
    hds.of_subset fun _ => List.mem_of_mem_take
  have hrest : NumberChars (d.significantDigits.drop 1) :=
    hds.of_subset fun _ => List.mem_of_mem_drop
  exact (hfirst.joinPoint hrest).append (style.numberChars_text _)

theorem numberChars_pointText (d : Decimal) : NumberChars d.pointText := by
  have hds := d.numberChars_significantDigits
  unfold pointText
  simp only
  split
  · exact .cons (by decide) (.cons (by decide) ((numberChars_replicate_zero _).append hds))
  · refine ((hds.of_subset fun _ => List.mem_of_mem_take).rightpad _).append
      (.cons (by decide) ?_)
    split
    · exact numberChars_replicate_zero 1
    · exact hds.of_subset fun _ => List.mem_of_mem_drop

end Decimal

theorem Fraction.numberChars_placesText (x : Fraction) (places : Nat) :
    NumberChars (x.placesText places) := by
  refine (numberChars_digitsOf _).joinPoint ?_
  split
  · exact numberChars_replicate_zero 0
  · exact ((numberChars_digitsOf _).leftpad _).trimZeros

theorem Value.numberChars_fractionText (x : Fraction) : NumberChars (fractionText x) := by
  unfold fractionText
  simp only
  split
  · exact Decimal.numberChars_exponentText _ _
  · exact Fraction.numberChars_placesText _ _

/-- The texts of numbers in listings and JSON have no other characters. -/
theorem Value.numberChars_jsonChars {v : Value} (h : v.isFinite = true) :
    NumberChars v.jsonChars := by
  have hunsigned : ∀ s : List Char, NumberChars s →
      NumberChars (if v.isNegative then '-' :: s else s) := by
    intro s hs
    split
    · exact .cons (by decide) hs
    · exact hs
  simp only [jsonChars, h, Bool.not_true, Bool.false_eq_true, if_false]
  refine hunsigned _ ?_
  split
  · exact .cons (by decide) (.cons (by decide) (numberChars_replicate_zero 1))
  · split
    · exact Decimal.numberChars_pointText _
    · exact Decimal.numberChars_exponentText _ _

/-! ## 3. Texts of numbers are words -/

/-- Visible ASCII characters are not blank. -/
theorem isBlank_of_visible {c : Char} (hlo : 33 ≤ c.toNat) (hhi : c.toNat ≤ 126) :
    Text.isBlank c = false := by
  simp only [Text.isBlank, Text.blankRanges, List.any_cons, List.any_nil]
  simp
  omega

/-- The characters of numbers are visible. -/
theorem visible_of_isNumberChar {c : Char} (h : isNumberChar c = true) :
    33 ≤ c.toNat ∧ c.toNat ≤ 126 := by
  simp only [isNumberChar, Bool.or_eq_true, beq_iff_eq, or_assoc] at h
  rcases h with h | rfl | rfl | rfl | rfl
  · have hdigit := Char.isDigit_iff_toNat.mp h
    simp at hdigit
    omega
  · decide
  · decide
  · decide
  · decide

theorem not_blank_of_isNumberChar {c : Char} (h : isNumberChar c = true) :
    Text.isBlank c = false :=
  isBlank_of_visible (visible_of_isNumberChar h).1 (visible_of_isNumberChar h).2

theorem NumberChars.isWord {s : List Char} (h : NumberChars s) (hne : s ≠ []) : Text.IsWord s :=
  ⟨hne, fun c hc => not_blank_of_isNumberChar (h c hc)⟩

theorem NumberChars.not_mem {s : List Char} (h : NumberChars s) {c : Char}
    (hc : isNumberChar c = false) : c ∉ s := by
  intro hmem
  rw [h c hmem] at hc
  cases hc

end BytecodeTrace
