/-
# Control sequences

A log line is shown without the control sequences of terminals, by which a name could otherwise
colour or overwrite what stands around it.  `shown` keeps the characters that are seen: blanks,
letters, signs and the four layout characters.

The escape character starts a sequence, wherever it stands, and the next character tells its kind:

* a control sequence, behind `[`, ends with a character from `@` to `~`;
* a system command, behind `]`, ends with the bell;
* a device string, behind `P`, and a private string, behind `X`, `^` or `_`, end with a character
  that has the byte `9C` in its encoding;
* any other one ends with its first character that is no intermediate.

Cancel and substitute end every sequence.  A layout character interrupts those of the first and
the last kind: it is kept, and so is what follows, up to a character that is not visible, with
which the sequence goes on; a kept character beyond ASCII ends the sequence.  A sequence without
an end takes everything behind it, the line end included.

`shown_of_visible` says that a text of visible characters is kept as it is.
-/
import BytecodeTrace.Text.Span

namespace BytecodeTrace
namespace Text

/-! ## 1. Classes of characters -/

/-- The character that starts a sequence. -/
def escapeChar : Char := '\x1b'

/-- The character that ends a system command. -/
def bell : Char := '\x07'

/-- The last character of ASCII, which is not seen. -/
def delete : Char := '\x7f'

/-- Cancel and substitute. -/
def isCancel (c : Char) : Bool := c = '\x18' || c = '\x1a'

/-- Tabulator, line feed, form feed and carriage return. -/
def isLayout (c : Char) : Bool := c = '\t' || c = '\n' || c = '\x0c' || c = '\r'

/-- A character below the blank. -/
def isControl (c : Char) : Bool := c.toNat < 0x20

/-- A character from the blank to the slash. -/
def isIntermediate (c : Char) : Bool := 0x20 ≤ c.toNat && c.toNat ≤ 0x2f

/-- A digit, a colon or a semicolon. -/
def isParameter (c : Char) : Bool := 0x30 ≤ c.toNat && c.toNat ≤ 0x3b

/-- A character from the commercial at to the tilde. -/
def isFinal (c : Char) : Bool := 0x40 ≤ c.toNat && c.toNat ≤ 0x7e

/-- A character beyond ASCII. -/
def isWide (c : Char) : Bool := 0x80 ≤ c.toNat

/-- A layout character, or one that is neither a control nor the delete character. -/
def isVisible (c : Char) : Bool := isLayout c || (!isControl c && c ≠ delete)

/-- The byte `9C` is in the encoding of the character. -/
def hasTerminator (c : Char) : Bool := (String.utf8EncodeChar c).contains 0x9c

/-! ## 2. Phases -/

/-- What the next character belongs to. -/
inductive Phase where
  /-- The text itself. -/
  | text
  /-- A sequence of which only the escape character is known. -/
  | escape
  /-- A sequence whose kind is told by intermediates. -/
  | intermediate
  | controlSequence
  | systemCommand
  /-- A device string up to its first character. -/
  | deviceStart
  /-- The parameters of a device string. -/
  | deviceParameter
  /-- The intermediates of a device string. -/
  | deviceIntermediate
  /-- The content of a device string. -/
  | deviceContent
  | privateString
deriving DecidableEq, Repr

namespace Phase

/-- The phase behind the character that tells the kind of a sequence. -/
def ofKind (c : Char) : Phase :=
  match c with
  | '[' => controlSequence
  | ']' => systemCommand
  | 'P' => deviceStart
  | 'X' | '^' | '_' => privateString
  | _ => if isIntermediate c then intermediate else text

/-- The phase behind a character from the blank to the tilde. -/
def afterGraphic (c : Char) : Phase → Phase
  | text => text
  | escape => ofKind c
  | intermediate => if isIntermediate c then intermediate else text
  | controlSequence => if isFinal c then text else controlSequence
  | deviceStart =>
    if isIntermediate c then deviceIntermediate
    else if isFinal c then deviceContent
    else deviceParameter
  | deviceParameter =>
    if isIntermediate c then deviceIntermediate
    else if isParameter c then deviceParameter
    else deviceContent
  | deviceIntermediate => if isIntermediate c then deviceIntermediate else deviceContent
  | phase => phase

/-- The phase behind a character beyond ASCII that is not kept. -/
def afterWide (c : Char) : Phase → Phase
  | deviceContent => if hasTerminator c then text else deviceContent
  | privateString => if hasTerminator c then text else privateString
  | phase => phase

/-- The phase behind the bell. -/
def afterBell : Phase → Phase
  | systemCommand => text
  | phase => phase

/-- A layout character interrupts the sequence. -/
def isInterruptible : Phase → Bool
  | escape | intermediate | controlSequence => true
  | _ => false

end Phase

/-- A phase, and whether it is interrupted. -/
structure Scan where
  phase : Phase
  interrupted : Bool
deriving DecidableEq, Repr

namespace Scan

/-- The start of a text. -/
def start : Scan := ⟨.text, false⟩

/-- Behind a character that is met in the text or in an interruption, and whether it is kept. -/
def afterOpen (c : Char) (s : Scan) : Scan × Bool :=
  if isWide c then (start, true)
  else if isVisible c then (s, true)
  else (⟨s.phase, false⟩, false)

/-- Behind a character that is met in a sequence, and whether it is kept. -/
def afterInside (c : Char) (phase : Phase) : Scan × Bool :=
  if isLayout c && phase.isInterruptible then (⟨phase, true⟩, true)
  else if c = bell then (⟨phase.afterBell, false⟩, false)
  else if isControl c || c = delete then (⟨phase, false⟩, false)
  else if isWide c then (⟨phase.afterWide c, false⟩, false)
  else (⟨phase.afterGraphic c, false⟩, false)

/-- Behind a character, and whether it is kept. -/
def after (c : Char) (s : Scan) : Scan × Bool :=
  if c = escapeChar then (⟨.escape, false⟩, false)
  else if isCancel c then (start, false)
  else if s.interrupted || s.phase = .text then s.afterOpen c
  else afterInside c s.phase

end Scan

/-! ## 3. What is shown -/

/-- The characters that are kept when the text starts in the middle of a scan. -/
def shownFrom (scan : Scan) : List Char → List Char
  | [] => []
  | c :: rest =>
    match scan.after c with
    | (scan, true) => c :: shownFrom scan rest
    | (scan, false) => shownFrom scan rest

/-- A text without control sequences. -/
def shown (s : List Char) : List Char := shownFrom .start s

/-- A visible character of the text is kept, and the text goes on. -/
theorem after_start_of_isVisible {c : Char} (h : isVisible c = true) :
    Scan.start.after c = (.start, true) := by
  have he : c ≠ escapeChar := by rintro rfl; exact absurd h (by decide)
  have hc : isCancel c = false := by
    refine Bool.eq_false_iff.mpr fun hc => ?_
    simp only [isCancel, Bool.or_eq_true, decide_eq_true_eq] at hc
    rcases hc with rfl | rfl <;> exact absurd h (by decide)
  simp [Scan.after, Scan.afterOpen, Scan.start, he, hc, h]

/-- **Visible text is shown as it is.** -/
theorem shown_of_visible {s : List Char} (h : ∀ c ∈ s, isVisible c = true) : shown s = s := by
  induction s with
  | nil => rfl
  | cons c rest ih =>
    rw [shown, shownFrom, after_start_of_isVisible (h c (List.mem_cons_self ..))]
    exact congrArg (c :: ·) (ih fun x hx => h x (List.mem_cons_of_mem _ hx))

end Text
end BytecodeTrace
