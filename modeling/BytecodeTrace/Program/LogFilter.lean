/-
# Log filters

A filter decides which events are shown.  It is written as directives between commas, each of
them a level, a target, or a target and a level with `=` between them, and, behind a slash, a text
that the message has to contain.

An event follows the directive with the longest target that its own target starts with; a
directive without target applies to all.  A filter without directives shows errors only.
-/
import BytecodeTrace.Event
import BytecodeTrace.Text.Blank

namespace BytecodeTrace

/-- The events of a target up to a level; without a level, none. -/
structure Directive where
  target : Option String
  level : Option Level
deriving DecidableEq, Repr

/-- What is shown of the events. -/
structure LogFilter where
  directives : List Directive
  /-- A text that shown messages contain. -/
  pattern : Option String
deriving DecidableEq, Repr

namespace LogFilter

/-! ## 1. Reading -/

/-- The pieces of a text between separators, at least one. -/
def pieces (separator : Char) (s : List Char) : List (List Char) :=
  s.foldr (fun c acc =>
      if c = separator then [] :: acc
      else
        match acc with
        | [] => [[c]]
        | piece :: rest => (c :: piece) :: rest)
    [[]]

/-- The level of a word, in any case; `off` is no level. -/
def readLevel? (s : List Char) : Option (Option Level) :=
  let word := s.map Char.toUpper
  if word = "OFF".toList then some none
  else (Level.all.find? fun level => level.name.toList = word).map some

/-- One directive, or the text to complain about. -/
def readDirective (s : List Char) : Except String Directive :=
  match pieces '=' s with
  | [word] =>
    match readLevel? word with
    | some level => .ok ⟨none, level⟩
    | none => .ok ⟨some (String.ofList word), some .trace⟩
  | [target, level] =>
    let level := Text.trim level
    if level.isEmpty then .ok ⟨some (String.ofList target), some .trace⟩
    else
      match readLevel? level with
      | some level => .ok ⟨some (String.ofList target), level⟩
      | none => .error s!"invalid logging spec '{String.ofList level}'"
  | _ => .error s!"invalid logging spec '{String.ofList s}'"

/-- A directive replaces an earlier one of the same target. -/
def addDirective (directives : List Directive) (d : Directive) : List Directive :=
  if directives.any fun old => old.target = d.target then
    directives.map fun old => if old.target = d.target then d else old
  else directives ++ [d]

/-- The directives between commas, and the complaints about those that cannot be read. -/
def readDirectives (s : List Char) : List Directive × List String :=
  let texts := ((pieces ',' s).map Text.trim).filter fun text => !text.isEmpty
  texts.foldl (fun (directives, complaints) text =>
      match readDirective text with
      | .ok d => (addDirective directives d, complaints)
      | .error complaint => (directives, complaints ++ [complaint]))
    ([], [])

/-- Without directives, errors are shown. -/
def ofDirectives (directives : List Directive) (pattern : Option String) : LogFilter :=
  ⟨if directives.isEmpty then [⟨none, some .error⟩] else directives, pattern⟩

/-- A filter and the complaints about its text. -/
def read (spec : String) : LogFilter × List String :=
  match pieces '/' spec.toList with
  | [] => (ofDirectives [] none, [])
  | [directives] =>
    let (directives, complaints) := readDirectives directives
    (ofDirectives directives none, complaints)
  | [directives, pattern] =>
    let (directives, complaints) := readDirectives directives
    (ofDirectives directives (some (String.ofList pattern)), complaints)
  | _ => (ofDirectives [] none, [s!"invalid logging spec '{spec}' (too many '/'s)"])

/-! ## 2. Use -/

/-- The directive speaks about this target. -/
def Directive.covers (d : Directive) (target : String) : Bool :=
  match d.target with
  | none => true
  | some name => name.toList.isPrefixOf target.toList

/-- The length of a directive's target. -/
def Directive.reach (d : Directive) : Nat :=
  match d.target with
  | none => 0
  | some name => name.utf8ByteSize

/-- The directive with the longest target that covers this one; of equally long ones the last. -/
def directiveFor? (f : LogFilter) (target : String) : Option Directive :=
  f.directives.foldl (fun best d =>
      if Directive.covers d target then
        match best with
        | some b => if Directive.reach b ≤ Directive.reach d then some d else best
        | none => some d
      else best)
    none

/-- The text occurs in the other one. -/
def occursIn (part : List Char) : List Char → Bool
  | [] => part.isEmpty
  | c :: rest => part.isPrefixOf (c :: rest) || occursIn part rest

/-- The search finds exactly the infixes. -/
theorem occursIn_iff {part s : List Char} : occursIn part s = true ↔ part <:+: s := by
  induction s with
  | nil => simp [occursIn]
  | cons c rest ih =>
    rw [occursIn, Bool.or_eq_true, List.isPrefixOf_iff_prefix, ih, List.infix_cons_iff]

/-- The event is shown. -/
def admits (f : LogFilter) (e : Event) : Bool :=
  let allowed :=
    match f.directiveFor? e.target with
    | some ⟨_, some level⟩ => e.level.rank ≤ level.rank
    | _ => false
  allowed &&
    match f.pattern with
    | none => true
    | some pattern => occursIn pattern.toList e.message.toList

end LogFilter
end BytecodeTrace
