/-
# JSON texts

JSON values as this library writes them, in two layouts: compact, and indented by two blanks a
level.  Numbers are natural numbers or values; a value is written with the shortest digits that
read back, positionally when the exponent of the leading digit is from -5 to 15, and a value that
is not finite is `null`.
-/
import BytecodeTrace.Value.Shortest

namespace BytecodeTrace

/-! ## 1. Numbers and strings -/

namespace Value

/-- The exponent of a number is written with as many digits as it has. -/
def jsonExponent : ExponentStyle := ⟨1⟩

/-- The JSON text of a value. -/
def jsonChars (v : Value) : List Char :=
  if !v.isFinite then ['n', 'u', 'l', 'l']
  else
    let unsigned :=
      if v.isZero then ['0', '.', '0']
      else
        let d := v.shortest
        if -5 ≤ d.exponent ∧ d.exponent < 16 then d.pointText else d.exponentText jsonExponent
    if v.isNegative then '-' :: unsigned else unsigned

end Value

/-- A JSON value. -/
inductive Json where
  | null
  | natural (n : Nat)
  | number (v : Value)
  | text (s : String)
  | array (items : List Json)
  | object (members : List (String × Json))

namespace Json

/-- One character inside a string. -/
def escape (c : Char) : List Char :=
  match c with
  | '"' => ['\\', '"']
  | '\\' => ['\\', '\\']
  | '\n' => ['\\', 'n']
  | '\r' => ['\\', 'r']
  | '\t' => ['\\', 't']
  | c =>
    if c.toNat = 8 then ['\\', 'b']
    else if c.toNat = 12 then ['\\', 'f']
    else if c.toNat < 32 then
      '\\' :: 'u' :: (Nat.toDigits 16 c.toNat).leftpad 4 '0'
    else [c]

/-- A string in its quotes. -/
def quote (s : String) : List Char := '"' :: s.toList.flatMap escape ++ ['"']

/-! ## 2. The two layouts -/

/-- The start of a new line at a depth. -/
def newLine (depth : Nat) : List Char := '\n' :: List.replicate (2 * depth) ' '

mutual

/-- A value without any blank. -/
def compact : Json → List Char
  | null => ['n', 'u', 'l', 'l']
  | natural n => digitsOf n
  | number v => v.jsonChars
  | text s => quote s
  | array [] => ['[', ']']
  | array (x :: xs) => '[' :: x.compact ++ compactItems xs ++ [']']
  | object [] => ['\x7b', '\x7d']
  | object ((k, x) :: ms) => '\x7b' :: quote k ++ ':' :: x.compact ++ compactMembers ms ++ ['\x7d']

/-- The items behind the first one. -/
def compactItems : List Json → List Char
  | [] => []
  | x :: xs => ',' :: x.compact ++ compactItems xs

/-- The members behind the first one. -/
def compactMembers : List (String × Json) → List Char
  | [] => []
  | (k, x) :: ms => ',' :: quote k ++ ':' :: x.compact ++ compactMembers ms

end

mutual

/-- A value with every item and every member on a line of its own. -/
def indented (depth : Nat) : Json → List Char
  | null => ['n', 'u', 'l', 'l']
  | natural n => digitsOf n
  | number v => v.jsonChars
  | text s => quote s
  | array [] => ['[', ']']
  | array (x :: xs) =>
    '[' :: newLine (depth + 1) ++ x.indented (depth + 1) ++ indentedItems (depth + 1) xs ++
      newLine depth ++ [']']
  | object [] => ['\x7b', '\x7d']
  | object ((k, x) :: ms) =>
    '\x7b' :: newLine (depth + 1) ++ quote k ++ ':' :: ' ' :: x.indented (depth + 1) ++
      indentedMembers (depth + 1) ms ++ newLine depth ++ ['\x7d']

/-- The items behind the first one. -/
def indentedItems (depth : Nat) : List Json → List Char
  | [] => []
  | x :: xs => ',' :: newLine depth ++ x.indented depth ++ indentedItems depth xs

/-- The members behind the first one. -/
def indentedMembers (depth : Nat) : List (String × Json) → List Char
  | [] => []
  | (k, x) :: ms =>
    ',' :: newLine depth ++ quote k ++ ':' :: ' ' :: x.indented depth ++ indentedMembers depth ms

end

/-- The compact text of a value. -/
def compactText (j : Json) : String := String.ofList j.compact

/-- The indented text of a value. -/
def indentedText (j : Json) : String := String.ofList (j.indented 0)

end Json
end BytecodeTrace
