/-
# Statements of a listing

A listing holds one statement a line:

    [line ':'] mnemonic [number] [';' comment]

`parseLine` reads one line.  A line that is empty up to its comment has no statement.  Faults are
looked for in this order: the line prefix, a third word, the mnemonic, the operand.

`CONSTANT` and `CONSTANT_LONG` are the same statement: the chunk chooses the operand.
-/
import BytecodeTrace.Fault
import BytecodeTrace.Text.Blank
import BytecodeTrace.Value.Reading

namespace BytecodeTrace
namespace Listing

/-! ## 1. Faults -/

/-- What is wrong with a line. -/
inductive Fault where
  | unknownMnemonic (word : String)
  | missingOperand (op : Opcode)
  | unexpectedOperand (word : String)
  | invalidNumber (word : String)
  /-- The part before the colon is no line number. -/
  | invalidLinePrefix (text : String)
  /-- The chunk refused the instruction. -/
  | refused (cause : ChunkError)
deriving DecidableEq, Repr

/-- The text of the fault. -/
def Fault.message : Fault → String
  | unknownMnemonic word => s!"unknown mnemonic `{word}`"
  | missingOperand op => s!"`{op.mnemonic}` expects a numeric operand"
  | unexpectedOperand word => s!"unexpected operand `{word}`"
  | invalidNumber word => s!"invalid number `{word}`"
  | invalidLinePrefix text => s!"invalid source line prefix `{text}`"
  | refused cause => cause.message

/-- A fault and the line of the listing that has it, counted from one. -/
structure Error where
  line : Nat
  fault : Fault
deriving DecidableEq, Repr

/-- The text of the fault behind the number of its line. -/
def Error.message (e : Error) : String := s!"line {e.line}: {e.fault.message}"

/-! ## 2. Statements -/

/-- One instruction to append. -/
inductive Statement where
  | ret
  | constant (value : Value)
deriving DecidableEq, Repr

/-- A statement and the source line that its bytes are recorded at. -/
structure Placed where
  line : Line
  statement : Statement
deriving DecidableEq, Repr

/-! ## 3. Parsing -/

/-- A source line number: a plus sign that may be missing, and digits, up to the largest number
of 32 bits. -/
def readLine? (s : List Char) : Option Line :=
  let ds := match s with
    | '+' :: rest => rest
    | s => s
  if ds.isEmpty ∨ ¬ ds.all Char.isDigit then none
  else if ofDigits ds < 2 ^ 32 then some (UInt32.ofNat (ofDigits ds))
  else none

/-- The source line of a text, and the text behind its prefix.  Without a prefix it is the line
of the listing itself. -/
def splitPrefix (text : List Char) (listingLine : Nat) : Except Fault (Line × List Char) :=
  match Text.cut ':' text with
  | (before, some body) =>
    match readLine? (Text.trim before) with
    | some line => .ok (line, body)
    | none => .error (.invalidLinePrefix (String.ofList (Text.trim before)))
  | (_, none) =>
    if listingLine < 2 ^ 32 then .ok (UInt32.ofNat listingLine, text)
    else .error (.invalidLinePrefix (toString listingLine))

/-- The statement of an operation and the words behind its mnemonic, at most one of which counts. -/
def operandStatement (op : Opcode) (operand : Option (List Char)) : Except Fault Statement :=
  match op, operand with
  | .ret, none => .ok .ret
  | .ret, some word => .error (.unexpectedOperand (String.ofList word))
  | .constant, none => .error (.missingOperand .constant)
  | .constantLong, none => .error (.missingOperand .constantLong)
  | .constant, some word | .constantLong, some word =>
    match Value.read? word with
    | some value => .ok (.constant value)
    | none => .error (.invalidNumber (String.ofList word))

/-- The statement of an operation's name and an operand. -/
def namedStatement (name : String) (operand : Option (List Char)) : Except Fault Statement :=
  match Opcode.ofMnemonic? name with
  | some op => operandStatement op operand
  | none => .error (.unknownMnemonic name)

/-- The statement that the words of a line make. -/
def wordsStatement : List (List Char) → Except Fault Statement
  | [] => namedStatement "" none
  | [name] => namedStatement (String.ofList name) none
  | [name, operand] => namedStatement (String.ofList name) (some operand)
  | _ :: _ :: word :: _ => .error (.unexpectedOperand (String.ofList word))

/-- The statement of one line of a listing, if the line has one. -/
def parseLine (listingLine : Nat) (raw : List Char) : Except Fault (Option Placed) :=
  let text := Text.trim (Text.cut ';' raw).1
  if text.isEmpty then .ok none
  else do
    let (line, body) ← splitPrefix text listingLine
    let statement ← wordsStatement (Text.words body)
    return some ⟨line, statement⟩

end Listing
end BytecodeTrace
