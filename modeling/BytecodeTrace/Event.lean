/-
# Events

What the library reports while it works.  An event is data; its level, its target and its
message are functions of it, so that nothing is rendered that nobody reads.

An operation that changes a state has an `Outcome`: its answer, the state it leaves behind, which
it also has when it refuses, and the events it reported, oldest first.
-/
import BytecodeTrace.Fault
import BytecodeTrace.Value.Text

namespace BytecodeTrace

/-! ## 1. Levels -/

/-- How important an event is. -/
inductive Level where
  | error
  | warn
  | info
  | debug
  | trace
deriving DecidableEq, Repr

namespace Level

/-- The more detailed a level, the higher its rank. -/
def rank : Level → Nat
  | error => 1
  | warn => 2
  | info => 3
  | debug => 4
  | trace => 5

/-- The name of a level in a log line. -/
def name : Level → String
  | error => "ERROR"
  | warn => "WARN"
  | info => "INFO"
  | debug => "DEBUG"
  | trace => "TRACE"

/-- All levels, the most important first. -/
def all : List Level := [error, warn, info, debug, trace]

end Level

/-! ## 2. Events -/

/-- One thing that happened. -/
inductive Event where
  /-- A buffer was full and took a larger capacity. -/
  | bufferGrew (old new : Nat)
  /-- A constant was put into the pool. -/
  | constantStored (index : Nat) (value : Value)
  /-- An instruction without operands was appended. -/
  | instructionEmitted (op : Opcode) (line : Line)
  /-- An instruction that loads a constant was appended. -/
  | constantEmitted (op : Opcode) (index : Nat) (value : Value) (line : Line)
  | chunkReleased
  /-- A listing was assembled; the totals are those of the whole chunk. -/
  | assembled (bytes constants : Nat)
  /-- A trace met a byte that is no tag. -/
  | unknownTag (tag : UInt8) (offset : Nat)
  /-- A trace met an operand that the code does not hold whole. -/
  | truncatedOperand (op : Opcode) (offset : Nat)
  /-- A trace met an index without a constant. -/
  | danglingConstant (index size offset : Nat)
  /-- A named chunk is about to be rendered. -/
  | chunkSummary (name : String) (bytes constants : Nat)
  | fileWritten (bytes : Nat) (path : String)
deriving DecidableEq, Repr

namespace Event

/-- How important the event is. -/
def level : Event → Level
  | bufferGrew .. | constantStored .. => .trace
  | instructionEmitted .. | constantEmitted .. | chunkReleased | assembled .. => .debug
  | unknownTag .. | truncatedOperand .. | danglingConstant .. => .warn
  | chunkSummary .. => .info
  | fileWritten .. => .debug

/-- The part of the program that reports the event, as log filters name it. -/
def target : Event → String
  | bufferGrew .. => "lox_core::buffer"
  | constantStored .. => "lox_core::bytecode::pool"
  | instructionEmitted .. | constantEmitted .. | chunkReleased => "lox_core::bytecode::chunk"
  | assembled .. => "lox_core::bytecode::asm"
  | unknownTag .. | truncatedOperand .. | danglingConstant .. => "lox_core::bytecode::disasm"
  | chunkSummary .. | fileWritten .. => "lox_cli"

/-- What the event says. -/
def message : Event → String
  | bufferGrew old new => s!"buffer grow {old} -> {new}"
  | constantStored index value => s!"constant[{index}] = {value.text}"
  | instructionEmitted op line => s!"emit {op.mnemonic} @ line {line.toNat}"
  | constantEmitted op index value line =>
    s!"emit {op.mnemonic} {index} ({value.text}) @ line {line.toNat}"
  | chunkReleased => "chunk released"
  | assembled bytes constants => s!"assembled {bytes} bytes, {constants} constants"
  | unknownTag tag offset => s!"unknown instruction {tag.toNat} at offset {offset}"
  | truncatedOperand op offset => s!"truncated {op.mnemonic} at offset {offset}"
  | danglingConstant index size offset =>
    s!"{(ChunkError.constantOutOfRange index size).message} at offset {offset}"
  | chunkSummary name bytes constants => s!"{name}: {bytes} bytes, {constants} constants"
  | fileWritten bytes path => s!"wrote {bytes} bytes to {path}"

/-- Level, target and message, each behind a blank. -/
def text (e : Event) : String := s!"{e.level.name} {e.target} {e.message}"

end Event

/-! ## 3. Outcomes -/

/-- What an operation leaves behind. -/
structure Outcome (σ α : Type) where
  answer : α
  state : σ
  events : List Event

namespace Outcome

variable {σ α β : Type}

/-- An answer that changes nothing and reports nothing. -/
@[inline] def pure (a : α) (s : σ) : Outcome σ α := ⟨a, s, []⟩

/-- One operation after another, on the state that the first one leaves. -/
@[inline] def andThen (o : Outcome σ α) (next : α → σ → Outcome σ β) : Outcome σ β :=
  match o with
  | ⟨a, s, earlier⟩ =>
    match next a s with
    | ⟨b, s, later⟩ => ⟨b, s, earlier ++ later⟩

/-- The answer is that of the second operation. -/
@[simp] theorem answer_andThen (o : Outcome σ α) (next : α → σ → Outcome σ β) :
    (o.andThen next).answer = (next o.answer o.state).answer := rfl

/-- The state is that of the second operation. -/
@[simp] theorem state_andThen (o : Outcome σ α) (next : α → σ → Outcome σ β) :
    (o.andThen next).state = (next o.answer o.state).state := rfl

/-- The events of the first operation come first. -/
@[simp] theorem events_andThen (o : Outcome σ α) (next : α → σ → Outcome σ β) :
    (o.andThen next).events = o.events ++ (next o.answer o.state).events := rfl

end Outcome
end BytecodeTrace
