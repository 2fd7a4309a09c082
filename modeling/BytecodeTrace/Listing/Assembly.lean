/-
# Assembling a listing

The statements of a listing are appended to a chunk one by one.  The first line with a fault ends
the assembly; the statements before it stay.
-/
import BytecodeTrace.Chunk.Basic
import BytecodeTrace.Listing.Statement
import BytecodeTrace.Text.Line

namespace BytecodeTrace

namespace Chunk

/-- Appends the instruction of a statement. -/
def appendStatement (c : Chunk) (placed : Listing.Placed) :
    Outcome Chunk (Except ChunkError Unit) :=
  match placed with
  | ⟨line, .ret⟩ => c.appendInstruction .ret line
  | ⟨line, .constant value⟩ =>
    match c.appendConstant value line with
    | ⟨answer, c, events⟩ => ⟨answer.map fun _ => (), c, events⟩

/-- Appends the statements of lines, the first of which is line `number` of its listing. -/
def assembleLines (c : Chunk) (number : Nat) :
    List (List Char) → Outcome Chunk (Except Listing.Error Unit)
  | [] => .pure (.ok ()) c
  | raw :: rest =>
    match Listing.parseLine number raw with
    | .error fault => .pure (.error ⟨number, fault⟩) c
    | .ok none => c.assembleLines (number + 1) rest
    | .ok (some placed) =>
      (c.appendStatement placed).andThen fun answer c =>
        match answer with
        | .error cause => .pure (.error ⟨number, .refused cause⟩) c
        | .ok () => c.assembleLines (number + 1) rest

/-- Appends the statements of a listing. -/
def assembleInto (c : Chunk) (source : String) : Outcome Chunk (Except Listing.Error Unit) :=
  (c.assembleLines 1 (Text.lines source.toList)).andThen fun answer c =>
    match answer with
    | .error e => .pure (.error e) c
    | .ok () => ⟨.ok (), c, [.assembled c.size c.constants.size]⟩

/-- The chunk of a listing. -/
def assemble (source : String) : Outcome Chunk (Except Listing.Error Unit) :=
  empty.assembleInto source

end Chunk
end BytecodeTrace
