/-
# Tasks

A task renders a chunk: the built-in demonstration, or the chunk of a listing.  The rendering is
computed first, from the bytes of the input alone; only then is anything written.

`Task.rendering` is the first half and `Session.deliver` the second; `Task.execute` is both, on a
session that holds the file system and the two standard streams.
-/
import BytecodeTrace.Chunk.Row
import BytecodeTrace.Chunk.Trace
import BytecodeTrace.Files.System
import BytecodeTrace.Listing.Assembly

namespace BytecodeTrace

/-! ## 1. What is asked for -/

/-- Where a listing comes from. -/
inductive Input where
  | stdin
  | path (path : String)
deriving DecidableEq, Repr

/-- Where a rendering goes. -/
inductive Output where
  | stdout
  | path (path : String)
deriving DecidableEq, Repr

/-- How a chunk is rendered: as its trace, or as its rows in JSON. -/
inductive Format where
  | text
  | json
deriving DecidableEq, Repr

/-- One thing to do. -/
inductive Task where
  | demo (output : Output) (format : Format)
  | disassemble (input : Input) (output : Output) (name : Option String) (format : Format)
deriving DecidableEq, Repr

/-- Why a task fails. -/
inductive Failure where
  | demo (cause : ChunkError)
  | readingInput (cause : SystemError)
  | reading (path : String) (cause : SystemError)
  | assembling (name : String) (cause : Listing.Error)
  | printing (cause : SystemError)
  | creating (path : String) (cause : SystemError)
  | writing (path : String) (cause : SystemError)
deriving DecidableEq, Repr

/-- The failure with its context, where it has one, in front of its cause. -/
def Failure.message : Failure → String
  | demo cause => s!"building the demo chunk: {cause.message}"
  | readingInput cause => s!"reading stdin: {cause.message}"
  | reading path cause => s!"reading {path}: {cause.message}"
  | assembling name cause => s!"assembling {name}: {cause.message}"
  | printing cause => cause.message
  | creating path cause => s!"creating {path}: {cause.message}"
  | writing path cause => s!"writing {path}: {cause.message}"

/-! ## 2. Rendering -/

/-- The name above a trace when none is given: the stem of the file name.  A path without a file
name stands for itself. -/
def Input.defaultName : Input → String
  | stdin => "<stdin>"
  | path p =>
    match Path.fileName? p.toList with
    | some name => String.ofList (Path.stem name)
    | none => p

/-- The failure to read this input. -/
def Input.failure : Input → SystemError → Failure
  | stdin => .readingInput
  | path p => .reading p

/-- The chunk as a text, under a name. -/
def Chunk.render (c : Chunk) (name : String) : Format → Outcome Chunk String
  | .text => ⟨c.trace name, c, c.traceWarnings⟩
  | .json => .pure c.rowsText c

/-- The name above the trace of the demonstration. -/
def demoName : String := "test chunk"

/-- The rendering of the reference chunk. -/
def renderDemo (format : Format) : Outcome Chunk (Except Failure String) :=
  Chunk.reference.andThen fun answer c =>
    match answer with
    | .error cause => .pure (.error (.demo cause)) c
    | .ok () => (c.render demoName format).andThen fun text c => .pure (.ok text) c

/-- The rendering of a listing's chunk. -/
def renderListing (name : String) (format : Format) (source : String) :
    Outcome Chunk (Except Failure String) :=
  (Chunk.assemble source).andThen fun answer c =>
    match answer with
    | .error cause => .pure (.error (.assembling name cause)) c
    | .ok () =>
      Outcome.andThen ⟨(), c, [.chunkSummary name c.size c.constants.size]⟩ fun _ c =>
        (c.render name format).andThen fun text c => .pure (.ok text) c

/-- The text that bytes encode. -/
def decodeText (bytes : ByteArray) : Except SystemError String :=
  match String.fromUTF8? bytes with
  | some text => .ok text
  | none => .error .invalidText

/-- The rendering that a task asks for, when `read` answers the content of an input. -/
def Task.rendering (read : Input → Except SystemError ByteArray) :
    Task → Outcome Chunk (Except Failure String)
  | demo _ format => renderDemo format
  | disassemble input _ name format =>
    match (read input).bind decodeText with
    | .error cause => .pure (.error (input.failure cause)) .empty
    | .ok source => renderListing (name.getD input.defaultName) format source

/-- Where the rendering goes. -/
def Task.output : Task → Output
  | demo output _ => output
  | disassemble _ output _ _ => output

/-! ## 3. Execution -/

/-- What a task works on. -/
structure Session where
  files : FileSystem
  stdin : ByteArray
  stdout : String

namespace Session

/-- The content of an input. -/
def read (s : Session) : Input → Except SystemError ByteArray
  | .stdin => .ok s.stdin
  | .path p => s.files.read p

/-- The directory that has to be there before a path can be written. -/
def outputDirectory? (path : String) : Option String :=
  match Path.parent? path.toList with
  | none => none
  | some [] => none
  | some parent => some (String.ofList parent)

/-- Creates the directory of an output, where there is one to create. -/
def prepare (s : Session) (path : String) : Outcome Session (Except Failure Unit) :=
  match outputDirectory? path with
  | none => .pure (.ok ()) s
  | some parent =>
    match s.files.makeDirectories parent with
    | (files, .ok ()) => .pure (.ok ()) { s with files := files }
    | (files, .error cause) => .pure (.error (.creating parent cause)) { s with files := files }

/-- Sends a text to an output. -/
def deliver (s : Session) (text : String) : Output → Outcome Session (Except Failure Unit)
  | .stdout => .pure (.ok ()) { s with stdout := s.stdout ++ text }
  | .path p =>
    (s.prepare p).andThen fun answer s =>
      match answer with
      | .error failure => .pure (.error failure) s
      | .ok () =>
        match s.files.write p text.toUTF8 with
        | .error cause => .pure (.error (.writing p cause)) s
        | .ok files => ⟨.ok (), { s with files := files }, [.fileWritten text.utf8ByteSize p]⟩

end Session

/-- Renders, and delivers the rendering. -/
def Task.execute (task : Task) (s : Session) : Outcome Session (Except Failure Unit) :=
  match task.rendering s.read with
  | ⟨.error failure, _, events⟩ => ⟨.error failure, s, events⟩
  | ⟨.ok text, _, events⟩ => Outcome.andThen ⟨(), s, events⟩ fun _ s => s.deliver text task.output

end BytecodeTrace
