/-
# The program

Reads an input, shows the events, writes an output.  What to read, what to show, what to write
and with which exit code is said by `Arguments.read`, `Task.rendering` and `LogFilter`; this file
only meets the operating system.
-/
import BytecodeTrace.Program.Run
import Std.Time.Format

namespace BytecodeTrace

/-! ## 1. The operating system -/

/-- The number and the text of a refusal of the operating system.  Some calls report the number with
a minus sign. -/
def refusal? : IO.Error → Option (Nat × String)
  | .alreadyExists _ code text | .invalidArgument _ code text | .permissionDenied _ code text
  | .resourceExhausted _ code text | .inappropriateType _ code text | .noSuchThing _ code text
  | .noFileOrDirectory _ code text | .interrupted _ code text
  | .otherError code text | .resourceBusy code text | .resourceVanished code text
  | .unsupportedOperation code text | .hardwareFault code text | .unsatisfiedConstraints code text
  | .illegalOperation code text | .protocolError code text | .timeExpired code text =>
    some (code.toInt32.toInt.natAbs, text.capitalize)
  | .unexpectedEof | .userError _ => none

/-- The cause of a refusal. -/
def systemError (e : IO.Error) : SystemError :=
  match refusal? e with
  | some (2, _) => .noSuchFile
  | some (6, _) => .noSuchDevice
  | some (13, _) => .permissionDenied
  | some (17, _) => .fileExists
  | some (20, _) => .notDirectory
  | some (21, _) => .isDirectory
  | some (28, _) => .noSpace
  | some (36, _) => .nameTooLong
  | some (code, text) => .other s!"{text} (os error {code})"
  | none => .other (toString e)

/-- The result of an action, with the cause when it was refused. -/
def attempt {α : Type} (action : IO α) : IO (Except SystemError α) := do
  return (← action.toBaseIO).mapError systemError

/-- Now, in universal time, to the second. -/
def currentTime : IO String := do
  let now := Std.Time.PlainDateTime.ofWallTime (.ofTimestamp (← Std.Time.Timestamp.now) .zero)
  return now.format "uuuu-MM-dd" ++ "T" ++ now.format "HH:mm:ss" ++ "Z"

/-- Writes a diagnostic to standard error. -/
def report (d : Diagnostic) : IO Unit := do
  (← IO.getStderr).putStr (d.text (← currentTime))

/-! ## 2. A task -/

/-- The content of a task's input.  A demonstration has none. -/
def readInput : Task → IO (Except SystemError ByteArray)
  | .demo .. => return .ok .empty
  | .disassemble .stdin .. => do attempt (← IO.getStdin).readBinToEnd
  | .disassemble (.path p) .. => attempt (IO.FS.readBinFile p)

/-- Sends a text to an output, and answers the events of that. -/
def writeOutput (text : String) : Output → IO (Except Failure (List Event))
  | .stdout => do
    let stdout ← IO.getStdout
    match ← attempt (stdout.putStr text *> stdout.flush) with
    | .error cause => return .error (.printing cause)
    | .ok () => return .ok []
  | .path p => do
    if let some parent := Session.outputDirectory? p then
      if let .error cause ← attempt (IO.FS.createDirAll parent) then
        return .error (.creating parent cause)
    let write : IO Unit := IO.FS.withFile p .write fun file => do
      file.write text.toUTF8
      file.flush
    match ← attempt write with
    | .error cause => return .error (.writing p cause)
    | .ok () => return .ok [.fileWritten text.utf8ByteSize p]

/-- Runs a task and shows the events that the filter admits. -/
def runTask (filter : LogFilter) (task : Task) : IO UInt32 := do
  let content ← readInput task
  let reveal (events : List Event) := (events.filter filter.admits).forM fun e => report (.event e)
  let ⟨answer, _, events⟩ := task.rendering fun _ => content
  reveal events
  let result ← match answer with
    | .error failure => pure (.error failure)
    | .ok text => writeOutput text task.output
  match result with
  | .ok events => reveal events
  | .error failure => report (.failure failure)
  return UInt32.ofNat (exitCodeOf (result.map fun _ => ()))

end BytecodeTrace

open BytecodeTrace

/-- The program: its arguments, and the log filter that the environment may hold. -/
def main (arguments : List String) : IO UInt32 := do
  match Arguments.read arguments with
  | .error .usage =>
    report .usage
    return 2
  | .error .help =>
    IO.print usageText
    return 0
  | .error .version =>
    IO.print versionText
    return 0
  | .ok i =>
    let (filter, complaints) := LogFilter.read ((← IO.getEnv "RUST_LOG").getD i.filterText)
    complaints.forM fun text => report (.complaint text)
    runTask filter i.task
