/-
# A run of the program

From the arguments, a log filter and a session to an exit code and what the run leaves behind.
What is written to standard error is kept as data, line by line; the time of a log line is put in
when it is written.
-/
import BytecodeTrace.Program.Arguments
import BytecodeTrace.Program.LogFilter
import BytecodeTrace.Text.ControlSequence

namespace BytecodeTrace

/-! ## 1. Diagnostics -/

/-- What is written to standard error. -/
inductive Diagnostic where
  /-- Something about the log filter. -/
  | complaint (text : String)
  | event (e : Event)
  | failure (cause : Failure)
  | usage
deriving DecidableEq, Repr

/-- How the program is called. -/
def usageText : String :=
  "Usage: lox [OPTIONS] <COMMAND>\n\n" ++
  "Commands:\n" ++
  "  demo    Trace of the demo chunk (RETURN then the constant 1.2)\n" ++
  "  disasm  Assemble a listing and print its trace\n" ++
  "  help    Print this message\n\n" ++
  "Options:\n" ++
  "  -v, --verbose...       Raise verbosity (-v, -vv, -vvv)\n" ++
  "  -q, --quiet            Quiet mode (overrides verbosity)\n" ++
  "  -h, --help             Print help\n" ++
  "  -V, --version          Print version\n\n" ++
  "Options of a command:\n" ++
  "      --name <NAME>      Name shown in the header (disasm; default: file name)\n" ++
  "  -o, --output <OUTPUT>  Output (stdout when omitted)\n" ++
  "      --json             Structured JSON view instead of the trace\n"

/-- The name of the program and its version. -/
def versionText : String := "lox 0.1.0\n"

namespace Diagnostic

/-- The level stands to the left of five columns. -/
def levelColumn : Text.Column := ⟨5, .left, none, ' '⟩

/-- The further lines of a message are set four blanks to the right. -/
def indentLines (message : String) : String :=
  String.ofList (message.toList.flatMap fun c =>
    if c = '\n' then ['\n', ' ', ' ', ' ', ' '] else [c])

/-- The log line of an event at a time, as far as it is shown. -/
def logLine (time : String) (e : Event) : String :=
  let line := s!"[{time} {levelColumn.text e.level.name} {e.target}] {indentLines e.message}\n"
  String.ofList (Text.shown line.toList)

/-- The text of a diagnostic, for a log line at a time. -/
def text (time : String) : Diagnostic → String
  | complaint text => s!"warning: {text}, ignoring it\n"
  | event e => logLine time e
  | failure cause => s!"error: command failed: {cause.message}\n"
  | usage => "error: the arguments are not understood\n\n" ++ usageText

end Diagnostic

/-! ## 2. Running -/

/-- What a run leaves behind. -/
structure RunResult where
  exitCode : Nat
  session : Session
  stderr : List Diagnostic

/-- The diagnostics of an outcome: the events that the filter shows, and the failure. -/
def diagnosticsOf {σ : Type} (filter : LogFilter) (o : Outcome σ (Except Failure Unit)) :
    List Diagnostic :=
  (o.events.filter filter.admits).map .event ++
    match o.answer with
    | .ok () => []
    | .error cause => [.failure cause]

/-- The exit code of an outcome. -/
def exitCodeOf : Except Failure Unit → Nat
  | .ok () => 0
  | .error _ => 1

/-- Runs an invocation.  A filter text, when there is one, stands in for the verbosity. -/
def runInvocation (i : Arguments.Invocation) (filterText : Option String) (s : Session) :
    RunResult :=
  let (filter, complaints) := LogFilter.read (filterText.getD i.filterText)
  let o := i.task.execute s
  { exitCode := exitCodeOf o.answer
    session := o.state
    stderr := complaints.map .complaint ++ diagnosticsOf filter o }

/-- Runs the program. -/
def runProgram (arguments : List String) (filterText : Option String) (s : Session) : RunResult :=
  match Arguments.read arguments with
  | .ok i => runInvocation i filterText s
  | .error .usage => ⟨2, s, [.usage]⟩
  | .error .help => ⟨0, { s with stdout := s.stdout ++ usageText }, []⟩
  | .error .version => ⟨0, { s with stdout := s.stdout ++ versionText }, []⟩

end BytecodeTrace
