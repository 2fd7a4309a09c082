/-
# Command lines

The arguments are options of the program, a command, and options of the command:

    [-v]… [-q] demo [-o FILE] [--json]
    [-v]… [-q] disasm [INPUT] [--name NAME] [-o FILE] [--json]

Short options may share a dash, a value may follow its option directly, behind `=`, or as the next
argument, and everything behind `--` is an input.  No option but `-v` may be repeated.  Verbosity
may be given before and after the command; what is given after it counts.

Reading goes from left to right and stops at the first thing that is wrong, or that asks for the
version or for help.
-/
import BytecodeTrace.Program.Task

namespace BytecodeTrace
namespace Arguments

/-! ## 1. Options -/

/-- What an option says. -/
inductive Setting where
  | verbose
  | quiet
  | help
  | version
  | output
  | json
  | name
deriving DecidableEq, Repr

/-- The option is followed by a value. -/
def Setting.takesValue : Setting → Bool
  | output | name => true
  | _ => false

/-- How an option is written. -/
structure Form where
  setting : Setting
  short : Option Char
  long : String
deriving DecidableEq, Repr

/-- The options that stand before or behind the command. -/
def commonForms : List Form :=
  [⟨.verbose, some 'v', "verbose"⟩, ⟨.quiet, some 'q', "quiet"⟩, ⟨.help, some 'h', "help"⟩]

/-- The options before the command. -/
def programForms : List Form := commonForms ++ [⟨.version, some 'V', "version"⟩]

/-- The kinds of task. -/
inductive Command where
  | demo
  | disassemble
deriving DecidableEq, Repr

/-- The options behind a command. -/
def Command.forms : Command → List Form
  | demo => commonForms ++ [⟨.output, some 'o', "output"⟩, ⟨.json, none, "json"⟩]
  | disassemble =>
    commonForms ++ [⟨.output, some 'o', "output"⟩, ⟨.json, none, "json"⟩, ⟨.name, none, "name"⟩]

/-- The command with a name. -/
def Command.ofName? : String → Option Command
  | "demo" => some .demo
  | "disasm" => some .disassemble
  | _ => none

/-- Why the arguments do not lead to a task. -/
inductive Stop where
  | usage
  | help
  | version
deriving DecidableEq, Repr

/-! ## 2. What has been given -/

/-- The settings read so far. -/
structure Given where
  verbosity : Nat
  quiet : Bool
  output : Option String
  json : Bool
  name : Option String
  input : Option String
deriving DecidableEq, Repr

namespace Given

/-- No settings. -/
def nothing : Given := ⟨0, false, none, false, none, none⟩

/-- An option without a value. -/
def flag (g : Given) : Setting → Except Stop Given
  | .verbose => .ok { g with verbosity := g.verbosity + 1 }
  | .quiet => if g.quiet then .error .usage else .ok { g with quiet := true }
  | .json => if g.json then .error .usage else .ok { g with json := true }
  | .help => .error .help
  | .version => .error .version
  | .output | .name => .error .usage

/-- An option with its value.  A path is not empty. -/
def set (g : Given) (setting : Setting) (value : String) : Except Stop Given :=
  match setting with
  | .output =>
    if g.output.isSome ∨ value.isEmpty then .error .usage
    else .ok { g with output := some value }
  | .name => if g.name.isSome then .error .usage else .ok { g with name := some value }
  | _ => .error .usage

/-- An argument that belongs to no option.  Only one command has any, and only one. -/
def addInput (command : Command) (g : Given) (value : String) : Except Stop Given :=
  if command = .demo ∨ g.input.isSome ∨ value.isEmpty then .error .usage
  else .ok { g with input := some value }

end Given

/-! ## 3. Reading -/

/-- The kinds of argument. -/
inductive Word where
  | separator
  | long (text : List Char)
  | short (letters : List Char)
  | plain (text : String)
deriving DecidableEq, Repr

/-- A lone dash is a plain word. -/
def Word.ofArgument (argument : String) : Word :=
  match argument.toList with
  | ['-', '-'] => .separator
  | '-' :: '-' :: text => .long text
  | '-' :: c :: letters => .short (c :: letters)
  | _ => .plain argument

/-- Short options behind one dash, and the one that still needs its value. -/
def readShort (forms : List Form) (g : Given) : List Char → Except Stop (Given × Option Setting)
  | [] => .ok (g, none)
  | c :: rest =>
    match forms.find? fun form => form.short = some c with
    | none => .error .usage
    | some form =>
      if form.setting.takesValue then
        match rest with
        | [] => .ok (g, some form.setting)
        | '=' :: value => (g.set form.setting (String.ofList value)).map fun g => (g, none)
        | value => (g.set form.setting (String.ofList value)).map fun g => (g, none)
      else
        match g.flag form.setting with
        | .error stop => .error stop
        | .ok g => readShort forms g rest

/-- A long option, with its value behind `=` if it has one there. -/
def readLong (forms : List Form) (g : Given) (text : List Char) :
    Except Stop (Given × Option Setting) :=
  let (name, value) := Text.cut '=' text
  match forms.find? fun form => form.long.toList = name with
  | none => .error .usage
  | some form =>
    match form.setting.takesValue, value with
    | true, some value => (g.set form.setting (String.ofList value)).map fun g => (g, none)
    | true, none => .ok (g, some form.setting)
    | false, some _ => .error .usage
    | false, none => (g.flag form.setting).map fun g => (g, none)

/-- The arguments of a command. -/
def readCommandArguments (command : Command) (g : Given) : List String → Except Stop Given
  | [] => .ok g
  | argument :: rest =>
    let option : Except Stop (Given × Option Setting) → Except Stop Given := fun read =>
      match read, rest with
      | .error stop, _ => .error stop
      | .ok (g, none), rest => readCommandArguments command g rest
      | .ok (_, some _), [] => .error .usage
      | .ok (g, some setting), value :: rest =>
        match Word.ofArgument value with
        | .plain value =>
          match g.set setting value with
          | .error stop => .error stop
          | .ok g => readCommandArguments command g rest
        | _ => .error .usage
    match Word.ofArgument argument with
    | .separator => rest.foldlM (Given.addInput command) g
    | .plain value =>
      match g.addInput command value with
      | .error stop => .error stop
      | .ok g => readCommandArguments command g rest
    | .long text => option (readLong command.forms g text)
    | .short letters => option (readShort command.forms g letters)

/-- Help is asked for the program, or for a command by its name. -/
def readHelp : List String → Stop
  | [] => .help
  | [name] => if name = "help" ∨ (Command.ofName? name).isSome then .help else .usage
  | _ => .usage

/-- The settings before the command, the command, and the settings behind it. -/
def readProgramArguments (g : Given) : List String → Except Stop (Given × Command × Given)
  | [] => .error .usage
  | argument :: rest =>
    let option : Except Stop (Given × Option Setting) → Except Stop (Given × Command × Given) :=
      fun read =>
        match read with
        | .error stop => .error stop
        | .ok (g, none) => readProgramArguments g rest
        | .ok (_, some _) => .error .usage
    match Word.ofArgument argument with
    | .separator => .error .usage
    | .long text => option (readLong programForms g text)
    | .short letters => option (readShort programForms g letters)
    | .plain "help" => .error (readHelp rest)
    | .plain name =>
      match Command.ofName? name with
      | none => .error .usage
      | some command =>
        (readCommandArguments command .nothing rest).map fun own => (g, command, own)

/-! ## 4. Invocations -/

/-- A task, and how much is logged while it runs. -/
structure Invocation where
  task : Task
  verbosity : Nat
  quiet : Bool
deriving DecidableEq, Repr

/-- The task of a command with its settings.  An input `-` is standard input. -/
def taskOf (command : Command) (g : Given) : Task :=
  let output := match g.output with
    | none => Output.stdout
    | some path => .path path
  let format := if g.json then Format.json else .text
  match command with
  | .demo => .demo output format
  | .disassemble =>
    let input := match g.input with
      | none => Input.stdin
      | some path => if path = "-" then .stdin else .path path
    .disassemble input output g.name format

/-- Reads the arguments of the program. -/
def read (arguments : List String) : Except Stop Invocation :=
  (readProgramArguments .nothing arguments).map fun (before, command, own) =>
    { task := taskOf command own
      verbosity := if own.verbosity = 0 then before.verbosity else own.verbosity
      quiet := before.quiet || own.quiet }

/-- The log filter of an invocation that no filter text overrides. -/
def Invocation.filterText (i : Invocation) : String :=
  if i.quiet then "error"
  else
    match i.verbosity with
    | 0 => "warn"
    | 1 => "info"
    | 2 => "debug"
    | _ => "trace"

end Arguments
end BytecodeTrace
