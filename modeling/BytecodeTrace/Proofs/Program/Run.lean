/-
# What a run does depends neither on its log nor on its routes

The options for verbosity and the filter text decide what is logged, and nothing else.  The output
decides where a rendering goes, and the input where a listing comes from.

* `Arguments.Invocation.read_filterText`: an invocation shows the events up to one level;
* `logged_runInvocation_sublist`: with more verbosity, more of them;
* `Task.execute_of_stdin`: a listing is rendered alike from standard input and from a file;
* `runProgram_unaffected`: all runs of one task, whatever they log.
-/
import BytecodeTrace.Program.Run
import BytecodeTrace.Proofs.Program.Arguments
import BytecodeTrace.Proofs.Program.Delivery

namespace BytecodeTrace

/-! ## 1. What is logged -/

/-- The events that were logged. -/
def RunResult.logged (r : RunResult) : List Event :=
  r.stderr.filterMap fun
    | .event e => some e
    | _ => none

namespace Arguments.Invocation

/-- The level up to which an invocation shows events. -/
def level (i : Invocation) : Level :=
  if i.quiet then .error
  else
    match i.verbosity with
    | 0 => .warn
    | 1 => .info
    | 2 => .debug
    | _ => .trace

/-- An invocation asks for no more of the log than another one. -/
def LogsAtMost (i j : Invocation) : Prop :=
  i.quiet = true ∨ j.quiet = false ∧ i.verbosity ≤ j.verbosity

theorem rank_level (i : Invocation) :
    i.level.rank = if i.quiet then 1 else min (i.verbosity + 2) 5 := by
  obtain ⟨task, verbosity, quiet⟩ := i
  cases quiet with
  | true => rfl
  | false =>
    rcases verbosity with _ | _ | _ | n
    · rfl
    · rfl
    · rfl
    · show 5 = min (n + 3 + 2) 5
      omega

theorem rank_level_le {i j : Invocation} (h : i.LogsAtMost j) :
    i.level.rank ≤ j.level.rank := by
  rw [rank_level, rank_level]
  rcases h with hquiet | ⟨hquiet, hle⟩
  · rw [if_pos hquiet]
    split
    · exact Nat.le_refl 1
    · omega
  · rw [hquiet, if_neg Bool.false_ne_true]
    split
    · omega
    · omega

/-- **The filter of an invocation** shows the events up to its level. -/
theorem read_filterText (i : Invocation) :
    LogFilter.read i.filterText = (⟨[⟨none, some i.level⟩], none⟩, []) := by
  have hwords : LogFilter.read "error" = (⟨[⟨none, some .error⟩], none⟩, []) ∧
      LogFilter.read "warn" = (⟨[⟨none, some .warn⟩], none⟩, []) ∧
      LogFilter.read "info" = (⟨[⟨none, some .info⟩], none⟩, []) ∧
      LogFilter.read "debug" = (⟨[⟨none, some .debug⟩], none⟩, []) ∧
      LogFilter.read "trace" = (⟨[⟨none, some .trace⟩], none⟩, []) := by decide +kernel
  obtain ⟨herror, hwarn, hinfo, hdebug, htrace⟩ := hwords
  obtain ⟨task, verbosity, quiet⟩ := i
  cases quiet with
  | true => exact herror
  | false =>
    rcases verbosity with _ | _ | _ | n
    · exact hwarn
    · exact hinfo
    · exact hdebug
    · exact htrace

end Arguments.Invocation

theorem LogFilter.admits_of_level (level : Level) (e : Event) :
    (LogFilter.mk [⟨none, some level⟩] none).admits e = decide (e.level.rank ≤ level.rank) := by
  rw [LogFilter.admits, Bool.and_true]
  rfl

/-- No event is an error. -/
theorem Event.lt_rank_level (e : Event) : Level.error.rank < e.level.rank := by
  cases e <;> simp [Event.level, Level.rank]

/-! ## 2. One run -/

/-- The diagnostics are complaints about the filter text, the events that the filter admits, and
the failure, if there is one. -/
theorem stderr_runInvocation (i : Arguments.Invocation) (filterText : Option String)
    (s : Session) :
    (runInvocation i filterText s).stderr =
      (LogFilter.read (filterText.getD i.filterText)).2.map .complaint ++
        diagnosticsOf (LogFilter.read (filterText.getD i.filterText)).1 (i.task.execute s) := rfl

/-- What is logged are the events that the filter admits. -/
theorem logged_runInvocation (i : Arguments.Invocation) (filterText : Option String)
    (s : Session) :
    (runInvocation i filterText s).logged =
      (i.task.execute s).events.filter
        (LogFilter.read (filterText.getD i.filterText)).1.admits := by
  rw [RunResult.logged, stderr_runInvocation, diagnosticsOf, List.filterMap_append,
    List.filterMap_append, List.filterMap_map, List.filterMap_map]
  cases (i.task.execute s).answer with
  | ok done => simp
  | error cause => simp

/-- Without a filter text, the events up to the level are logged. -/
theorem logged_runInvocation_none (i : Arguments.Invocation) (s : Session) :
    (runInvocation i none s).logged =
      (i.task.execute s).events.filter fun e => e.level.rank ≤ i.level.rank := by
  rw [logged_runInvocation, Option.getD_none, i.read_filterText]
  congr 1
  funext e
  exact LogFilter.admits_of_level i.level e

/-- **With more verbosity, more is logged.** -/
theorem logged_runInvocation_sublist {i j : Arguments.Invocation} (htask : j.task = i.task)
    (h : i.LogsAtMost j) (s : Session) :
    (runInvocation i none s).logged.Sublist (runInvocation j none s).logged := by
  rw [logged_runInvocation_none, logged_runInvocation_none, htask]
  refine List.monotone_filter_right _ fun e he => ?_
  have hle := Arguments.Invocation.rank_level_le h
  simp only [decide_eq_true_eq] at he ⊢
  omega

/-- **Nothing is logged quietly.** -/
theorem logged_runInvocation_of_quiet {i : Arguments.Invocation} (h : i.quiet = true)
    (s : Session) : (runInvocation i none s).logged = [] := by
  rw [logged_runInvocation_none, List.filter_eq_nil_iff]
  intro e _
  have hlevel : i.level = .error := by rw [Arguments.Invocation.level, if_pos h]
  rw [hlevel, decide_eq_true_eq, Nat.not_le]
  exact e.lt_rank_level

/-- The failure that the diagnostics end with. -/
def EndsWith (stderr : List Diagnostic) (cause : Failure) : Prop :=
  ∃ logs, stderr = logs ++ [.failure cause] ∧ ∀ other, .failure other ∉ logs

/-- **A task that fails is reported in one diagnostic,** the last one. -/
theorem endsWith_of_error {i : Arguments.Invocation} {s : Session} {cause : Failure}
    (h : (i.task.execute s).answer = .error cause) (filterText : Option String) :
    EndsWith (runInvocation i filterText s).stderr cause := by
  rw [stderr_runInvocation, diagnosticsOf, h, ← List.append_assoc]
  refine ⟨_, rfl, fun other hmem => ?_⟩
  simp at hmem

/-- The exit code says whether the task has failed. -/
theorem exitCode_runInvocation (i : Arguments.Invocation) (filterText : Option String)
    (s : Session) :
    (runInvocation i filterText s).exitCode = exitCodeOf (i.task.execute s).answer := rfl

/-- What is left behind is what the task leaves behind. -/
theorem session_runInvocation (i : Arguments.Invocation) (filterText : Option String)
    (s : Session) : (runInvocation i filterText s).session = (i.task.execute s).state := rfl

theorem exitCodeOf_eq_zero_iff {answer : Except Failure Unit} :
    exitCodeOf answer = 0 ↔ answer = .ok () := by
  cases answer with
  | ok done => exact ⟨fun _ => rfl, fun _ => rfl⟩
  | error cause => exact ⟨nofun, nofun⟩

theorem exitCodeOf_eq_one_iff {answer : Except Failure Unit} :
    exitCodeOf answer = 1 ↔ ∃ cause, answer = .error cause := by
  cases answer with
  | ok done => exact ⟨nofun, nofun⟩
  | error cause => exact ⟨fun _ => ⟨cause, rfl⟩, fun _ => rfl⟩

/-! ## 3. Routes -/

/-- A session with other bytes on standard input. -/
def Session.withStdin (s : Session) (bytes : ByteArray) : Session := { s with stdin := bytes }

namespace Task

/-- The task with another output. -/
def withOutput (output : Output) : Task → Task
  | demo _ format => .demo output format
  | disassemble input _ name format => .disassemble input output name format

theorem output_withOutput (task : Task) (output : Output) :
    (task.withOutput output).output = output := by
  cases task <;> rfl

/-- What a task asks for does not depend on its output. -/
theorem renders_withOutput {task : Task} {s : Session} {text : String}
    (h : task.Renders s text) (output : Output) : (task.withOutput output).Renders s text := by
  cases h with
  | demo _ format => exact .demo output format
  | disassemble _ name format hread hdecode hassemble =>
    exact .disassemble output name format hread hdecode hassemble

/-- A task that fails has printed nothing. -/
theorem stdout_of_error {task : Task} {s : Session} {cause : Failure}
    (h : (task.execute s).answer = .error cause) :
    (task.execute s).state.stdout = s.stdout := by
  rcases task.renders_or_refused s with ⟨text, hrenders⟩ | ⟨failure, hrefused⟩
  · obtain ⟨hanswer, hstate⟩ := execute_of_renders hrenders
    rw [hanswer] at h
    rw [hstate]
    cases hout : task.output with
    | stdout =>
      rw [hout] at h
      cases h
    | path path =>
      rw [hout] at h
      rcases s.deliver_cases text path with
        ⟨failure, files, hdeliver, -⟩ | ⟨middle, files, -, -, -, hdeliver⟩
      · rw [hdeliver]
      · rw [hdeliver] at h
        cases h
  · rw [(execute_of_refused hrefused).2]

/-- A task that does not fail has printed the text that it asks for, if it prints at all. -/
theorem printed_of_ok {task : Task} {s : Session} (hout : task.output = .stdout)
    (h : (task.execute s).answer = .ok ()) :
    ∃ text, task.Renders s text ∧
      (task.execute s).state = { s with stdout := s.stdout ++ text } := by
  rcases task.renders_or_refused s with ⟨text, hrenders⟩ | ⟨failure, hrefused⟩
  · have hstate := (execute_of_renders hrenders).2
    rw [hout] at hstate
    exact ⟨text, hrenders, hstate⟩
  · rw [(execute_of_refused hrefused).1] at h
    cases h

/-- Two failures are the same but for the input that they name. -/
def SameFailure (path : String) (cause other : Failure) : Prop :=
  other = cause ∨ ∃ e, cause = .readingInput e ∧ other = .reading path e

end Task

namespace Session

/-- Nothing that is created or written depends on standard input. -/
theorem prepare_withStdin (s : Session) (bytes : ByteArray) (path : String) :
    (s.withStdin bytes).prepare path =
      ⟨(s.prepare path).answer, (s.prepare path).state.withStdin bytes,
        (s.prepare path).events⟩ := by
  rw [prepare, prepare]
  cases outputDirectory? path with
  | none => rfl
  | some parent =>
    have hfiles : (s.withStdin bytes).files = s.files := rfl
    rw [hfiles]
    dsimp only
    rcases s.files.makeDirectories parent with ⟨files, made⟩
    cases made <;> rfl

/-- So a text is delivered in the same way. -/
theorem deliver_withStdin (s : Session) (bytes : ByteArray) (text : String) (output : Output) :
    ((s.withStdin bytes).deliver text output).answer = (s.deliver text output).answer ∧
      ((s.withStdin bytes).deliver text output).state =
        (s.deliver text output).state.withStdin bytes := by
  cases output with
  | stdout => exact ⟨rfl, rfl⟩
  | path path =>
    rw [deliver, deliver, prepare_withStdin]
    rcases s.prepare path with ⟨answer, prepared, events⟩
    cases answer with
    | error failure => exact ⟨rfl, rfl⟩
    | ok done =>
      have hfiles : (prepared.withStdin bytes).files = prepared.files := rfl
      simp only [Outcome.andThen, hfiles]
      cases prepared.files.write path text.toUTF8 with
      | error cause => exact ⟨rfl, rfl⟩
      | ok files => exact ⟨rfl, rfl⟩

end Session

/-- **A listing from standard input and the same listing from a file** have the same outcome, but
for the input that a failure names. -/
theorem Task.execute_of_stdin {s : Session} {path : String} (output : Output) (name : String)
    (format : Format) (hread : s.files.read path = .ok s.stdin) (bytes : ByteArray) :
    let fromStdin := (Task.disassemble .stdin output (some name) format).execute s
    let fromFile :=
      (Task.disassemble (.path path) output (some name) format).execute (s.withStdin bytes)
    fromFile.state = fromStdin.state.withStdin bytes ∧
      ((fromStdin.answer = .ok () ∧ fromFile.answer = .ok ()) ∨
        ∃ cause other, fromStdin.answer = .error cause ∧ fromFile.answer = .error other ∧
          SameFailure path cause other) := by
  have hstdin : s.read .stdin = .ok s.stdin := rfl
  have hfile : (s.withStdin bytes).read (.path path) = .ok s.stdin := hread
  cases hdecode : String.fromUTF8? s.stdin with
  | none =>
    obtain ⟨hanswer, hstate⟩ :=
      execute_of_refused (.undecodable output (some name) format hstdin hdecode)
    obtain ⟨hanswer', hstate'⟩ :=
      execute_of_refused (.undecodable output (some name) format hfile hdecode)
    refine ⟨by rw [hstate, hstate'], .inr ⟨_, _, hanswer, hanswer', ?_⟩⟩
    exact .inr ⟨_, rfl, rfl⟩
  | some source =>
    cases hassemble : (Chunk.assemble source).answer with
    | error e =>
      obtain ⟨hanswer, hstate⟩ :=
        execute_of_refused (.unassembled output (some name) format hstdin hdecode hassemble)
      obtain ⟨hanswer', hstate'⟩ :=
        execute_of_refused (.unassembled output (some name) format hfile hdecode hassemble)
      exact ⟨by rw [hstate, hstate'], .inr ⟨_, _, hanswer, hanswer', .inl rfl⟩⟩
    | ok done =>
      obtain ⟨hanswer, hstate⟩ :=
        execute_of_renders (.disassemble output (some name) format hstdin hdecode hassemble)
      obtain ⟨hanswer', hstate'⟩ :=
        execute_of_renders (.disassemble output (some name) format hfile hdecode hassemble)
      obtain ⟨hsame, hleft⟩ := s.deliver_withStdin bytes
        ((Chunk.assemble source).state.render name format).answer output
      refine ⟨hstate'.trans (hleft.trans (by rw [hstate]; rfl)), ?_⟩
      have hequal := hanswer'.trans (hsame.trans hanswer.symm)
      rw [hequal]
      cases (Task.execute (.disassemble .stdin output (some name) format) s).answer with
      | ok done => exact .inl ⟨rfl, rfl⟩
      | error cause => exact .inr ⟨cause, cause, rfl, rfl, .inl rfl⟩

/-! ## 4. All runs of a task -/

namespace Arguments

/-- What the runs of a command line in a session leave behind, and which other runs leave the
same. -/
structure Unaffected (arguments : List String) (i : Invocation) (s : Session) : Prop where
  /-- The options for verbosity and the filter text change neither the exit code nor the files nor
  standard output. -/
  same_result : ∀ others j, read others = .ok j →
    withoutVerbosity others = withoutVerbosity arguments → ∀ filterText otherText,
      (runProgram others otherText s).exitCode = (runProgram arguments filterText s).exitCode ∧
      (runProgram others otherText s).session = (runProgram arguments filterText s).session
  /-- Without a filter text, more verbosity adds to what is logged. -/
  logged_sublist : ∀ others j, read others = .ok j →
    withoutVerbosity others = withoutVerbosity arguments → i.LogsAtMost j →
      (runProgram arguments none s).logged.Sublist (runProgram others none s).logged
  logged_of_quiet : i.quiet = true → (runProgram arguments none s).logged = []
  exitCode_eq : ∀ filterText, (runProgram arguments filterText s).exitCode = 0 ∨
    (runProgram arguments filterText s).exitCode = 1
  /-- A run that fails has printed nothing, and it reports the same failure at the end, however much
  is logged before it. -/
  failed : ∀ filterText, (runProgram arguments filterText s).exitCode = 1 →
    (runProgram arguments filterText s).session.stdout = s.stdout ∧
    ∃ cause, (∀ others j, read others = .ok j →
      withoutVerbosity others = withoutVerbosity arguments → ∀ otherText,
        EndsWith (runProgram others otherText s).stderr cause) ∧
      ∀ time, (Diagnostic.failure cause).text time =
        s!"error: command failed: {cause.message}\n"
  /-- A run that succeeds without an output path has printed the whole rendering, and with such a
  path, it puts the same text there. -/
  printed : ∀ filterText, (runProgram arguments filterText s).exitCode = 0 →
    i.task.output = .stdout → ∃ text, i.task.Renders s text ∧
      (runProgram arguments filterText s).session = { s with stdout := s.stdout ++ text } ∧
      ∀ path others j, read others = .ok j → j.task = i.task.withOutput (.path path) →
        s.files.Plain → s.files.Creatable path → ∀ otherText,
          (runProgram others otherText s).exitCode = 0 ∧
          (runProgram others otherText s).session.stdout = s.stdout ∧
          (runProgram others otherText s).session.files.read path = .ok text.toUTF8
  /-- A listing from standard input and from a file that has the same bytes are rendered alike, or
  refused alike. -/
  rerouted : ∀ path output name format others j, read others = .ok j →
    i.task = .disassemble .stdin output (some name) format →
    j.task = .disassemble (.path path) output (some name) format →
    s.files.read path = .ok s.stdin → ∀ filterText otherText bytes,
      (runProgram others otherText (s.withStdin bytes)).exitCode =
        (runProgram arguments filterText s).exitCode ∧
      (runProgram others otherText (s.withStdin bytes)).session =
        (runProgram arguments filterText s).session.withStdin bytes ∧
      ((runProgram arguments filterText s).exitCode = 1 → ∃ cause other,
        EndsWith (runProgram arguments filterText s).stderr cause ∧
        EndsWith (runProgram others otherText (s.withStdin bytes)).stderr other ∧
        Task.SameFailure path cause other)

theorem runProgram_eq {arguments : List String} {i : Invocation}
    (h : read arguments = .ok i) (filterText : Option String) (s : Session) :
    runProgram arguments filterText s = runInvocation i filterText s := by
  rw [runProgram, h]

/-- **Neither logging nor routing changes the result of a run.** -/
theorem runProgram_unaffected {arguments : List String} {i : Invocation}
    (h : read arguments = .ok i) (s : Session) : Unaffected arguments i s where
  same_result others j hj hsame filterText otherText := by
    rw [runProgram_eq h, runProgram_eq hj, exitCode_runInvocation, exitCode_runInvocation,
      session_runInvocation, session_runInvocation, task_eq hsame h hj]
    exact ⟨rfl, rfl⟩
  logged_sublist others j hj hsame hle := by
    rw [runProgram_eq h, runProgram_eq hj]
    exact logged_runInvocation_sublist (task_eq hsame h hj) hle s
  logged_of_quiet hquiet := by
    rw [runProgram_eq h]
    exact logged_runInvocation_of_quiet hquiet s
  exitCode_eq filterText := by
    rw [runProgram_eq h, exitCode_runInvocation]
    cases (i.task.execute s).answer with
    | ok done => exact .inl rfl
    | error cause => exact .inr rfl
  failed filterText hfailed := by
    rw [runProgram_eq h] at hfailed ⊢
    obtain ⟨cause, hcause⟩ := exitCodeOf_eq_one_iff.mp hfailed
    refine ⟨Task.stdout_of_error hcause, cause, fun others j hj hsame otherText => ?_,
      fun time => rfl⟩
    rw [runProgram_eq hj]
    refine endsWith_of_error ?_ otherText
    rw [task_eq hsame h hj, hcause]
  printed filterText hdone hout := by
    rw [runProgram_eq h] at hdone ⊢
    obtain ⟨text, hrenders, hstate⟩ := Task.printed_of_ok hout (exitCodeOf_eq_zero_iff.mp hdone)
    refine ⟨text, hrenders, hstate, fun path others j hj htask hplain hcreatable otherText => ?_⟩
    rw [runProgram_eq hj, exitCode_runInvocation]
    have hpath : j.task.output = .path path := by rw [htask, Task.output_withOutput]
    have hrenders : j.task.Renders s text := by
      rw [htask]
      exact Task.renders_withOutput hrenders _
    obtain ⟨hok, files, location, hafter, hdelivered⟩ :=
      Task.exists_delivered hplain hpath hcreatable hrenders
    have hsession : (runInvocation j otherText s).session = { s with files := files } := hafter
    rw [hok, hsession]
    exact ⟨rfl, rfl, hdelivered.read_eq⟩
  rerouted path output name format others j hj hi' hj' hread filterText otherText bytes := by
    rw [runProgram_eq h, runProgram_eq hj]
    rw [exitCode_runInvocation, exitCode_runInvocation, session_runInvocation,
      session_runInvocation]
    obtain ⟨hstate, hanswers⟩ := Task.execute_of_stdin output name format hread bytes
    rw [← hi', ← hj'] at hstate hanswers
    refine ⟨?_, hstate, ?_⟩
    · rcases hanswers with ⟨hanswer, hother⟩ | ⟨cause, other, hanswer, hother, -⟩
      · rw [hanswer, hother]
      · rw [hanswer, hother]
        rfl
    · intro hfailed
      rcases hanswers with ⟨hanswer, -⟩ | ⟨cause, other, hanswer, hother, hcauses⟩
      · rw [hanswer] at hfailed
        cases hfailed
      · exact ⟨cause, other, endsWith_of_error hanswer filterText,
          endsWith_of_error hother otherText, hcauses⟩

/-- There is room for a file behind a directory that is missing and the way back from it. -/
theorem creatable_listingAlone : Task.listingAlone.files.Creatable "new/../trace" where
  no_zero := by decide
  ne_empty := by decide
  size_le := by decide
  no_slash := by decide
  room := by
    have hfronts (front : List String) (h : front <+: ["new", ".."]) :
        front = [] ∨ front = ["new"] ∨ front = ["new", ".."] := by
      simpa [List.inits] using (List.mem_inits _ _).mpr h
    refine ⟨["new", ".."], "trace", by decide +kernel, ?_⟩
    refine ⟨by decide, by decide, by decide, fun front h => ?_, .inl rfl, fun front h => ?_⟩
    · rcases hfronts front h with rfl | rfl | rfl
      · exact .inr rfl
      · exact .inl rfl
      · exact .inr rfl
    · rcases hfronts front h with rfl | rfl | rfl
      · decide
      · decide
      · decide

/-- A listing that is printed from standard input, sent to a file through a directory that is
missing, with more verbosity, and printed from a file that has the same bytes. -/
theorem runProgram_unaffected_of_listing :
    let s := Task.listingAlone.withStdin "3: CONSTANT 1".toUTF8
    let trace := "== t ==\n0000    3 CONSTANT            0 '1'\n"
    let printing := runProgram ["disasm", "--name", "t"] none s
    let sending := runProgram ["-v", "disasm", "--name", "t", "-o", "new/../trace"] none s
    let reading := runProgram ["disasm", "--name", "t", "listing"] none (s.withStdin .empty)
    read ["disasm", "--name", "t"] = .ok ⟨.disassemble .stdin .stdout (some "t") .text, 0, false⟩ ∧
      Unaffected ["disasm", "--name", "t"] ⟨.disassemble .stdin .stdout (some "t") .text, 0, false⟩
        s ∧
      s.files.Plain ∧ s.files.Creatable "new/../trace" ∧
      printing.exitCode = 0 ∧ printing.session = { s with stdout := trace } ∧
      sending.exitCode = 0 ∧ sending.session.stdout = "" ∧
      sending.session.files.read "new/../trace" = .ok trace.toUTF8 ∧
      reading.exitCode = 0 ∧ reading.session.stdout = trace := by
  intro s trace printing sending reading
  have hread : read ["disasm", "--name", "t"] =
      .ok ⟨.disassemble .stdin .stdout (some "t") .text, 0, false⟩ := by decide +kernel
  have hunaffected := runProgram_unaffected hread s
  have hprinting : printing.exitCode = 0 := by decide +kernel
  have hstdout : printing.session.stdout = trace := by decide +kernel
  obtain ⟨text, -, hsession, hsent⟩ := hunaffected.printed none hprinting rfl
  obtain rfl : text = trace := by
    rw [hsession] at hstdout
    exact String.empty_append.symm.trans hstdout
  obtain ⟨hexit, hempty, hfile⟩ := hsent "new/../trace"
    ["-v", "disasm", "--name", "t", "-o", "new/../trace"]
    ⟨.disassemble .stdin (.path "new/../trace") (some "t") .text, 1, false⟩ (by decide +kernel) rfl
    Task.plain_listingAlone creatable_listingAlone none
  obtain ⟨hsame, hleft, -⟩ := hunaffected.rerouted "listing" .stdout "t" .text
    ["disasm", "--name", "t", "listing"]
    ⟨.disassemble (.path "listing") .stdout (some "t") .text, 0, false⟩ (by decide +kernel) rfl rfl
    (by decide +kernel) none none .empty
  refine ⟨hread, hunaffected, Task.plain_listingAlone, creatable_listingAlone, hprinting, ?_, hexit,
    hempty, hfile, hsame.trans hprinting, ?_⟩
  · rw [hsession]
    rfl
  · rw [hleft]
    exact hstdout

end Arguments
end BytecodeTrace
