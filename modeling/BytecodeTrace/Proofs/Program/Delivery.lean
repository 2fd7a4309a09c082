/-
# A task writes its whole rendering or changes no file

A task computes its rendering before it touches the file system, and what it does to the file system
ends with the one write that puts the rendering in its place.

* `Task.Renders`, `Task.Refused`: the text that a task asks for, or why there is none;
* `Task.rendering_cases`: computing the rendering answers one of the two;
* `Session.deliver_cases`: what sending a text to a path does, whether it succeeds or not;
* `Session.deliver_of_creatable`: it succeeds whenever the path lacks nothing but directories;
* `Task.execute_allOrNothing`: so a task that fails has changed no file, and one that succeeds has
  written what it was asked for, and nothing else.
-/
import BytecodeTrace.Program.Task
import BytecodeTrace.Proofs.Files.Writing
import BytecodeTrace.Proofs.Listing.FirstFault

namespace BytecodeTrace

/-! ## 1. Renderings -/

/-- The failure is about what was to be rendered, not about where it was to go. -/
def Failure.IsAboutInput : Failure → Prop
  | demo _ | readingInput _ | reading .. | assembling .. => True
  | printing _ | creating .. | writing .. => False

/-- A listing's fault is reported with its name and the number of the line. -/
theorem message_assembling (name : String) (e : Listing.Error) :
    (Failure.assembling name e).message =
      s!"assembling {name}: line {e.line}: {e.fault.message}" := by
  have hmessage : (Failure.assembling name e).message = s!"assembling {name}: {e.message}" := rfl
  have hline : e.message = s!"line {e.line}: {e.fault.message}" := rfl
  rw [hmessage, hline]
  simp only [toString, ← String.toList_inj, String.toList_append]
  simp

namespace Task

/-- The text that a task asks for: the rendering of the reference chunk, or of the chunk of the
listing that is in its input. -/
inductive Renders (s : Session) : Task → String → Prop where
  | demo (output : Output) (format : Format) :
    Renders s (.demo output format) (Chunk.reference.state.render demoName format).answer
  | disassemble {input : Input} {bytes : ByteArray} {source : String} (output : Output)
    (name : Option String) (format : Format) (hread : s.read input = .ok bytes)
    (hdecode : String.fromUTF8? bytes = some source)
    (hassemble : (Chunk.assemble source).answer = .ok ()) :
    Renders s (.disassemble input output name format)
      ((Chunk.assemble source).state.render (name.getD input.defaultName) format).answer

/-- Why a task asks for no text: its input is not there, is no text, or is no listing. -/
inductive Refused (s : Session) : Task → Failure → Prop where
  | unreadable {input : Input} {cause : SystemError} (output : Output) (name : Option String)
    (format : Format) (hread : s.read input = .error cause) :
    Refused s (.disassemble input output name format) (input.failure cause)
  | undecodable {input : Input} {bytes : ByteArray} (output : Output) (name : Option String)
    (format : Format) (hread : s.read input = .ok bytes)
    (hdecode : String.fromUTF8? bytes = none) :
    Refused s (.disassemble input output name format) (input.failure .invalidText)
  | unassembled {input : Input} {bytes : ByteArray} {source : String} {e : Listing.Error}
    (output : Output) (name : Option String) (format : Format) (hread : s.read input = .ok bytes)
    (hdecode : String.fromUTF8? bytes = some source)
    (hassemble : (Chunk.assemble source).answer = .error e) :
    Refused s (.disassemble input output name format)
      (.assembling (name.getD input.defaultName) e)

theorem isAboutInput_of_refused {task : Task} {s : Session} {failure : Failure}
    (h : task.Refused s failure) : failure.IsAboutInput := by
  have hinput (input : Input) (cause : SystemError) : (input.failure cause).IsAboutInput := by
    cases input <;> trivial
  cases h with
  | unreadable output name format _ => exact hinput _ _
  | undecodable output name format _ _ => exact hinput _ _
  | unassembled output name format _ _ _ => trivial

/-- A listing is refused for the first of its lines that is bad. -/
theorem stopsAt_of_refused {task : Task} {s : Session} {name : String} {e : Listing.Error}
    (h : task.Refused s (.assembling name e)) :
    ∃ input bytes source, s.read input = .ok bytes ∧ String.fromUTF8? bytes = some source ∧
      Chunk.empty.StopsAt source e := by
  generalize hfailure : Failure.assembling name e = failure at h
  cases h with
  | @unreadable input =>
    cases input with
    | stdin => cases hfailure
    | path p => cases hfailure
  | @undecodable input =>
    cases input with
    | stdin => cases hfailure
    | path p => cases hfailure
  | unassembled output name format hread hdecode hassemble =>
    cases hfailure
    exact ⟨_, _, _, hread, hdecode, Chunk.stopsAt_of_coupled Chunk.coupled_empty hassemble⟩

theorem answer_renderDemo (format : Format) :
    (renderDemo format).answer =
      .ok (Chunk.reference.state.render demoName format).answer := by
  have hreference : Chunk.reference.answer = .ok () := by decide +kernel
  rw [renderDemo, Outcome.answer_andThen, hreference]
  rfl

theorem answer_renderListing_of_ok {name source : String} {format : Format}
    (h : (Chunk.assemble source).answer = .ok ()) :
    (renderListing name format source).answer =
      .ok ((Chunk.assemble source).state.render name format).answer := by
  rw [renderListing, Outcome.answer_andThen, h]
  rfl

theorem answer_renderListing_of_error {name source : String} {format : Format}
    {e : Listing.Error} (h : (Chunk.assemble source).answer = .error e) :
    (renderListing name format source).answer = .error (.assembling name e) := by
  rw [renderListing, Outcome.answer_andThen, h]
  rfl

/-- Computing the rendering answers the text that the task asks for. -/
theorem answer_rendering_of_renders {task : Task} {s : Session} {text : String}
    (h : task.Renders s text) : (task.rendering s.read).answer = .ok text := by
  cases h with
  | demo output format => exact answer_renderDemo format
  | disassemble output name format hread hdecode hassemble =>
    rw [rendering, hread, Except.bind, decodeText, hdecode]
    exact answer_renderListing_of_ok hassemble

/-- Or it answers why there is none. -/
theorem answer_rendering_of_refused {task : Task} {s : Session} {failure : Failure}
    (h : task.Refused s failure) : (task.rendering s.read).answer = .error failure := by
  cases h with
  | unreadable output name format hread =>
    rw [rendering, hread]
    rfl
  | undecodable output name format hread hdecode =>
    rw [rendering, hread, Except.bind, decodeText, hdecode]
    rfl
  | unassembled output name format hread hdecode hassemble =>
    rw [rendering, hread, Except.bind, decodeText, hdecode]
    exact answer_renderListing_of_error hassemble

/-- There is a text, or a reason why there is none. -/
theorem renders_or_refused (task : Task) (s : Session) :
    (∃ text, task.Renders s text) ∨ ∃ failure, task.Refused s failure := by
  cases task with
  | demo output format => exact .inl ⟨_, .demo output format⟩
  | disassemble input output name format =>
    cases hread : s.read input with
    | error cause => exact .inr ⟨_, .unreadable output name format hread⟩
    | ok bytes =>
      cases hdecode : String.fromUTF8? bytes with
      | none => exact .inr ⟨_, .undecodable output name format hread hdecode⟩
      | some source =>
        cases hassemble : (Chunk.assemble source).answer with
        | error e => exact .inr ⟨_, .unassembled output name format hread hdecode hassemble⟩
        | ok done => exact .inl ⟨_, .disassemble output name format hread hdecode hassemble⟩

/-- A task that is refused leaves its session as it is. -/
theorem execute_of_refused {task : Task} {s : Session} {failure : Failure}
    (h : task.Refused s failure) :
    (task.execute s).answer = .error failure ∧ (task.execute s).state = s := by
  have hanswer := answer_rendering_of_refused h
  rw [execute]
  split
  · rename_i other _ _ heq
    rw [heq] at hanswer
    cases hanswer
    exact ⟨rfl, rfl⟩
  · rename_i heq
    rw [heq] at hanswer
    cases hanswer

/-- Otherwise it delivers its text. -/
theorem execute_of_renders {task : Task} {s : Session} {text : String}
    (h : task.Renders s text) :
    (task.execute s).answer = (s.deliver text task.output).answer ∧
      (task.execute s).state = (s.deliver text task.output).state := by
  have hanswer := answer_rendering_of_renders h
  rw [execute]
  split
  · rename_i heq
    rw [heq] at hanswer
    cases hanswer
  · rename_i other _ _ heq
    rw [heq] at hanswer
    cases hanswer
    exact ⟨rfl, rfl⟩

end Task

/-! ## 2. Delivery -/

namespace Session

/-- What is above an output path, when nothing is to be created there or it has been created. -/
def HasParent (fs : FileSystem) (path : String) : Prop :=
  ∀ parent, outputDirectory? path = some parent →
    ∃ here, fs.walk (fs.way parent.toList) = .ok (.directory here)

theorem outputDirectory?_eq_some {path parent : String}
    (h : outputDirectory? path = some parent) :
    Path.parent? path.toList = some parent.toList ∧ parent.toList ≠ [] := by
  rw [outputDirectory?] at h
  split at h
  · cases h
  · cases h
  · rename_i parent' hne hparent
    cases h
    rw [String.toList_ofList]
    exact ⟨hparent, fun heq => hne heq⟩

/-- Creating the directory above a path adds directories, and then it is there. -/
theorem prepare_cases (s : Session) (path : String) :
    (∃ failure files, s.prepare path = ⟨.error failure, { s with files := files }, []⟩ ∧
      s.files.GrowsTo files ∧ ¬failure.IsAboutInput) ∨
    ∃ files, s.prepare path = ⟨.ok (), { s with files := files }, []⟩ ∧
      s.files.GrowsTo files ∧ HasParent files path := by
  rw [prepare]
  cases hparent : outputDirectory? path with
  | none => exact .inr ⟨s.files, rfl, .refl _, fun parent h => by rw [hparent] at h; cases h⟩
  | some parent =>
    have hgrows := FileSystem.growsTo_makeDirectoriesUpTo parent.length s.files parent.toList
    dsimp only [FileSystem.makeDirectories]
    cases hmade : FileSystem.makeDirectoriesUpTo parent.length s.files parent.toList with
    | mk files made =>
      rw [hmade] at hgrows
      cases made with
      | error cause => exact .inl ⟨_, files, rfl, hgrows, id⟩
      | ok done =>
        refine .inr ⟨files, rfl, hgrows, fun other hother => ?_⟩
        rw [hparent] at hother
        cases hother
        exact FileSystem.walk_of_makeDirectoriesUpTo (outputDirectory?_eq_some hparent).2
          (Nat.le_of_eq String.length_toList) hmade

/-- **Sending a text to a path** adds directories at most, or writes the text behind that. -/
theorem deliver_cases (s : Session) (text path : String) :
    (∃ failure files,
      s.deliver text (.path path) = ⟨.error failure, { s with files := files }, []⟩ ∧
      s.files.GrowsTo files ∧ ¬failure.IsAboutInput) ∨
    ∃ middle files, s.files.GrowsTo middle ∧ HasParent middle path ∧
      middle.write path text.toUTF8 = .ok files ∧
      s.deliver text (.path path) =
        ⟨.ok (), { s with files := files }, [.fileWritten text.utf8ByteSize path]⟩ := by
  rw [deliver]
  rcases s.prepare_cases path with
    ⟨failure, files, hprepare, hgrows, hkind⟩ | ⟨middle, hprepare, hgrows, habove⟩
  · rw [hprepare]
    exact .inl ⟨failure, files, rfl, hgrows, hkind⟩
  · rw [hprepare, Outcome.andThen]
    dsimp only
    cases hwrite : middle.write path text.toUTF8 with
    | error cause => exact .inl ⟨_, middle, rfl, hgrows, id⟩
    | ok files => exact .inr ⟨middle, files, hgrows, habove, hwrite, rfl⟩

/-- **A text reaches every path that lacks nothing but directories.** -/
theorem deliver_of_creatable {s : Session} (h : s.files.Plain) {path : String}
    (hcreatable : s.files.Creatable path) (text : String) :
    (s.deliver text (.path path)).answer = .ok () := by
  obtain ⟨parent, hparent⟩ := h.exists_parent hcreatable
  obtain ⟨middle, hmade, hwrites⟩ := h.exists_write hcreatable hparent
  have hprepare : s.prepare path = ⟨.ok (), { s with files := middle }, []⟩ := by
    rw [prepare, outputDirectory?, hparent]
    cases parent with
    | nil =>
      cases hmade
      rfl
    | cons c parent =>
      dsimp only [FileSystem.makeDirectories]
      rw [String.toList_ofList, String.length_ofList, hmade]
      rfl
  obtain ⟨after, hwrite⟩ := hwrites text.toUTF8
  rw [deliver, hprepare, Outcome.andThen]
  dsimp only
  rw [hwrite]

/-- It reaches no other path. -/
theorem creatable_of_deliver {s : Session} (h : s.files.Plain) {path text : String}
    (hdeliver : (s.deliver text (.path path)).answer = .ok ()) : s.files.Creatable path := by
  rcases s.deliver_cases text path with
    ⟨failure, files, heq, -⟩ | ⟨middle, files, hgrows, -, hwrite, -⟩
  · rw [heq] at hdeliver
    cases hdeliver
  · obtain ⟨hrefusal, hname, location, spot, hwalk, hat, -⟩ :=
      FileSystem.exists_spot_of_write hwrite
    have hfree : middle.restrictions = [] := hgrows.restrictions_eq.trans h.restrictions_eq_nil
    have hmiddle := FileSystem.writableOnceGrown_of_at hfree hrefusal hname hwalk hat
    exact h.creatable_iff.mpr (hmiddle.of_growsTo hgrows)

end Session

/-! ## 3. Execution -/

namespace FileSystem

variable {fs fs' : FileSystem}

/-- The regular files are those of another file system, with what is in them. -/
def SameFiles (fs fs' : FileSystem) : Prop :=
  ∀ location content, fs'.at? location = some (.file content) ↔
    fs.at? location = some (.file content)

/-- The path leads to a file with the content, and no other file has been changed, created or
removed. -/
structure Delivered (fs fs' : FileSystem) (path : String) (location : Location)
    (content : ByteArray) : Prop where
  resolve_eq : fs'.resolve path = .ok (.file location content)
  read_eq : fs'.read path = .ok content
  other_iff : ∀ l ≠ location, ∀ old, fs'.at? l = some (.file old) ↔ fs.at? l = some (.file old)
  /-- A file that the path led to before has been replaced. -/
  eq_location : ∀ l old, fs.resolve path = .ok (.file l old) → l = location
  directory_stays : ∀ l, fs.node? l = some .directory → fs'.node? l = some .directory
  /-- The directory above the path is there. -/
  parent_isDirectory : ∀ parent, Session.outputDirectory? path = some parent →
    fs'.isDirectory parent = true

/-- More directories are no more files. -/
theorem GrowsTo.sameFiles (h : fs.GrowsTo fs') : fs.SameFiles fs' := by
  intro location content
  rw [← node?_eq_file_iff, ← node?_eq_file_iff]
  constructor
  · intro hnew
    rw [h.node?_eq_of_ne (by rw [hnew]; exact nofun), hnew]
  · exact h.node?_eq_some

/-- What is written behind new directories is delivered. -/
theorem delivered_of_wrote {middle : FileSystem} {path : String} {location : Location}
    {content : ByteArray} (hfree : fs.restrictions = []) (hgrows : fs.GrowsTo middle)
    (habove : Session.HasParent middle path) (hwrote : Wrote middle fs' path location content) :
    Delivered fs fs' path location content where
  resolve_eq := hwrote.resolve_eq
  read_eq := hwrote.read_eq (hgrows.restrictions_eq.trans hfree)
  other_iff l hl old := by
    rw [← hgrows.sameFiles l old, ← node?_eq_file_iff, ← node?_eq_file_iff, hwrote.node?_eq,
      if_neg hl]
  eq_location l old hresolve := by
    obtain ⟨-, spot, hwalk, hspot⟩ := exists_spot_of_resolve hresolve
    cases spot with
    | directory here => cases hspot
    | vacant here => cases hspot
    | file here content =>
      cases hspot
      have hmiddle := hgrows.walk_eq hwalk nofun
      rw [← hgrows.way_eq] at hmiddle
      exact hwrote.eq_location hmiddle (.inr ⟨old, rfl⟩)
  directory_stays l hl := hwrote.node?_eq_directory (hgrows.node?_eq_some hl)
  parent_isDirectory parent hparent := by
    obtain ⟨habove', hne⟩ := Session.outputDirectory?_eq_some hparent
    obtain ⟨here, hhere⟩ := habove parent hparent
    have hrefusal := refusal?_of_parent?_eq_some habove' hne
      (by rw [String.ofList_toList]; exact hwrote.refusal?_eq)
    rw [String.ofList_toList] at hrefusal
    rw [isDirectory, FileSystem.resolve_eq, hrefusal, hwrote.way_eq,
      hwrote.walk_directory_eq hhere]
    rfl

end FileSystem

namespace Task

/-- What a task with an output path does to a session: everything, or nothing to its files. -/
structure AllOrNothing (task : Task) (s : Session) (path : String) : Prop where
  /-- A task that fails has changed, created and removed no file. -/
  failed : ∀ failure, (task.execute s).answer = .error failure →
    s.files.SameFiles (task.execute s).state.files
  /-- If what was to be rendered is at fault, nothing at all has happened. -/
  refused : ∀ failure, (task.execute s).answer = .error failure → failure.IsAboutInput →
    task.Refused s failure ∧ (task.execute s).state = s
  /-- A task that does not fail has written the text that it asks for, in a file that has the path,
  and changed no other file. -/
  delivered : (task.execute s).answer = .ok () → ∃ text location, task.Renders s text ∧
    s.files.Delivered (task.execute s).state.files path location text.toUTF8
  /-- It fails if there is no such text, and otherwise only for a path where no file can be. -/
  fails_iff : (∃ failure, (task.execute s).answer = .error failure) ↔
    (∃ failure, task.Refused s failure) ∨ ¬s.files.Creatable path
  /-- If there is no such text, then for the reason that the failure gives. -/
  answer_eq : ∀ failure, task.Refused s failure →
    (task.execute s).answer = .error failure ∧ failure.IsAboutInput
  /-- The fault of a listing is that of its first bad line, and it is reported with its number. -/
  assembling : ∀ name e, (task.execute s).answer = .error (.assembling name e) →
    (∃ input bytes source, s.read input = .ok bytes ∧ String.fromUTF8? bytes = some source ∧
      Chunk.empty.StopsAt source e) ∧
    (Failure.assembling name e).message =
      s!"assembling {name}: line {e.line}: {e.fault.message}"

section OutputPath

variable {task : Task} {s : Session} {path : String}

/-- What a task with an output path comes to: it is refused, its path is, or it has written. -/
theorem execute_cases (hpath : task.output = .path path) :
    (∃ failure, task.Refused s failure ∧ (task.execute s).answer = .error failure ∧
      (task.execute s).state = s) ∨
    (∃ failure files, (task.execute s).answer = .error failure ∧ ¬failure.IsAboutInput ∧
      (task.execute s).state = { s with files := files } ∧ s.files.GrowsTo files) ∨
    ∃ text middle files, task.Renders s text ∧ (task.execute s).answer = .ok () ∧
      (task.execute s).state = { s with files := files } ∧ s.files.GrowsTo middle ∧
      Session.HasParent middle path ∧ middle.write path text.toUTF8 = .ok files := by
  rcases task.renders_or_refused s with ⟨text, hrenders⟩ | ⟨failure, hrefused⟩
  · obtain ⟨hanswer, hstate⟩ := execute_of_renders hrenders
    rw [hpath] at hanswer hstate
    rcases s.deliver_cases text path with
      ⟨failure, files, hdeliver, hgrows, hkind⟩ | ⟨middle, files, hgrows, habove, hwrite, hdeliver⟩
    · rw [hdeliver] at hanswer hstate
      exact .inr (.inl ⟨failure, files, hanswer, hkind, hstate, hgrows⟩)
    · rw [hdeliver] at hanswer hstate
      exact .inr (.inr ⟨text, middle, files, hrenders, hanswer, hstate, hgrows, habove, hwrite⟩)
  · exact .inl ⟨failure, hrefused, execute_of_refused hrefused⟩

/-- A failure about the input is that of a refused task. -/
theorem refused_of_isAboutInput (hpath : task.output = .path path) {failure : Failure}
    (h : (task.execute s).answer = .error failure) (hinput : failure.IsAboutInput) :
    task.Refused s failure ∧ (task.execute s).state = s := by
  rcases execute_cases (s := s) hpath with
    ⟨other, hrefused, hanswer, hstate⟩ | ⟨other, files, hanswer, hkind, -, -⟩ |
      ⟨text, middle, files, -, hanswer, -⟩
  · rw [hanswer] at h
    cases h
    exact ⟨hrefused, hstate⟩
  · rw [hanswer] at h
    cases h
    exact absurd hinput hkind
  · rw [hanswer] at h
    cases h

/-- A task that asks for a text fails exactly if its path cannot be written. -/
theorem fails_iff_of_renders (hfiles : s.files.Plain) (hpath : task.output = .path path)
    {text : String} (h : task.Renders s text) :
    (∃ failure, (task.execute s).answer = .error failure) ↔ ¬s.files.Creatable path := by
  rw [(execute_of_renders h).1, hpath]
  constructor
  · rintro ⟨failure, hfailure⟩ hcreatable
    rw [Session.deliver_of_creatable hfiles hcreatable text] at hfailure
    cases hfailure
  · intro hnot
    cases hanswer : (s.deliver text (.path path)).answer with
    | error failure => exact ⟨failure, rfl⟩
    | ok done => exact absurd (Session.creatable_of_deliver hfiles hanswer) hnot

/-- A task that asks for a text delivers it to every path that lacks nothing but directories. -/
theorem exists_delivered (hfiles : s.files.Plain) (hpath : task.output = .path path)
    (hcreatable : s.files.Creatable path) {text : String} (h : task.Renders s text) :
    (task.execute s).answer = .ok () ∧ ∃ files location,
      (task.execute s).state = { s with files := files } ∧
      s.files.Delivered files path location text.toUTF8 := by
  obtain ⟨hanswer, hstate⟩ := execute_of_renders h
  rw [hpath] at hanswer hstate
  have hok := Session.deliver_of_creatable hfiles hcreatable text
  refine ⟨hanswer.trans hok, ?_⟩
  rcases s.deliver_cases text path with
    ⟨failure, files, hdeliver, -⟩ | ⟨middle, files, hgrows, habove, hwrite, hdeliver⟩
  · rw [hdeliver] at hok
    cases hok
  · obtain ⟨location, hwrote⟩ := FileSystem.wrote_of_write hwrite
    rw [hdeliver] at hstate
    exact ⟨files, location, hstate,
      FileSystem.delivered_of_wrote hfiles.restrictions_eq_nil hgrows habove hwrote⟩

/-- **A task with an output path writes its whole rendering, or changes no file.**  This holds in
every file system of directories and files and for every path, also where the output is the file
that the listing was read from. -/
theorem execute_allOrNothing (hfiles : s.files.Plain) (hpath : task.output = .path path) :
    task.AllOrNothing s path where
  failed failure h := by
    rcases execute_cases (s := s) hpath with
      ⟨-, -, -, hstate⟩ | ⟨-, files, -, -, hstate, hgrows⟩ | ⟨-, -, -, -, hanswer, -⟩
    · rw [hstate]
      exact (FileSystem.GrowsTo.refl s.files).sameFiles
    · rw [hstate]
      exact hgrows.sameFiles
    · rw [hanswer] at h
      cases h
  refused failure h hinput := refused_of_isAboutInput hpath h hinput
  delivered h := by
    rcases execute_cases (s := s) hpath with
      ⟨_, -, hanswer, -⟩ | ⟨_, -, hanswer, -⟩ |
        ⟨text, middle, files, hrenders, -, hstate, hgrows, habove, hwrite⟩
    · rw [hanswer] at h
      cases h
    · rw [hanswer] at h
      cases h
    · obtain ⟨location, hwrote⟩ := FileSystem.wrote_of_write hwrite
      rw [hstate]
      exact ⟨text, location, hrenders,
        FileSystem.delivered_of_wrote hfiles.restrictions_eq_nil hgrows habove hwrote⟩
  fails_iff := by
    rcases task.renders_or_refused s with ⟨text, hrenders⟩ | ⟨failure, hrefused⟩
    · rw [fails_iff_of_renders hfiles hpath hrenders, or_iff_right]
      rintro ⟨failure, hrefused⟩
      have hanswer := answer_rendering_of_refused hrefused
      rw [answer_rendering_of_renders hrenders] at hanswer
      cases hanswer
    · exact ⟨fun _ => .inl ⟨failure, hrefused⟩, fun _ => ⟨failure, (execute_of_refused hrefused).1⟩⟩
  answer_eq failure h := ⟨(execute_of_refused h).1, isAboutInput_of_refused h⟩
  assembling name e h := by
    exact ⟨stopsAt_of_refused (refused_of_isAboutInput hpath h trivial).1,
      message_assembling name e⟩

end OutputPath

/-- A session with a listing alone in its file system. -/
def listingAlone : Session :=
  ⟨⟨[("listing", .file "3: CONSTANT 1".toUTF8)], [], []⟩, .empty, ""⟩

theorem plain_listingAlone : listingAlone.files.Plain where
  node?_ne_link location target := by
    rcases location with _ | ⟨name, rest⟩
    · exact nofun
    · intro h
      rw [FileSystem.node?, FileSystem.at?, Tree.at?, Tree.entry?] at h
      by_cases hname : name = "listing"
      · rw [hname] at h
        cases rest with
        | nil => cases h
        | cons next rest => cases h
      · simp [listingAlone, List.lookup_cons, beq_false_of_ne hname] at h
  restrictions_eq_nil := rfl
  isDirectory_dot := by decide +kernel

/-- The trace of a listing goes through a directory that is missing to where the listing is. -/
theorem execute_allOrNothing_in_place :
    let task : Task := .disassemble (.path "listing") (.path "new/../listing") none .text
    listingAlone.files.Plain ∧ task.output = .path "new/../listing" ∧
      (task.execute listingAlone).answer = .ok () ∧
      task.AllOrNothing listingAlone "new/../listing" :=
  ⟨plain_listingAlone, rfl, by decide +kernel, execute_allOrNothing plain_listingAlone rfl⟩
end Task
end BytecodeTrace
