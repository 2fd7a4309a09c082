/-
# Arguments without the options for verbosity

The options for verbosity may stand anywhere among the arguments, alone or in front of other short
options.  Arguments that are read can be read without them, and ask for the same task.

* `Arguments.withoutVerbosity`: the arguments without these options;
* `Arguments.readOption_quietened`: the options of one argument;
* `Arguments.readCommandArguments_quietened`: the arguments of a command;
* `Arguments.read_withoutVerbosity`: all arguments;
* `Arguments.task_eq`: so arguments that are the same without these options ask for the same task.
-/
import BytecodeTrace.Program.Arguments
import BytecodeTrace.Proofs.Text.Pieces

namespace BytecodeTrace
namespace Arguments

/-! ## 1. The options for verbosity -/

/-- The letter is a short option for verbosity. -/
def isVerbosityLetter (c : Char) : Bool := c = 'v' || c = 'q'

/-- The text is a long option for verbosity. -/
def isVerbosityName (text : List Char) : Bool :=
  text = "verbose".toList || text = "quiet".toList

/-- The arguments without the options for verbosity, up to a separator.  Behind one dash, these
stand in front of an option with a value. -/
def withoutVerbosity : List String → List String
  | [] => []
  | argument :: rest =>
    match Word.ofArgument argument with
    | .separator => argument :: rest
    | .plain _ => argument :: withoutVerbosity rest
    | .long text =>
      if isVerbosityName text then withoutVerbosity rest else argument :: withoutVerbosity rest
    | .short letters =>
      match letters.dropWhile isVerbosityLetter with
      | [] => withoutVerbosity rest
      | others => String.ofList ('-' :: others) :: withoutVerbosity rest

/-- The settings without those of verbosity. -/
def Given.quietened (g : Given) : Given := { g with verbosity := 0, quiet := false }

/-- The forms of the options for verbosity are these, and no other option is written with one dash
unless it ends the reading or takes a value. -/
def Regular (forms : List Form) : Prop :=
  ∀ form ∈ forms,
    (form.setting = .verbose ↔ form.short = some 'v') ∧
    (form.setting = .quiet ↔ form.short = some 'q') ∧
    (form.setting = .verbose ↔ form.long = "verbose") ∧
    (form.setting = .quiet ↔ form.long = "quiet") ∧
    (form.setting = .json → form.short = none) ∧ form.short ≠ some '-'

instance (forms : List Form) : Decidable (Regular forms) :=
  inferInstanceAs (Decidable (∀ form ∈ forms, _))

theorem regular_programForms : Regular programForms := by decide

theorem regular_forms (command : Command) : Regular command.forms := by
  cases command
  · decide
  · decide

/-! ## 2. One option -/

namespace Given

variable {g next : Given} {setting : Setting}

/-- Settings of verbosity change nothing else. -/
theorem quietened_flag_of_verbosity (hsetting : setting = .verbose ∨ setting = .quiet)
    (h : g.flag setting = .ok next) : next.quietened = g.quietened := by
  rcases hsetting with rfl | rfl
  · cases h
    rfl
  · rw [flag] at h
    split at h
    · cases h
    · cases h
      rfl

/-- The other options without a value do not look at them. -/
theorem flag_quietened (hverbose : setting ≠ .verbose) (hquiet : setting ≠ .quiet)
    (h : g.flag setting = .ok next) : g.quietened.flag setting = .ok next.quietened := by
  cases setting with
  | verbose => exact absurd rfl hverbose
  | quiet => exact absurd rfl hquiet
  | help => cases h
  | version => cases h
  | output => cases h
  | name => cases h
  | json =>
    rw [flag] at h
    split at h
    · cases h
    · rename_i hjson
      cases h
      exact if_neg hjson

/-- Neither do those with a value. -/
theorem set_quietened {value : String} (h : g.set setting value = .ok next) :
    g.quietened.set setting value = .ok next.quietened := by
  cases setting with
  | output =>
    rw [set] at h
    split at h
    · cases h
    · rename_i hfree
      cases h
      exact if_neg hfree
  | name =>
    rw [set] at h
    split at h
    · cases h
    · rename_i hfree
      cases h
      exact if_neg hfree
  | verbose => cases h
  | quiet => cases h
  | help => cases h
  | version => cases h
  | json => cases h

/-- Nor do the arguments that belong to no option. -/
theorem addInput_quietened {command : Command} {value : String}
    (h : g.addInput command value = .ok next) :
    g.quietened.addInput command value = .ok next.quietened := by
  rw [addInput] at h
  split at h
  · cases h
  · rename_i hfree
    cases h
    exact if_neg hfree

theorem foldlM_addInput_quietened {command : Command} {values : List String}
    (h : values.foldlM (addInput command) g = .ok next) :
    values.foldlM (addInput command) g.quietened = .ok next.quietened := by
  induction values generalizing g with
  | nil =>
    cases h
    rfl
  | cons value values ih =>
    rw [List.foldlM_cons] at h ⊢
    cases hvalue : g.addInput command value with
    | error stop =>
      rw [hvalue] at h
      cases h
    | ok first =>
      rw [hvalue] at h
      rw [addInput_quietened hvalue]
      exact ih h

end Given

/-! ## 3. One argument -/

section Options

variable {forms : List Form} {g next : Given} {pending : Option Setting}

/-- What is mapped is no refusal. -/
theorem exists_of_map_eq_ok {ε α β : Type} {x : Except ε α} {f : α → β} {b : β}
    (h : x.map f = .ok b) : ∃ a, x = .ok a ∧ f a = b := by
  cases x with
  | error e => cases h
  | ok a => exact ⟨a, rfl, Except.ok.inj h⟩

theorem map_set_quietened {setting : Setting} {value : String}
    (h : (g.set setting value).map (fun g => (g, (none : Option Setting))) = .ok (next, pending)) :
    (g.quietened.set setting value).map (fun g => (g, none)) =
      .ok (next.quietened, pending) := by
  obtain ⟨done, hset, hdone⟩ := exists_of_map_eq_ok h
  cases hdone
  rw [Given.set_quietened hset]
  rfl

/-- **Short options can be read without those of verbosity in front of them.** -/
theorem readShort_quietened (hforms : Regular forms) {letters : List Char}
    (h : readShort forms g letters = .ok (next, pending)) :
    readShort forms g.quietened (letters.dropWhile isVerbosityLetter) =
      .ok (next.quietened, pending) := by
  induction letters generalizing g with
  | nil =>
    cases h
    rfl
  | cons c rest ih =>
    rw [readShort] at h
    cases hfind : forms.find? fun form => form.short = some c with
    | none =>
      rw [hfind] at h
      cases h
    | some form =>
      rw [hfind] at h
      have hshort : form.short = some c := by simpa using List.find?_some hfind
      obtain ⟨hverbose, hquiet, -, -, hjson, -⟩ := hforms form (List.mem_of_find?_eq_some hfind)
      rw [hshort] at hverbose hquiet hjson
      simp only [Option.some.injEq] at hverbose hquiet
      by_cases hletter : isVerbosityLetter c = true
      · have hsetting : form.setting = .verbose ∨ form.setting = .quiet := by
          rw [hverbose, hquiet]
          simpa [isVerbosityLetter] using hletter
        have hvalue : form.setting.takesValue = false := by
          rcases hsetting with heq | heq <;> rw [heq] <;> rfl
        rw [List.dropWhile_cons, if_pos hletter]
        simp only [hvalue, Bool.false_eq_true, if_false] at h
        cases hflag : g.flag form.setting with
        | error stop =>
          rw [hflag] at h
          cases h
        | ok first =>
          rw [hflag] at h
          rw [← Given.quietened_flag_of_verbosity hsetting hflag]
          exact ih h
      · rw [List.dropWhile_cons, if_neg hletter, readShort, hfind]
        have hnot : form.setting ≠ .verbose ∧ form.setting ≠ .quiet := by
          rw [Ne, Ne, hverbose, hquiet]
          simpa [isVerbosityLetter] using hletter
        dsimp only at h ⊢
        by_cases hvalue : form.setting.takesValue = true
        · rw [if_pos hvalue] at h ⊢
          cases rest with
          | nil =>
            cases h
            rfl
          | cons d rest =>
            split at h
            · contradiction
            · exact map_set_quietened h
            · exact map_set_quietened h
        · -- what is left ends the reading
          rw [if_neg hvalue] at h
          exfalso
          cases hsetting : form.setting with
          | verbose => exact hnot.1 hsetting
          | quiet => exact hnot.2 hsetting
          | json => cases hjson hsetting
          | output => exact hvalue (by rw [hsetting]; rfl)
          | name => exact hvalue (by rw [hsetting]; rfl)
          | help =>
            rw [hsetting] at h
            cases h
          | version =>
            rw [hsetting] at h
            cases h

/-- A long option without a value is its whole text. -/
theorem eq_of_cut {c : Char} {text name : List Char} (h : Text.cut c text = (name, none)) :
    name = text := by
  have hname : text.takeWhile (· != c) = name := congrArg Prod.fst h
  have hvalue := congrArg Prod.snd h
  have hsplit := List.takeWhile_append_dropWhile (p := (· != c)) (l := text)
  rw [Text.cut] at hvalue
  cases hdrop : text.dropWhile (· != c) with
  | nil => rwa [hdrop, List.append_nil, hname] at hsplit
  | cons d rest =>
    rw [hdrop] at hvalue
    cases hvalue

/-- The form that an option without a value has says whether it is one for verbosity. -/
theorem setting_iff_isVerbosityName (hforms : Regular forms) {form : Form} {text : List Char}
    (hfind : forms.find? (fun form => form.long.toList = text) = some form) :
    (form.setting = .verbose ∨ form.setting = .quiet) ↔ isVerbosityName text = true := by
  have hlong : form.long.toList = text := by simpa using List.find?_some hfind
  obtain ⟨-, -, hverbose, hquiet, -, -⟩ := hforms form (List.mem_of_find?_eq_some hfind)
  rw [hverbose, hquiet, ← String.toList_inj, ← String.toList_inj, hlong, isVerbosityName,
    Bool.or_eq_true, decide_eq_true_eq, decide_eq_true_eq]

/-- A long option for verbosity changes nothing else. -/
theorem readLong_of_isVerbosityName (hforms : Regular forms) {text : List Char}
    (htext : isVerbosityName text = true) (h : readLong forms g text = .ok (next, pending)) :
    next.quietened = g.quietened ∧ pending = none := by
  have hcut : Text.cut '=' text = (text, none) := by
    refine Text.cut_of_not_mem ?_
    rcases Bool.or_eq_true_iff.mp htext with heq | heq
    · rw [of_decide_eq_true heq]
      decide
    · rw [of_decide_eq_true heq]
      decide
  rw [readLong, hcut] at h
  dsimp only at h
  cases hfind : forms.find? fun form => form.long.toList = text with
  | none =>
    rw [hfind] at h
    cases h
  | some form =>
    rw [hfind] at h
    have hsetting := (setting_iff_isVerbosityName hforms hfind).mpr htext
    have hvalue : form.setting.takesValue = false := by
      rcases hsetting with heq | heq <;> rw [heq] <;> rfl
    simp only [hvalue] at h
    obtain ⟨first, hflag, hfirst⟩ := exists_of_map_eq_ok h
    cases hfirst
    exact ⟨Given.quietened_flag_of_verbosity hsetting hflag, rfl⟩

/-- **Other long options can be read without those of verbosity before them.** -/
theorem readLong_quietened (hforms : Regular forms) {text : List Char}
    (htext : isVerbosityName text = false) (h : readLong forms g text = .ok (next, pending)) :
    readLong forms g.quietened text = .ok (next.quietened, pending) := by
  rw [readLong] at h ⊢
  rcases hcut : Text.cut '=' text with ⟨name, value⟩
  rw [hcut] at h
  dsimp only at h ⊢
  cases hfind : forms.find? fun form => form.long.toList = name with
  | none =>
    rw [hfind] at h
    cases h
  | some form =>
    rw [hfind] at h
    dsimp only at h ⊢
    cases hvalue : form.setting.takesValue with
    | true =>
      rw [hvalue] at h
      cases value with
      | some value => exact map_set_quietened h
      | none =>
        cases h
        rfl
    | false =>
      rw [hvalue] at h
      cases value with
      | some value => cases h
      | none =>
        rw [eq_of_cut hcut] at hfind
        have hnot : ¬(form.setting = .verbose ∨ form.setting = .quiet) := by
          rw [setting_iff_isVerbosityName hforms hfind, htext]
          exact Bool.false_ne_true
        obtain ⟨hverbose, hquiet⟩ := not_or.mp hnot
        obtain ⟨first, hflag, hfirst⟩ := exists_of_map_eq_ok h
        cases hfirst
        dsimp only
        rw [Given.flag_quietened hverbose hquiet hflag]
        rfl

/-- A dash in front of letters makes them short options. -/
theorem ofArgument_short {letters : List Char} {c : Char} (hc : c ≠ '-') :
    Word.ofArgument (String.ofList ('-' :: c :: letters)) = .short (c :: letters) := by
  rw [Word.ofArgument, String.toList_ofList]
  split
  · rename_i heq
    simp only [List.cons.injEq, true_and] at heq
    exact absurd heq.1 hc
  · rename_i heq
    simp only [List.cons.injEq, true_and] at heq
    exact absurd heq.1 hc
  · rename_i heq
    simp only [List.cons.injEq, true_and] at heq
    rw [heq.1, heq.2]
  · rename_i hletters
    exact absurd rfl (hletters c letters)

/-- Letters that are read do not start with a dash. -/
theorem ne_dash_of_readShort (hforms : Regular forms) {c : Char} {letters : List Char}
    (h : readShort forms g (c :: letters) = .ok (next, pending)) : c ≠ '-' := by
  rintro rfl
  rw [readShort] at h
  cases hfind : forms.find? fun form => form.short = some '-' with
  | none =>
    rw [hfind] at h
    cases h
  | some form =>
    obtain ⟨-, -, -, -, -, hdash⟩ := hforms form (List.mem_of_find?_eq_some hfind)
    exact hdash (by simpa using List.find?_some hfind)

/-- The word is written as an option. -/
def Word.isOption : Word → Bool
  | long _ | short _ => true
  | separator | plain _ => false

/-- Reads a word that is written as an option. -/
def readOption (forms : List Form) (g : Given) : Word → Except Stop (Given × Option Setting)
  | .long text => readLong forms g text
  | .short letters => readShort forms g letters
  | .separator | .plain _ => .error .usage

/-- **An option is one for verbosity, or can be read without those,** as the argument that is left
of it. -/
theorem readOption_quietened (hforms : Regular forms) {argument : String}
    (h : readOption forms g (Word.ofArgument argument) = .ok (next, pending))
    (rest : List String) :
    (withoutVerbosity (argument :: rest) = withoutVerbosity rest ∧
      next.quietened = g.quietened ∧ pending = none) ∨
    ∃ other, withoutVerbosity (argument :: rest) = other :: withoutVerbosity rest ∧
      (Word.ofArgument other).isOption = true ∧
      readOption forms g.quietened (Word.ofArgument other) = .ok (next.quietened, pending) := by
  rw [withoutVerbosity]
  cases hword : Word.ofArgument argument with
  | separator =>
    rw [hword] at h
    cases h
  | plain value =>
    rw [hword] at h
    cases h
  | long text =>
    rw [hword] at h
    dsimp only
    by_cases htext : isVerbosityName text = true
    · rw [if_pos htext]
      exact .inl ⟨rfl, readLong_of_isVerbosityName hforms htext h⟩
    · rw [if_neg htext]
      refine .inr ⟨argument, rfl, by rw [hword]; rfl, ?_⟩
      rw [hword]
      exact readLong_quietened hforms (Bool.eq_false_iff.mpr htext) h
  | short letters =>
    rw [hword] at h
    have hshort := readShort_quietened hforms h
    dsimp only
    cases hletters : letters.dropWhile isVerbosityLetter with
    | nil =>
      rw [hletters, readShort, Except.ok.injEq, Prod.mk.injEq] at hshort
      exact .inl ⟨rfl, hshort.1.symm, hshort.2.symm⟩
    | cons c others =>
      rw [hletters] at hshort
      have hother : Word.ofArgument (String.ofList ('-' :: c :: others)) = .short (c :: others) :=
        ofArgument_short (ne_dash_of_readShort hforms hshort)
      refine .inr ⟨_, rfl, by rw [hother]; rfl, ?_⟩
      rw [hother]
      exact hshort

end Options

theorem withoutVerbosity_of_plain {argument value : String}
    (hword : Word.ofArgument argument = .plain value) (rest : List String) :
    withoutVerbosity (argument :: rest) = argument :: withoutVerbosity rest := by
  rw [withoutVerbosity, hword]

/-! ## 4. The arguments of a command -/

section Commands

variable {command : Command} {g next : Given}

/-- How the arguments of a command are read on behind an option, which may need its value. -/
def readOn (command : Command) (read : Except Stop (Given × Option Setting))
    (rest : List String) : Except Stop Given :=
  match read, rest with
  | .error stop, _ => .error stop
  | .ok (g, none), rest => readCommandArguments command g rest
  | .ok (_, some _), [] => .error .usage
  | .ok (g, some setting), value :: rest =>
    match Word.ofArgument value with
    | .plain value =>
      match g.set setting value with
      | .error stop => .error stop
      | .ok g => readCommandArguments command g rest
    | _ => .error .usage

theorem readOn_none (command : Command) (g : Given) (rest : List String) :
    readOn command (.ok (g, none)) rest = readCommandArguments command g rest := by
  cases rest <;> rfl

theorem readCommandArguments_of_isOption {argument : String}
    (h : (Word.ofArgument argument).isOption = true) (rest : List String) :
    readCommandArguments command g (argument :: rest) =
      readOn command (readOption command.forms g (Word.ofArgument argument)) rest := by
  rw [readCommandArguments]
  cases hword : Word.ofArgument argument with
  | long text => rfl
  | short letters => rfl
  | separator =>
    rw [hword] at h
    cases h
  | plain value =>
    rw [hword] at h
    cases h

/-- If shorter arguments can be read without the options for verbosity, so can those behind an
option. -/
theorem readOn_quietened {rest : List String} {pending : Option Setting}
    (ih : ∀ {fewer : List String} {g : Given}, fewer.length ≤ rest.length →
      readCommandArguments command g fewer = .ok next →
        readCommandArguments command g.quietened (withoutVerbosity fewer) = .ok next.quietened)
    (h : readOn command (.ok (g, pending)) rest = .ok next) :
    readOn command (.ok (g.quietened, pending)) (withoutVerbosity rest) =
      .ok next.quietened := by
  cases pending with
  | none =>
    rw [readOn_none] at h ⊢
    exact ih (Nat.le_refl _) h
  | some setting =>
    cases rest with
    | nil => cases h
    | cons argument rest =>
      rw [readOn] at h
      cases hword : Word.ofArgument argument with
      | separator =>
        rw [hword] at h
        cases h
      | long text =>
        rw [hword] at h
        cases h
      | short letters =>
        rw [hword] at h
        cases h
      | plain value =>
        rw [withoutVerbosity_of_plain hword, readOn, hword]
        rw [hword] at h
        dsimp only at h ⊢
        cases hset : g.set setting value with
        | error stop =>
          rw [hset] at h
          cases h
        | ok first =>
          rw [hset] at h
          rw [Given.set_quietened hset]
          exact ih (Nat.le_succ _) h

/-- **The arguments of a command can be read without the options for verbosity.** -/
theorem readCommandArguments_quietened {arguments : List String}
    (h : readCommandArguments command g arguments = .ok next) :
    readCommandArguments command g.quietened (withoutVerbosity arguments) =
      .ok next.quietened := by
  -- on the number of arguments: an option may take the next one
  induction hn : arguments.length using Nat.strong_induction_on generalizing arguments g with
  | _ n ih =>
    cases arguments with
    | nil =>
      cases h
      rfl
    | cons argument rest =>
      have hrest {fewer : List String} {g : Given} (hfewer : fewer.length ≤ rest.length)
          (hread : readCommandArguments command g fewer = .ok next) :
          readCommandArguments command g.quietened (withoutVerbosity fewer) =
            .ok next.quietened :=
        ih fewer.length (by rw [← hn, List.length_cons]; omega) hread rfl
      by_cases hoption : (Word.ofArgument argument).isOption = true
      · rw [readCommandArguments_of_isOption hoption] at h
        cases hread : readOption command.forms g (Word.ofArgument argument) with
        | error stop =>
          rw [hread] at h
          cases h
        | ok first =>
          obtain ⟨first, pending⟩ := first
          rw [hread] at h
          have hon := readOn_quietened hrest h
          rcases readOption_quietened (regular_forms command) hread rest with
            ⟨hdropped, hsame, rfl⟩ | ⟨other, hkept, hother, hreads⟩
          · rwa [hdropped, ← readOn_none, ← hsame]
          · rwa [hkept, readCommandArguments_of_isOption hother, hreads]
      · cases hword : Word.ofArgument argument with
        | long text => exact absurd (by rw [hword]; rfl) hoption
        | short letters => exact absurd (by rw [hword]; rfl) hoption
        | separator =>
          rw [withoutVerbosity, hword, readCommandArguments, hword]
          rw [readCommandArguments, hword] at h
          exact Given.foldlM_addInput_quietened h
        | plain value =>
          rw [withoutVerbosity_of_plain hword, readCommandArguments, hword]
          rw [readCommandArguments, hword] at h
          dsimp only at h ⊢
          cases hvalue : g.addInput command value with
          | error stop =>
            rw [hvalue] at h
            cases h
          | ok first =>
            rw [hvalue] at h
            rw [Given.addInput_quietened hvalue]
            exact hrest (Nat.le_refl _) h

end Commands

/-! ## 5. All arguments -/

/-- How the arguments of the program are read on behind an option. -/
def readOnProgram (read : Except Stop (Given × Option Setting)) (rest : List String) :
    Except Stop (Given × Command × Given) :=
  match read with
  | .error stop => .error stop
  | .ok (g, none) => readProgramArguments g rest
  | .ok (_, some _) => .error .usage

theorem readProgramArguments_of_isOption {argument : String}
    (h : (Word.ofArgument argument).isOption = true) (g : Given) (rest : List String) :
    readProgramArguments g (argument :: rest) =
      readOnProgram (readOption programForms g (Word.ofArgument argument)) rest := by
  rw [readProgramArguments]
  cases hword : Word.ofArgument argument with
  | long text => rfl
  | short letters => rfl
  | separator =>
    rw [hword] at h
    cases h
  | plain value =>
    rw [hword] at h
    cases h

/-- A word that is no option is the command. -/
theorem readProgramArguments_of_plain {argument name : String}
    (hword : Word.ofArgument argument = .plain name) (g : Given) (rest : List String) :
    readProgramArguments g (argument :: rest) =
      if name = "help" then .error (readHelp rest)
      else
        match Command.ofName? name with
        | none => .error .usage
        | some command =>
          (readCommandArguments command .nothing rest).map fun own => (g, command, own) := by
  rw [readProgramArguments, hword]
  split
  · contradiction
  · contradiction
  · contradiction
  · rename_i hhelp
    rw [if_pos (Word.plain.inj hhelp)]
  · rename_i hname
    cases hname
    exact (if_neg (by assumption)).symm

/-- **The arguments of the program can be read without the options for verbosity.** -/
theorem readProgramArguments_quietened {arguments : List String} {g before own : Given}
    {command : Command} (h : readProgramArguments g arguments = .ok (before, command, own)) :
    readProgramArguments g.quietened (withoutVerbosity arguments) =
      .ok (before.quietened, command, own.quietened) := by
  induction arguments generalizing g with
  | nil => cases h
  | cons argument rest ih =>
    by_cases hoption : (Word.ofArgument argument).isOption = true
    · rw [readProgramArguments_of_isOption hoption] at h
      cases hread : readOption programForms g (Word.ofArgument argument) with
      | error stop =>
        rw [hread] at h
        cases h
      | ok first =>
        obtain ⟨first, pending⟩ := first
        rw [hread] at h
        rcases readOption_quietened regular_programForms hread rest with
          ⟨hdropped, hsame, rfl⟩ | ⟨other, hkept, hother, hreads⟩
        · rw [hdropped, ← hsame]
          exact ih h
        · rw [hkept, readProgramArguments_of_isOption hother, hreads]
          cases pending with
          | none => exact ih h
          | some setting => cases h
    · cases hword : Word.ofArgument argument with
      | long text => exact absurd (by rw [hword]; rfl) hoption
      | short letters => exact absurd (by rw [hword]; rfl) hoption
      | separator =>
        rw [readProgramArguments, hword] at h
        cases h
      | plain name =>
        rw [withoutVerbosity_of_plain hword, readProgramArguments_of_plain hword]
        rw [readProgramArguments_of_plain hword] at h
        by_cases hhelp : name = "help"
        · rw [if_pos hhelp] at h
          cases h
        · rw [if_neg hhelp] at h ⊢
          cases hcommand : Command.ofName? name with
          | none =>
            rw [hcommand] at h
            cases h
          | some command =>
            rw [hcommand] at h
            dsimp only at h ⊢
            obtain ⟨own, hown, hparts⟩ := exists_of_map_eq_ok h
            cases hparts
            change (readCommandArguments command Given.nothing.quietened _).map _ = _
            rw [readCommandArguments_quietened hown]
            rfl

/-- **Arguments that are read can be read without the options for verbosity,** and ask for the same
task. -/
theorem read_withoutVerbosity {arguments : List String} {i : Invocation}
    (h : read arguments = .ok i) :
    read (withoutVerbosity arguments) = .ok { i with verbosity := 0, quiet := false } := by
  obtain ⟨⟨before, command, own⟩, hread, hi⟩ := exists_of_map_eq_ok h
  cases hi
  change (readProgramArguments Given.nothing.quietened _).map _ = _
  rw [readProgramArguments_quietened hread]
  rfl

example : withoutVerbosity ["-vv", "disasm", "-qvo", "x", "--verbose", "--json", "--", "-v"] =
    ["disasm", "-o", "x", "--json", "--", "-v"] := by decide +kernel

/-- **Arguments that are the same without the options for verbosity ask for the same task.** -/
theorem task_eq {arguments others : List String} {i j : Invocation}
    (hsame : withoutVerbosity others = withoutVerbosity arguments)
    (hi : read arguments = .ok i) (hj : read others = .ok j) : j.task = i.task := by
  have hquiet := read_withoutVerbosity hj
  rw [hsame, read_withoutVerbosity hi] at hquiet
  exact (Invocation.mk.inj (Except.ok.inj hquiet)).1.symm

end Arguments
end BytecodeTrace
