/-
# The log of a build

What calls report while they build a chunk is a second account of it.  Every statement that is
appended leaves its entries, a stored constant in front of the instruction that loads it; the three
buffers report their growths in between, at any byte; and a listing that was assembled to its end
reports the totals behind it.  Refused calls report nothing of their own.

* `Reports`: what a stretch of the log says of the chunks before and behind it;
* `Reports.append`: stretches are put together, so each operation is looked at once;
* `reports_appendStatement`, `reports_assembleLines`, `reports_perform`: from statements to calls;
* `flatMap_entries_walk`: the entries of the statements, read from the finished chunk;
* `map_shown_emissions`, `map_shown_stored`: what the log shows of its walk and of its pool;
* `performAll_faithfulLog`: the log of every run without a release.

The growths are counted by a potential: `growthCount` is what the policy has reported for as many
items as the three buffers hold, and every stretch of the log adds to it what it reports.
-/
import BytecodeTrace.Proofs.Buffer.Doubling
import BytecodeTrace.Proofs.Chunk.Equality
import BytecodeTrace.Proofs.Chunk.Statements

namespace BytecodeTrace

/-! ## 1. Kinds of records -/

namespace Event

/-- An instruction was appended. -/
def isEmission : Event → Bool
  | instructionEmitted .. | constantEmitted .. => true
  | _ => false

/-- A constant was stored. -/
def isStored : Event → Bool
  | constantStored .. => true
  | _ => false

/-- The event belongs to one statement. -/
def isEntry (e : Event) : Bool := e.isStored || e.isEmission

/-- A buffer grew. -/
def isGrowth : Event → Bool
  | bufferGrew .. => true
  | _ => false

/-- A listing was assembled to its end. -/
def isAssembled : Event → Bool
  | assembled .. => true
  | _ => false

/-- What the log shows of an event. -/
def shown (e : Event) : Level × String := (e.level, e.message)

/-- Growths are no entries and close no listing. -/
theorem not_isEntry_of_isGrowth {e : Event} (h : e.isGrowth = true) :
    e.isEntry = false ∧ e.isAssembled = false := by
  cases e <;> first | exact ⟨rfl, rfl⟩ | cases h

/-- Entries are no growths and close no listing. -/
theorem not_isGrowth_of_isEntry {e : Event} (h : e.isEntry = true) :
    e.isGrowth = false ∧ e.isAssembled = false := by
  cases e <;> first | exact ⟨rfl, rfl⟩ | cases h

end Event

/-! ## 2. Growths -/

/-- The events are growths, and as many as the policy reports between the sizes of two buffers. -/
structure Buffer.Grows {α : Type} (b : Buffer α) (events : List Event) (b' : Buffer α) :
    Prop where
  isGrowth : ∀ e ∈ events, e.isGrowth = true
  length_eq : (policyGrowths b.size).length + events.length = (policyGrowths b'.size).length

theorem Buffer.Grown.grows_append {α : Type} {b : Buffer α} (h : b.Grown) (x : α) :
    b.Grows (b.append x).events (b.append x).state := by
  refine ⟨?_, ?_⟩
  · intro e he
    rw [events_append] at he
    split at he
    · rw [List.mem_singleton.mp he]
      rfl
    · cases he
  · rw [← h.policyGrowths_append x, List.length_append]

/-- A line reports a growth only if it begins a run. -/
theorem LineTable.grows_push {t : LineTable} (h : t.runs.Grown) (line : Line) :
    t.runs.Grows (t.push line).events (t.push line).state.runs := by
  obtain ⟨runs, size⟩ := t
  cases hlast : runs.last? with
  | none =>
    simp only [push, hlast]
    exact h.grows_append _
  | some run =>
    by_cases hline : run.line = line
    · simp only [push, hlast, hline, if_true]
      have hsize : ∀ f, (runs.modifyLast f).size = runs.size := fun _ => Array.size_modify
      refine ⟨fun e he => absurd he List.not_mem_nil, ?_⟩
      rw [hsize]
      rfl
    · simp only [push, hlast, hline, if_false]
      exact h.grows_append _

/-- As many growths as items need. -/
theorem length_policyGrowths {n : Nat} (h : n ≤ greatestCapacity) :
    (policyGrowths n).length = growths n := by
  rw [policyGrowths_eq h, length_growthRecords, Nat.sub_zero]

/-- There are no more runs than lines. -/
theorem length_le_expandRuns {start : Nat} {runs : List LineRun} (h : Adjoin start runs) :
    runs.length ≤ (expandRuns runs).length := by
  induction runs generalizing start with
  | nil => exact Nat.zero_le _
  | cons run runs ih =>
    have hrest := ih h.2.2.2
    have hpos := h.2.1
    simp only [expandRuns_cons, List.length_cons, List.length_append, List.length_replicate]
    omega

namespace Chunk

/-- The growths that the policy has for the sizes of the three buffers. -/
def growthCount (c : Chunk) : Nat :=
  (policyGrowths c.size).length + (policyGrowths c.lines.runs.size).length +
    (policyGrowths c.constants.size).length

/-- Up to the greatest word these are the growths that the sizes need. -/
theorem growthCount_eq {c : Chunk} (h : c.Coupled) (hsize : c.size ≤ greatestCapacity) :
    c.growthCount =
      growths c.size + growths c.lines.runs.size + growths c.constants.size := by
  have hruns : c.lines.runs.size ≤ c.size := by
    rw [← h.size_eq, h.sound.size_eq, Buffer.size, ← Array.length_toList]
    exact length_le_expandRuns h.sound.adjoin
  have hlimit : ConstantPool.limit ≤ greatestCapacity := by decide
  have hconstants := Nat.le_trans h.constants_le hlimit
  rw [growthCount, length_policyGrowths hsize, length_policyGrowths (Nat.le_trans hruns hsize),
    length_policyGrowths hconstants]

end Chunk

/-! ## 3. Stretches of the log -/

/-- What the log says on the way from one chunk to another: the entries, the growths that the sizes
of the two account for, the totals of listings, and nothing else. -/
structure Reports (c : Chunk) (events : List Event) (d : Chunk) (entries : List Event)
    (totals : List (Nat × Nat)) : Prop where
  entries_eq : events.filter Event.isEntry = entries
  growths_eq : c.growthCount + events.countP Event.isGrowth = d.growthCount
  totals_eq : events.filter Event.isAssembled = totals.map fun t => .assembled t.1 t.2
  kinds : ∀ e ∈ events, e.isEntry = true ∨ e.isGrowth = true ∨ e.isAssembled = true

section Reports

variable {c d : Chunk} {events entries : List Event} {totals : List (Nat × Nat)}

theorem reports_nil : Reports c [] c [] [] := ⟨rfl, rfl, rfl, nofun⟩

/-- **One stretch behind the other.** -/
theorem Reports.append {f : Chunk} {events' entries' : List Event} {totals' : List (Nat × Nat)}
    (h : Reports c events d entries totals) (h' : Reports d events' f entries' totals') :
    Reports c (events ++ events') f (entries ++ entries') (totals ++ totals') := by
  refine ⟨?_, ?_, ?_, ?_⟩
  · rw [List.filter_append, h.entries_eq, h'.entries_eq]
  · rw [List.countP_append, ← Nat.add_assoc, h.growths_eq, h'.growths_eq]
  · rw [List.filter_append, h.totals_eq, h'.totals_eq, List.map_append]
  · intro e he
    rcases List.mem_append.mp he with he | he
    · exact h.kinds e he
    · exact h'.kinds e he

/-- Growths alone. -/
theorem reports_growths (hall : ∀ e ∈ events, e.isGrowth = true)
    (hcount : c.growthCount + events.length = d.growthCount) : Reports c events d [] [] := by
  refine ⟨?_, ?_, ?_, fun e he => .inr (.inl (hall e he))⟩
  · exact List.filter_eq_nil_iff.mpr fun e he =>
      Bool.eq_false_iff.mp (Event.not_isEntry_of_isGrowth (hall e he)).1
  · rw [List.countP_eq_length.mpr hall]
    exact hcount
  · exact List.filter_eq_nil_iff.mpr fun e he =>
      Bool.eq_false_iff.mp (Event.not_isEntry_of_isGrowth (hall e he)).2

/-- One entry. -/
theorem reports_entry {e : Event} (h : e.isEntry = true) : Reports c [e] c [e] [] := by
  obtain ⟨hgrowth, hassembled⟩ := Event.not_isGrowth_of_isEntry h
  refine ⟨?_, ?_, ?_, ?_⟩
  · simp [h]
  · simp [hgrowth]
  · simp [hassembled]
  · intro e' he'
    rw [List.mem_singleton.mp he']
    exact .inl h

/-- The totals of a listing. -/
theorem reports_assembled (bytes constants : Nat) :
    Reports c [.assembled bytes constants] c [] [(bytes, constants)] :=
  ⟨rfl, rfl, rfl, fun _ he => .inr (.inr (List.mem_singleton.mp he ▸ rfl))⟩

end Reports

/-! ## 4. What the operations report -/

namespace Chunk

variable {c : Chunk}

/-- A byte reports growths of the code and of the lines. -/
theorem reports_writeByte (h : c.Grown) (byte : UInt8) (line : Line) :
    Reports c (c.writeByte byte line).events (c.writeByte byte line).state [] [] := by
  have hcode := h.code.grows_append byte
  have hlines := LineTable.grows_push h.lines line
  have hevents : (c.writeByte byte line).events =
      (c.code.append byte).events ++ (c.lines.push line).events := rfl
  rw [hevents]
  refine reports_growths ?_ ?_
  · intro e he
    rcases List.mem_append.mp he with he | he
    · exact hcode.isGrowth e he
    · exact hlines.isGrowth e he
  · have hcodeLength := hcode.length_eq
    have hlinesLength := hlines.length_eq
    rw [state_writeByte, List.length_append]
    simp only [growthCount, size]
    omega

theorem reports_writeBytes (h : c.Grown) (bytes : List UInt8) (line : Line) :
    Reports c (c.writeBytes bytes line).events (c.writeBytes bytes line).state [] [] := by
  induction bytes generalizing c with
  | nil => exact reports_nil
  | cons byte bytes ih =>
    exact (reports_writeByte h byte line).append (ih (invariant_grown.byte h byte line))

/-- A constant reports a growth of the pool, and that it was stored. -/
theorem reports_withConstant (h : c.Grown) (value : Value) :
    Reports c ((c.constants.values.append value).events ++
        [.constantStored c.constants.size value])
      (c.withConstant value) [.constantStored c.constants.size value] [] := by
  have hvalues := h.constants.grows_append value
  have hlength := hvalues.length_eq
  refine (reports_growths hvalues.isGrowth ?_).append (reports_entry rfl)
  simp only [growthCount, size, ConstantPool.size, withConstant]
  omega

theorem events_appendConstant (h : c.constants.size < ConstantPool.limit) (value : Value)
    (line : Line) :
    (c.appendConstant value line).events =
      (c.constants.values.append value).events ++ [.constantStored c.constants.size value] ++
        ((c.withConstant value).writeBytes
          (Instruction.load c.constants.size).encode line).events ++
        [.constantEmitted (Instruction.load c.constants.size).opcode c.constants.size value
          line] := by
  obtain ⟨code, lines, values⟩ := c
  have hroom : ¬ ConstantPool.limit ≤ values.values.size := Nat.not_le.mpr h
  obtain ⟨operand, hindex, hopcode, hbytes⟩ := Instruction.forIndex_eq_load h
  have hanswer := Buffer.answer_append values.values value
  rw [hopcode] at hbytes
  simp only [ConstantPool.size] at hindex hopcode hbytes ⊢
  simp only [appendConstant, ConstantPool.append, hroom, if_false, hanswer, hindex, hbytes, hopcode,
    withConstant]

end Chunk

namespace Statements

/-- What is reported of a statement that comes behind others: an instruction, and its constant
before it. -/
def entries (before : Statements) (placed : Listing.Placed) : List Event :=
  match placed.statement with
  | .ret => [.instructionEmitted .ret placed.line]
  | .constant value =>
    let index := (constants before).length
    [.constantStored index value,
      .constantEmitted (Instruction.load index).opcode index value placed.line]

/-- What is reported of all statements. -/
def log (p : Statements) : List Event :=
  (p.mapIdx fun j placed => entries (p.take j) placed).flatten

theorem log_append (p : Statements) (x : Listing.Placed) :
    log (p ++ [x]) = log p ++ entries p x := by
  rw [log, mapIdx_take_append p x entries, List.flatten_append, List.flatten_singleton, log]

section Calls

variable {c : Chunk} {p : Statements}

/-- **A statement that is appended reports its entries.** -/
theorem reports_appendStatement (h : Represents c p) (hgrown : c.Grown)
    {placed : Listing.Placed} (happend : append p placed = .ok (p ++ [placed])) :
    Reports c (c.appendStatement placed).events (c.appendStatement placed).state
      (entries p placed) [] := by
  obtain ⟨line, statement⟩ := placed
  cases statement with
  | ret =>
    have hevents : (c.appendStatement ⟨line, .ret⟩).events =
        (c.writeByte Opcode.ret.tag line).events ++ [.instructionEmitted .ret line] := rfl
    rw [hevents]
    exact (Chunk.reports_writeByte hgrown _ line).append (reports_entry rfl)
  | constant value =>
    have hlt : c.constants.size < ConstantPool.limit := by
      rw [h.constants_size]
      by_contra hge
      simp only [append, hge, if_false] at happend
      cases happend
    have hevents : (c.appendStatement ⟨line, .constant value⟩).events =
        (c.appendConstant value line).events := rfl
    have hstate : (c.appendStatement ⟨line, .constant value⟩).state =
        (c.appendConstant value line).state := rfl
    have hstored := Chunk.reports_withConstant hgrown value
    have hbytes := Chunk.reports_writeBytes (Chunk.invariant_grown.constant hgrown hlt value)
      (Instruction.load c.constants.size).encode line
    have hemitted : Event.isEntry (.constantEmitted (Instruction.load c.constants.size).opcode
      c.constants.size value line) = true := rfl
    rw [hevents, hstate, Chunk.events_appendConstant hlt,
      (Chunk.appendConstant_of_lt_limit hlt value line).2, entries, ← h.constants_size]
    exact (hstored.append hbytes).append (reports_entry hemitted)

/-- Lines report the entries of the statements that they append, up to the first fault. -/
theorem reports_assembleLines (h : Represents c p) (hgrown : c.Grown) (number : Nat)
    (lines : List (List Char)) :
    ∃ new, log (assembleLines p number lines).2 = log p ++ new ∧
      Reports c (c.assembleLines number lines).events (c.assembleLines number lines).state
        new [] := by
  induction lines generalizing c p number with
  | nil => exact ⟨[], (List.append_nil _).symm, reports_nil⟩
  | cons raw rest ih =>
    cases hparse : Listing.parseLine number raw with
    | error fault =>
      simp only [Chunk.assembleLines, Statements.assembleLines, hparse]
      exact ⟨[], (List.append_nil _).symm, reports_nil⟩
    | ok statement =>
      cases statement with
      | none =>
        simp only [Chunk.assembleLines, Statements.assembleLines, hparse]
        exact ih h hgrown (number + 1)
      | some placed =>
        simp only [Chunk.assembleLines, Statements.assembleLines, hparse,
          Outcome.events_andThen, Outcome.state_andThen]
        rcases appendStatement_cases h.constants_eq placed with
          ⟨hok, hanswer, hnext⟩ | ⟨herror, hrefused⟩
        · have hreports := reports_appendStatement h hgrown hok
          have hcoupled := Chunk.invariant_coupled.appendStatement h.coupled placed
          obtain ⟨new, hlog, hrest⟩ := ih (h.advances hcoupled hnext)
            (Chunk.invariant_grown.appendStatement hgrown placed) (number + 1)
          rw [hok, hanswer]
          refine ⟨entries p placed ++ new, ?_, hreports.append hrest⟩
          rw [hlog, log_append, List.append_assoc]
        · rw [herror, hrefused]
          exact ⟨[], (List.append_nil _).symm, reports_nil⟩

end Calls
end Statements

/-! ## 5. What calls report -/

namespace Chunk

variable {c : Chunk}

/-- A listing that is assembled to its end reports the totals behind it; one with a fault reports
nothing more. -/
theorem assembleInto_cases (c : Chunk) (source : String) :
    (∃ e, (c.assembleInto source).answer = .error e ∧
      (c.assembleInto source).events =
        (c.assembleLines 1 (Text.lines source.toList)).events) ∨
    ((c.assembleInto source).answer = .ok () ∧
      (c.assembleInto source).events =
        (c.assembleLines 1 (Text.lines source.toList)).events ++
          [.assembled (c.assembleInto source).state.size
            (c.assembleInto source).state.constants.size]) := by
  rw [state_assembleInto, assembleInto]
  rcases c.assembleLines 1 (Text.lines source.toList) with ⟨answer, d, events⟩
  cases answer with
  | error e => exact .inl ⟨e, rfl, List.append_nil _⟩
  | ok _ => exact .inr ⟨rfl, rfl⟩

/-- The totals that a call is to report: those of the chunk behind it, if it has assembled a listing
to its end. -/
def totals (c : Chunk) (call : Call) : List (Nat × Nat) :=
  match (c.perform call).answer with
  | .assemble (.ok ()) =>
    [((c.perform call).state.size, (c.perform call).state.constants.size)]
  | _ => []

/-- The same of calls, one after the other. -/
def allTotals (c : Chunk) : List Call → List (Nat × Nat)
  | [] => []
  | call :: calls => c.totals call ++ (c.perform call).state.allTotals calls

end Chunk

namespace Statements

variable {c : Chunk} {p : Statements}

/-- A statement reports its entries, or is refused and reports nothing. -/
theorem reports_append (h : Represents c p) (hgrown : c.Grown) (placed : Listing.Placed) :
    ∃ new, log ((append p placed).toOption.getD p) = log p ++ new ∧
      Reports c (c.appendStatement placed).events (c.appendStatement placed).state new [] := by
  rcases appendStatement_cases h.constants_eq placed with ⟨hok, -, -⟩ | ⟨herror, hrefused⟩
  · rw [hok]
    exact ⟨entries p placed, log_append p placed, reports_appendStatement h hgrown hok⟩
  · rw [herror, hrefused]
    exact ⟨[], (List.append_nil _).symm, reports_nil⟩

/-- A listing reports the entries of its statements and, if it has no fault, its totals. -/
theorem reports_assembleInto (h : Represents c p) (hgrown : c.Grown) (source : String) :
    ∃ new, log (assembleLines p 1 (Text.lines source.toList)).2 = log p ++ new ∧
      Reports c (c.assembleInto source).events (c.assembleInto source).state new
        (c.totals (.assemble source)) := by
  obtain ⟨new, hlog, hreports⟩ :=
    reports_assembleLines h hgrown 1 (Text.lines source.toList)
  have hanswer : (c.perform (.assemble source)).answer =
      .assemble (c.assembleInto source).answer := rfl
  have hstate : (c.perform (.assemble source)).state = (c.assembleInto source).state := rfl
  refine ⟨new, hlog, ?_⟩
  rcases c.assembleInto_cases source with ⟨e, herror, hevents⟩ | ⟨hok, hevents⟩
  · rw [hevents, Chunk.state_assembleInto, Chunk.totals, hanswer, herror]
    exact hreports
  · rw [hevents, Chunk.totals, hanswer, hok, hstate, Chunk.state_assembleInto]
    rw [← List.append_nil new]
    exact hreports.append (reports_assembled _ _)

/-- **A call reports the entries of the statements that it appends**, its growths and its totals. -/
theorem reports_perform (h : Represents c p) (hgrown : c.Grown) {call : Call}
    (hcall : call ≠ .release) :
    ∃ new, log (perform p call).2 = log p ++ new ∧
      Reports c (c.perform call).events (c.perform call).state new (c.totals call) := by
  cases call with
  | instruction op line =>
    by_cases hop : op = .ret
    · subst hop
      have hevents : (c.perform (.instruction .ret line)).events =
          (c.appendStatement ⟨line, .ret⟩).events := List.append_nil _
      rw [hevents]
      exact reports_append h hgrown ⟨line, .ret⟩
    · simp only [Chunk.perform, Chunk.totals, Chunk.appendInstruction_of_ne hop, perform, hop,
        if_false]
      exact ⟨[], (List.append_nil _).symm, reports_nil⟩
  | constant value line =>
    have hevents : (c.perform (.constant value line)).events =
        (c.appendStatement ⟨line, .constant value⟩).events := List.append_nil _
    have hnext : (perform p (.constant value line)).2 =
        (append p ⟨line, .constant value⟩).toOption.getD p := by
      rw [perform]
      cases append p ⟨line, .constant value⟩ <;> rfl
    rw [hevents, hnext]
    exact reports_append h hgrown ⟨line, .constant value⟩
  | assemble source =>
    have hevents : (c.perform (.assemble source)).events = (c.assembleInto source).events :=
      List.append_nil _
    rw [hevents]
    exact reports_assembleInto h hgrown source
  | release => exact absurd rfl hcall

/-- The same over a run of calls. -/
theorem reports_performAll (h : Represents c p) (hgrown : c.Grown) {calls : List Call}
    (hcalls : ∀ call ∈ calls, call ≠ .release) :
    ∃ new, log (performAll p calls).2 = log p ++ new ∧
      Reports c (c.performAll calls).events (c.performAll calls).state new
        (c.allTotals calls) := by
  induction calls generalizing c p with
  | nil => exact ⟨[], (List.append_nil _).symm, reports_nil⟩
  | cons call calls ih =>
    obtain ⟨new, hlog, hreports⟩ := reports_perform h hgrown (hcalls call (List.mem_cons_self ..))
    obtain ⟨later, hlater, hrest⟩ := ih (h.perform call).2
      (Chunk.invariant_grown.perform hgrown call)
      fun call hmem => hcalls call (List.mem_cons_of_mem _ hmem)
    have hevents : (c.performAll (call :: calls)).events =
        (c.perform call).events ++ ((c.perform call).state.performAll calls).events := by
      simp only [Chunk.performAll, Outcome.events_andThen, Outcome.pure, List.append_nil]
    refine ⟨new ++ later, ?_, ?_⟩
    · have hnext : (performAll p (call :: calls)).2 = (performAll (perform p call).2 calls).2 := rfl
      rw [hnext, hlater, hlog, List.append_assoc]
    · rw [hevents]
      exact hreports.append hrest

end Statements

/-! ## 6. The log of the finished chunk -/

namespace Chunk

/-- The entries of an item of the walk, all read from the chunk. -/
def entries (c : Chunk) (item : WalkItem) : List Event :=
  match item.decoded, c.lineAt item.offset with
  | .ok i, .ok line =>
    match i.constantIndex? with
    | none => [.instructionEmitted i.opcode line]
    | some index =>
      match c.constant index with
      | .ok value => [.constantStored index value, .constantEmitted i.opcode index value line]
      | .error _ => []
  | _, _ => []

/-- What the log is to show of the instruction of an item, likewise. -/
def emission? (c : Chunk) (item : WalkItem) : Option (Level × String) :=
  match item.decoded, c.lineAt item.offset with
  | .ok i, .ok line =>
    match i.constantIndex? with
    | none => some (.debug, s!"emit {i.opcode.mnemonic} @ line {line.toNat}")
    | some index =>
      match c.constant index with
      | .ok value =>
        some (.debug, s!"emit {i.opcode.mnemonic} {index} ({value.text}) @ line {line.toNat}")
      | .error _ => none
  | _, _ => none

/-- The entry of an instruction is shown as the chunk has it. -/
theorem map_shown_emission (c : Chunk) (item : WalkItem) :
    ((c.entries item).filter Event.isEmission).map Event.shown = (c.emission? item).toList := by
  unfold entries emission?
  split
  · split
    · rfl
    · split
      · rfl
      · rfl
  · rfl

end Chunk

namespace Statements

variable {c : Chunk} {p : Statements}

/-- **The entries of a statement are those of its item of the walk.** -/
theorem entries_item (h : Shows c p) {j : Nat} (hj : j < p.length) :
    c.entries ⟨offset p j, .ok (instruction (p.take j) p[j])⟩ = entries (p.take j) p[j] := by
  have hline : c.lineAt (offset p j) = .ok p[j].line :=
    h.lineAt_eq j hj _ (Nat.le_refl _) (offset_lt_succ p hj)
  cases hstatement : p[j].statement with
  | ret =>
    simp only [Chunk.entries, hline, entries, instruction, hstatement]
    rfl
  | constant value =>
    obtain ⟨index, hindex, hconstant⟩ := h.constant_eq j hj value hstatement
    have hload : instruction (p.take j) p[j] =
        Instruction.load (constants (p.take j)).length := by
      simp only [instruction, hstatement]
    rw [hload, Instruction.constantIndex?_load] at hindex
    obtain rfl := Option.some.inj hindex
    simp only [Chunk.entries, hline, entries, hload, Instruction.constantIndex?_load, hconstant,
      hstatement]

theorem flatMap_entries_walk (h : Shows c p) : c.walk.flatMap c.entries = log p := by
  rw [List.flatMap_def, h.map_walk, log]
  congr 1
  refine List.ext_getElem (by simp) ?_
  intro j hj _
  have hjp : j < p.length := by simpa using hj
  simp only [List.getElem_mapIdx]
  exact entries_item h hjp

/-- Every item of the walk has its instruction in the log. -/
theorem isSome_emission? (h : Shows c p) {item : WalkItem} (hitem : item ∈ c.walk) :
    (c.emission? item).isSome = true := by
  rw [h.walk_eq] at hitem
  obtain ⟨j, hj, rfl⟩ := List.mem_mapIdx.mp hitem
  have hjp : j < p.length := by simpa using hj
  have hemitted : ∀ before placed, (entries before placed).filter Event.isEmission ≠ [] := by
    rintro before ⟨line, statement⟩
    cases statement <;> exact List.cons_ne_nil _ _
  have hshown := c.map_shown_emission ⟨offset p j, .ok (instructions p)[j]⟩
  rw [getElem_instructions p hj hjp, entries_item h hjp] at hshown
  rw [getElem_instructions p hj hjp, Option.isSome_iff_ne_none]
  intro hnone
  rw [hnone] at hshown
  exact hemitted _ _ (List.map_eq_nil_iff.mp hshown)

/-- The constants are reported with their indices, in order. -/
theorem filter_isStored_log (p : Statements) :
    (log p).filter Event.isStored = (constants p).mapIdx Event.constantStored := by
  induction p using List.reverseRecOn with
  | nil => rfl
  | append_singleton p x ih =>
    rw [log_append, List.filter_append, ih, constants_append, List.mapIdx_append]
    congr 1
    obtain ⟨line, statement⟩ := x
    cases statement with
    | ret => rfl
    | constant value =>
      show [Event.constantStored (constants p).length value] =
        [.constantStored (0 + (constants p).length) value]
      rw [Nat.zero_add]

/-- **The instructions in the log are those of the walk**, one for each item. -/
theorem map_shown_emissions (h : Shows c p) :
    ((log p).filter Event.isEmission).map (fun e => some e.shown) = c.walk.map c.emission? := by
  rw [← flatMap_entries_walk h, List.filter_flatMap, List.map_flatMap, List.map_eq_flatMap]
  refine List.flatMap_congr ?_
  intro item hitem
  obtain ⟨shown, hshown⟩ := Option.isSome_iff_exists.mp (isSome_emission? h hitem)
  have hmap := congrArg (List.map some) (c.map_shown_emission item)
  rw [hshown, List.map_map] at hmap
  rw [hshown]
  exact hmap

/-- **The constants in the log are those of the pool**, at their indices. -/
theorem map_shown_stored (h : Shows c p) :
    ((log p).filter Event.isStored).map Event.shown =
      c.constants.toList.mapIdx fun i v => (.trace, s!"constant[{i}] = {v.text}") := by
  rw [filter_isStored_log, h.constants_eq]
  refine List.ext_getElem (by simp) ?_
  intro j _ _
  rw [List.getElem_map, List.getElem_mapIdx, List.getElem_mapIdx]
  rfl

end Statements

namespace Chunk

/-- The log of calls that have built a chunk says what the chunk is. -/
structure FaithfulLog (c : Chunk) (calls : List Call) (log : List Event) : Prop where
  /-- The instructions are reported as the walk decodes them, with their lines and constants. -/
  emissions_eq : (log.filter Event.isEmission).map (fun e => some e.shown) =
    c.walk.map c.emission?
  /-- The constants are reported as they stand in the pool. -/
  stored_eq : (log.filter Event.isStored).map Event.shown =
    c.constants.toList.mapIdx fun i v => (.trace, s!"constant[{i}] = {v.text}")
  /-- A constant is reported right before its instruction, behind everything earlier. -/
  entries_eq : log.filter Event.isEntry = c.walk.flatMap c.entries
  /-- The buffers report as many growths as their sizes need, as far as a word counts the code. -/
  growths_eq : c.size < 2 ^ 64 → log.countP Event.isGrowth =
    growths c.size + growths c.lines.runs.size + growths c.constants.size
  /-- Every listing that was assembled to its end is reported with the totals behind it. -/
  assembled_eq : (log.filter Event.isAssembled).map Event.shown =
    (empty.allTotals calls).map fun t =>
      (.debug, s!"assembled {t.1} bytes, {t.2} constants")
  /-- There is nothing else in the log. -/
  kinds : ∀ e ∈ log, e.isEntry = true ∨ e.isGrowth = true ∨ e.isAssembled = true

/-- Of the entries alone, a kind of them is left. -/
theorem filter_filter_isEntry {kind : Event → Bool} (h : ∀ e, kind e = true → e.isEntry = true)
    (log : List Event) : (log.filter Event.isEntry).filter kind = log.filter kind := by
  rw [List.filter_filter]
  refine List.filter_congr ?_
  intro e _
  exact Bool.eq_iff_iff.mpr (by simpa using h e)

/-- **The log of a build is a faithful record of the chunk.**  For every run of calls without a
release, refused ones included, the log has the instructions of the finished chunk and its
constants, in order and each constant right before its instruction, the growths that the sizes of
the three buffers need, and the totals behind every listing that was assembled to its end. -/
theorem performAll_faithfulLog (calls : List Call) (h : ∀ call ∈ calls, call ≠ .release) :
    (empty.performAll calls).state.FaithfulLog calls (empty.performAll calls).events := by
  obtain ⟨new, hlog, hreports⟩ :=
    Statements.reports_performAll Statements.represents_empty invariant_grown.empty h
  have hrepresents := (Statements.represents_empty.performAll calls).2
  have hshows := Statements.shows_of_represents hrepresents
  have hentries : (empty.performAll calls).events.filter Event.isEntry =
      Statements.log (Statements.performAll [] calls).2 := by
    rw [hreports.entries_eq, hlog]
    rfl
  refine ⟨?_, ?_, ?_, ?_, ?_, hreports.kinds⟩
  · have hemission : ∀ e : Event, e.isEmission = true → e.isEntry = true := by
      intro e he
      rw [Event.isEntry, he, Bool.or_true]
    rw [← filter_filter_isEntry hemission, hentries, Statements.map_shown_emissions hshows]
  · have hstored : ∀ e : Event, e.isStored = true → e.isEntry = true := by
      intro e he
      rw [Event.isEntry, he, Bool.true_or]
    rw [← filter_filter_isEntry hstored, hentries, Statements.map_shown_stored hshows]
  · rw [hentries, Statements.flatMap_entries_walk hshows]
  · intro hsize
    rw [← growthCount_eq hrepresents.coupled (Nat.le_pred_of_lt hsize), ← hreports.growths_eq]
    exact (Nat.zero_add _).symm
  · rw [hreports.totals_eq, List.map_map]
    rfl

/-- A refused operation, a constant, a listing that ends at a fault, and one that does not. -/
theorem performAll_faithfulLog_of_listings :
    ∃ calls : List Call, (∀ call ∈ calls, call ≠ .release) ∧
      ((empty.performAll calls).events.filter Event.isEmission).map (fun e => some e.shown) =
        [some (.debug, "emit CONSTANT 0 (0) @ line 7"), some (.debug, "emit RETURN @ line 1"),
          some (.debug, "emit RETURN @ line 1")] ∧
      ((empty.performAll calls).events.filter Event.isStored).map Event.shown =
        [(.trace, "constant[0] = 0")] ∧
      (empty.performAll calls).events.countP Event.isGrowth = 3 ∧
      ((empty.performAll calls).events.filter Event.isAssembled).map Event.shown =
        [(.debug, "assembled 4 bytes, 1 constants")] := by
  have h : ∀ call ∈ [Call.instruction .constant 3, .constant ⟨0⟩ 7, .assemble "RETURN\nCONSTANT",
      .assemble "RETURN"], call ≠ .release := by decide
  have hlog := performAll_faithfulLog _ h
  have hgrowths : ∀ n, 0 < n → n ≤ 8 → growths n = 1 := by
    intro n hpos hle
    refine growths_eq_iff.mpr ⟨hle, ?_⟩
    intro k hk
    obtain rfl : k = 0 := Nat.lt_one_iff.mp hk
    exact hpos
  refine ⟨_, h, hlog.emissions_eq.trans ?_, hlog.stored_eq.trans ?_,
    (hlog.growths_eq ?_).trans ?_, hlog.assembled_eq.trans ?_⟩
  · decide +kernel
  · decide +kernel
  · decide +kernel
  · rw [hgrowths _ (by decide +kernel) (by decide +kernel),
      hgrowths _ (by decide +kernel) (by decide +kernel),
      hgrowths _ (by decide +kernel) (by decide +kernel)]
  · decide +kernel

end Chunk
end BytecodeTrace
