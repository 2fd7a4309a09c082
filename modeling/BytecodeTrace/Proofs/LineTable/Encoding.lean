/-
# The runs of a line table are the maximal run-length encoding of its lines

A line table that is only pushed to and released has the lines that were pushed since the last
release, and nothing about how they came is left in it: its runs are the one encoding of these lines
in which neighbours have different lines (`IsRunLength`).

* `adjoin_iff`: what adjoining runs are, said of each run alone;
* `isRunLength_iff`: so the invariant of the table is that its runs encode its lines;
* `LineTable.edited_records`: size, lines, search and runs after every history.
-/
import BytecodeTrace.Proofs.LineTable
import Mathlib.Algebra.Ring.Nat

namespace BytecodeTrace

/-! ## 1. Histories of a line table -/

/-- One thing that can happen to a line table. -/
inductive LineEdit where
  | push (line : Line)
  | release
deriving DecidableEq, Repr

namespace LineEdit

/-- The lines behind an edit. -/
def record (lines : List Line) : LineEdit → List Line
  | push line => lines ++ [line]
  | release => []

/-- The lines that were pushed since the last release, in order. -/
def pushed (edits : List LineEdit) : List Line := edits.foldl record []

end LineEdit

namespace LineTable

/-- The table that an edit leaves behind. -/
def edit (t : LineTable) : LineEdit → LineTable
  | .push line => (t.push line).state
  | .release => t.release

/-- The table that a history leaves behind. -/
def edited (t : LineTable) (edits : List LineEdit) : LineTable := edits.foldl edit t

end LineTable

/-! ## 2. Maximal run-length encodings -/

/-- The runs are the maximal run-length encoding of the lines. -/
structure IsRunLength (runs : List LineRun) (lines : List Line) : Prop where
  expand_eq : expandRuns runs = lines
  start_eq : ∀ i (h : i < runs.length), runs[i].start = ((runs.take i).map LineRun.count).sum
  one_le_count : ∀ run ∈ runs, 1 ≤ run.count
  stop_le : ∀ run ∈ runs, run.start + run.count ≤ lines.length
  /-- No two neighbours could be one run. -/
  line_ne : ∀ i (h : i + 1 < runs.length), runs[i].line ≠ runs[i + 1].line

/-- Runs adjoin when each begins behind the bytes of all earlier ones, none is empty, and neighbours
have different lines. -/
theorem adjoin_iff {start : Nat} {runs : List LineRun} :
    Adjoin start runs ↔
      (∀ i (h : i < runs.length),
        runs[i].start = start + ((runs.take i).map LineRun.count).sum) ∧
      (∀ run ∈ runs, 1 ≤ run.count) ∧
      ∀ i (h : i + 1 < runs.length), runs[i].line ≠ runs[i + 1].line := by
  induction runs generalizing start with
  | nil => simp [Adjoin]
  | cons first runs ih =>
    rw [Adjoin, ih]
    constructor
    · rintro ⟨hfirst, hpos, hnext, hstarts, hcounts, hlines⟩
      refine ⟨?_, ?_, ?_⟩
      · intro i hi
        cases i with
        | zero => simpa using hfirst
        | succ i =>
          have hi : i < runs.length := Nat.lt_of_succ_lt_succ hi
          simp only [List.getElem_cons_succ, List.take_succ_cons, List.map_cons, List.sum_cons]
          rw [hstarts i hi, LineRun.stop, hfirst, Nat.add_assoc]
      · intro run hrun
        rcases List.mem_cons.mp hrun with rfl | hrun
        · exact hpos
        · exact hcounts run hrun
      · intro i hi
        cases i with
        | zero =>
          have hi : 0 < runs.length := Nat.lt_of_succ_lt_succ hi
          have hhead : runs.head? = some runs[0] := by
            rw [List.head?_eq_getElem?, List.getElem?_eq_getElem hi]
          exact (hnext runs[0] hhead).symm
        | succ i => exact hlines i (Nat.lt_of_succ_lt_succ hi)
    · rintro ⟨hstarts, hcounts, hlines⟩
      have hfirst : first.start = start := by simpa using hstarts 0 (Nat.succ_pos _)
      refine ⟨hfirst, hcounts first (List.mem_cons_self ..), ?_, ?_, ?_, ?_⟩
      · intro next hnext
        obtain ⟨rest, rfl⟩ := List.head?_eq_some_iff.mp hnext
        exact (hlines 0 (by simp)).symm
      · intro i hi
        have hstart := hstarts (i + 1) (Nat.succ_lt_succ hi)
        simp only [List.getElem_cons_succ, List.take_succ_cons, List.map_cons,
          List.sum_cons] at hstart
        rw [hstart, LineRun.stop, hfirst, Nat.add_assoc]
      · intro run hrun
        exact hcounts run (List.mem_cons_of_mem _ hrun)
      · intro i hi
        exact hlines (i + 1) (Nat.succ_lt_succ hi)

/-- A run ends where the lines end, at the latest. -/
theorem stop_le_length {runs : List LineRun} (h : Adjoin 0 runs) {run : LineRun}
    (hrun : run ∈ runs) : run.start + run.count ≤ (expandRuns runs).length := by
  have hpos : 1 ≤ run.count := (adjoin_iff.mp h).2.1 run hrun
  have hcover : ∃ r ∈ runs, r.start ≤ run.stop - 1 ∧ run.stop - 1 < r.stop := by
    refine ⟨run, hrun, ?_, ?_⟩
    · rw [LineRun.stop]
      omega
    · rw [LineRun.stop]
      omega
  obtain ⟨-, hlt⟩ := (exists_run_iff h).mp hcover
  rw [LineRun.stop] at hlt
  omega

/-- **The encodings of lines are the runs that adjoin from zero on and expand to them.** -/
theorem isRunLength_iff {runs : List LineRun} {lines : List Line} :
    IsRunLength runs lines ↔ Adjoin 0 runs ∧ expandRuns runs = lines := by
  constructor
  · intro h
    refine ⟨adjoin_iff.mpr ⟨?_, h.one_le_count, h.line_ne⟩, h.expand_eq⟩
    intro i hi
    rw [h.start_eq i hi, Nat.zero_add]
  · rintro ⟨hadjoin, rfl⟩
    obtain ⟨hstarts, hcounts, hlines⟩ := adjoin_iff.mp hadjoin
    refine ⟨rfl, ?_, hcounts, fun run => stop_le_length hadjoin, hlines⟩
    intro i hi
    rw [hstarts i hi, Nat.zero_add]

/-! ## 3. Histories -/

namespace LineTable

/-- The table holds the lines: its size is their number, it lists them, the search finds each of
them and nothing behind them, and its runs are their encoding and the only one. -/
structure Records (t : LineTable) (lines : List Line) : Prop where
  size_eq : t.size = lines.length
  toList_eq : t.toList = lines
  line?_eq : ∀ offset, t.line? offset = lines[offset]?
  isRunLength : IsRunLength t.runs.items.toList lines
  unique : ∀ runs, IsRunLength runs lines → runs = t.runs.items.toList

/-- A sound table holds the lines that it lists. -/
theorem Sound.records {t : LineTable} (h : Sound t) : t.Records t.toList where
  size_eq := h.size_eq
  toList_eq := rfl
  line?_eq := line?_eq_getElem? h
  isRunLength := isRunLength_iff.mpr ⟨h.adjoin, rfl⟩
  unique runs hruns := by
    obtain ⟨hadjoin, hlines⟩ := isRunLength_iff.mp hruns
    exact adjoin_unique hadjoin h.adjoin hlines

/-- An edit keeps a table sound, and does the same to its lines as to a list. -/
theorem sound_edit {t : LineTable} (h : Sound t) (edit : LineEdit) :
    Sound (t.edit edit) ∧ (t.edit edit).toList = edit.record t.toList := by
  cases edit with
  | push line => exact ⟨sound_push h line, toList_push t line⟩
  | release => exact ⟨sound_empty, rfl⟩

theorem sound_edited {t : LineTable} (h : Sound t) (edits : List LineEdit) :
    Sound (t.edited edits) ∧ (t.edited edits).toList = edits.foldl LineEdit.record t.toList := by
  induction edits generalizing t with
  | nil => exact ⟨h, rfl⟩
  | cons edit edits ih =>
    obtain ⟨hsound, hlines⟩ := sound_edit h edit
    rw [List.foldl_cons, ← hlines]
    exact ih hsound

/-- **A line table holds the lines that were pushed since its last release**, in its size, in its
list, for its search and in its runs, which have no other choice. -/
theorem edited_records (edits : List LineEdit) :
    (empty.edited edits).Records (LineEdit.pushed edits) := by
  obtain ⟨hsound, hlines⟩ := sound_edited sound_empty edits
  have hrecords := hsound.records
  rwa [hlines] at hrecords

-- a release in the middle: the lines before it are gone, and the runs start at zero again
example : (empty.edited [.push 3, .push 3, .release, .push 1, .push 1, .push 9]).runs.items =
    #[⟨0, 2, 1⟩, ⟨2, 1, 9⟩] := by decide

end LineTable
end BytecodeTrace
