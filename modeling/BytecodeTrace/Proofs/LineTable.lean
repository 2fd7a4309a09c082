/-
# A line table is the list of its lines

`LineTable.toList` expands the runs to one line per byte.  Every operation is described by what it
does to that list, and the invariant behind the descriptions is `LineTable.Sound`: the runs adjoin
from offset zero to the size of the table, none is empty, and neighbours have different lines.

* `toList_push`: a push puts its line behind the others;
* `sound_push`: and keeps the invariant;
* `line?_eq_getElem?`: the binary search finds the line that stands in the list;
* `adjoin_unique`: the list leaves no choice of the runs.
-/
import BytecodeTrace.LineTable

namespace BytecodeTrace

/-! ## 1. The newest item of a buffer -/

namespace Buffer

variable {α : Type}

/-- A buffer that has a newest item has it at the end. -/
theorem toList_of_last?_eq_some {b : Buffer α} {x : α} (h : b.last? = some x) :
    ∃ init, b.items.toList = init ++ [x] := by
  obtain ⟨items, hitems⟩ := Array.back?_eq_some_iff.mp h
  exact ⟨items.toList, by rw [hitems, Array.toList_push]⟩

/-- A change of the newest item leaves the others as they are. -/
theorem toList_modifyLast {b : Buffer α} {f : α → α} {init : List α} {x : α}
    (h : b.items.toList = init ++ [x]) :
    (b.modifyLast f).items.toList = init ++ [f x] := by
  have hsize : b.items.size - 1 = init.length := by
    rw [← Array.length_toList, h]
    simp
  simp [modifyLast, hsize, h, List.modify_eq_take_cons_drop]

end Buffer

/-! ## 2. Runs that adjoin -/

/-- One line for every byte of the runs. -/
def expandRuns (runs : List LineRun) : List Line :=
  runs.flatMap fun run => List.replicate run.count run.line

@[simp] theorem expandRuns_nil : expandRuns [] = [] := rfl

@[simp] theorem expandRuns_cons (run : LineRun) (runs : List LineRun) :
    expandRuns (run :: runs) = List.replicate run.count run.line ++ expandRuns runs := rfl

@[simp] theorem expandRuns_append (xs ys : List LineRun) :
    expandRuns (xs ++ ys) = expandRuns xs ++ expandRuns ys := List.flatMap_append

/-- The first run begins at `start`, every other one where the one before it ends and with another
line, and no run is empty. -/
def Adjoin (start : Nat) : List LineRun → Prop
  | [] => True
  | run :: runs => run.start = start ∧ 0 < run.count ∧
      (∀ next ∈ runs.head?, next.line ≠ run.line) ∧ Adjoin run.stop runs

/-- A run may be put behind runs that adjoin if it begins where they end, with another line. -/
theorem adjoin_append_singleton {start : Nat} {runs : List LineRun} {run : LineRun} :
    Adjoin start (runs ++ [run]) ↔
      Adjoin start runs ∧ run.start = start + (expandRuns runs).length ∧ 0 < run.count ∧
        ∀ last ∈ runs.getLast?, run.line ≠ last.line := by
  induction runs generalizing start with
  | nil => simp [Adjoin]
  | cons first runs ih =>
    have hlen : (expandRuns (first :: runs)).length = first.count + (expandRuns runs).length := by
      simp
    rw [List.cons_append, Adjoin, Adjoin, ih, hlen]
    cases runs with
    | nil => simp [LineRun.stop]; grind
    | cons second runs =>
      simp only [LineRun.stop, List.cons_append, List.head?_cons, List.getLast?_cons_cons]
      grind

/-- The line of a byte is the line of the run that covers it. -/
theorem getElem?_expandRuns {start offset : Nat} {runs : List LineRun} (h : Adjoin start runs)
    {i : Nat} (hi : i < runs.length) (hle : runs[i].start ≤ offset)
    (hlt : offset < runs[i].stop) :
    start ≤ runs[i].start ∧ (expandRuns runs)[offset - start]? = some runs[i].line := by
  induction runs generalizing start i with
  | nil => simp at hi
  | cons first runs ih =>
    obtain ⟨hstart, hpos, _, hrest⟩ := h
    cases i with
    | zero =>
      simp only [List.getElem_cons_zero, LineRun.stop] at hle hlt ⊢
      refine ⟨Nat.le_of_eq hstart.symm, ?_⟩
      rw [expandRuns_cons, List.getElem?_append_left (by simp; omega), List.getElem?_replicate,
        if_pos (by omega)]
    | succ i =>
      simp only [List.getElem_cons_succ] at hle hlt ⊢
      obtain ⟨hs, hget⟩ := ih hrest (by simpa using hi) hle hlt
      simp only [LineRun.stop] at hs hget
      refine ⟨by omega, ?_⟩
      rw [expandRuns_cons, List.getElem?_append_right (by simp; omega), List.length_replicate,
        ← hget]
      congr 1
      omega

/-- A run ends where the next one begins, and the last one where the lines end. -/
theorem stop_getElem {start : Nat} {runs : List LineRun} (h : Adjoin start runs) {i : Nat}
    (hi : i < runs.length) :
    (∀ hn : i + 1 < runs.length, runs[i].stop = runs[i + 1].start) ∧
      (i + 1 = runs.length → runs[i].stop = start + (expandRuns runs).length) := by
  induction runs generalizing start i with
  | nil => simp at hi
  | cons first runs ih =>
    obtain ⟨hstart, hpos, _, hrest⟩ := h
    cases i with
    | zero =>
      cases runs with
      | nil => simp [LineRun.stop, hstart]
      | cons second runs => simpa using hrest.1.symm
    | succ i =>
      have := ih hrest (by simpa using hi)
      simp only [LineRun.stop, List.getElem_cons_succ, List.length_cons, expandRuns_cons,
        List.length_append, List.length_replicate] at this ⊢
      exact ⟨fun hn => this.1 (by omega), fun hn => by have := this.2 (by omega); omega⟩

/-- Later runs begin later. -/
theorem start_le_start {start : Nat} {runs : List LineRun} (h : Adjoin start runs) {i j : Nat}
    (hij : i ≤ j) (hj : j < runs.length) : runs[i].start ≤ runs[j].start := by
  induction j with
  | zero => simp [Nat.le_zero.mp hij]
  | succ j ih =>
    rcases Nat.le_or_eq_of_le_succ hij with hle | rfl
    · have hstep := (stop_getElem h (i := j) (by omega)).1 hj
      have := ih hle (by omega)
      simp only [LineRun.stop] at hstep
      omega
    · exact Nat.le_refl _

/-- Runs that adjoin cover exactly the bytes from their start on, as many as they have lines. -/
theorem exists_run_iff {start offset : Nat} {runs : List LineRun} (h : Adjoin start runs) :
    (∃ run ∈ runs, run.start ≤ offset ∧ offset < run.stop) ↔
      start ≤ offset ∧ offset < start + (expandRuns runs).length := by
  induction runs generalizing start with
  | nil => simp
  | cons first runs ih =>
    obtain ⟨hstart, hpos, _, hrest⟩ := h
    have hrest := ih hrest
    simp only [LineRun.stop] at hrest
    simp only [List.mem_cons, or_and_right, exists_or, exists_eq_left, hrest, LineRun.stop,
      expandRuns_cons, List.length_append, List.length_replicate]
    omega

/-- The first line is that of the first run. -/
theorem head?_expandRuns {start : Nat} {runs : List LineRun} (h : Adjoin start runs) :
    (expandRuns runs).head? = runs.head?.map LineRun.line := by
  cases runs with
  | nil => rfl
  | cons first runs =>
    have hpos : first.count ≠ 0 := Nat.ne_of_gt h.2.1
    simp [List.head?_append, List.head?_replicate, hpos]

/-- The first run reaches as far as its line does. -/
theorem takeWhile_expandRuns {start : Nat} {first : LineRun} {runs : List LineRun}
    (h : Adjoin start (first :: runs)) :
    (expandRuns (first :: runs)).takeWhile (· == first.line) =
      List.replicate first.count first.line := by
  obtain ⟨_, _, hnext, hrest⟩ := h
  have hfirst : ∀ line ∈ List.replicate first.count first.line, (line == first.line) = true := by
    intro line hline
    exact beq_iff_eq.mpr (List.eq_of_mem_replicate hline)
  have hbehind : (expandRuns runs).takeWhile (· == first.line) = [] := by
    have hhead := head?_expandRuns hrest
    cases hlines : expandRuns runs with
    | nil => rfl
    | cons line lines =>
      rw [hlines, List.head?_cons] at hhead
      obtain ⟨next, hmem, rfl⟩ := Option.map_eq_some_iff.mp hhead.symm
      exact List.takeWhile_cons_of_neg (by simpa using hnext next hmem)
  rw [expandRuns_cons, List.takeWhile_append_of_pos hfirst, hbehind, List.append_nil]

/-- **Runs that adjoin are given by their lines.** -/
theorem adjoin_unique {start : Nat} {xs ys : List LineRun} (hx : Adjoin start xs)
    (hy : Adjoin start ys) (h : expandRuns xs = expandRuns ys) : xs = ys := by
  induction xs generalizing start ys with
  | nil =>
    have hhead := head?_expandRuns hy
    rw [← h] at hhead
    cases ys with
    | nil => rfl
    | cons y ys => cases hhead
  | cons x xs ih =>
    have hhead := head?_expandRuns hy
    rw [← h, head?_expandRuns hx] at hhead
    cases ys with
    | nil => cases hhead
    | cons y ys =>
      have hline : x.line = y.line := Option.some.inj hhead
      have hcounts := takeWhile_expandRuns hx
      rw [h, hline, takeWhile_expandRuns hy] at hcounts
      have hcount : y.count = x.count := by simpa using congrArg List.length hcounts
      have hxy : x = y := by
        obtain ⟨hxstart, -⟩ := hx
        obtain ⟨hystart, -⟩ := hy
        cases x
        cases y
        simp only at hxstart hystart hline hcount
        simp [hxstart, hystart, hline, hcount]
      subst hxy
      rw [expandRuns_cons, expandRuns_cons, List.append_cancel_left_eq] at h
      rw [ih hx.2.2.2 hy.2.2.2 h]

namespace LineTable

/-! ## 3. Sound tables -/

/-- The runs of the table adjoin, and the size is the number of their lines. -/
structure Sound (t : LineTable) : Prop where
  adjoin : Adjoin 0 t.runs.items.toList
  size_eq : t.size = t.toList.length

theorem toList_eq (t : LineTable) : t.toList = expandRuns t.runs.items.toList := rfl

theorem sound_empty : Sound empty := ⟨trivial, rfl⟩

/-- A push extends the last run, or begins a run behind it. -/
theorem push_cases (t : LineTable) (line : Line) :
    (∃ init last, t.runs.items.toList = init ++ [last] ∧ last.line = line ∧
      (t.push line).state.runs.items.toList =
        init ++ [{ last with count := last.count + 1 }]) ∨
    ((∀ last ∈ t.runs.items.toList.getLast?, line ≠ last.line) ∧
      (t.push line).state.runs.items.toList =
        t.runs.items.toList ++ [⟨t.size, 1, line⟩]) := by
  obtain ⟨runs, size⟩ := t
  cases hlast : runs.last? with
  | none =>
    have hnil : runs.items = #[] := by simpa [Buffer.last?] using hlast
    refine .inr ⟨by simp [hnil], ?_⟩
    simp only [push, hlast, Buffer.items_append, Array.toList_push]
  | some last =>
    obtain ⟨init, hinit⟩ := Buffer.toList_of_last?_eq_some hlast
    by_cases hline : last.line = line
    · refine .inl ⟨init, last, hinit, hline, ?_⟩
      simp only [push, hlast, hline, if_true]
      rw [Buffer.toList_modifyLast hinit, hline]
    · refine .inr ⟨by simpa [hinit] using fun h => hline h.symm, ?_⟩
      simp only [push, hlast, hline, if_false, Buffer.items_append, Array.toList_push]

/-- A push records one line. -/
@[simp] theorem size_push (t : LineTable) (line : Line) :
    (t.push line).state.size = t.size + 1 := by
  obtain ⟨runs, size⟩ := t
  simp only [push]
  split
  · split <;> rfl
  · rfl

/-- **A push puts its line behind the others.** -/
@[simp] theorem toList_push (t : LineTable) (line : Line) :
    (t.push line).state.toList = t.toList ++ [line] := by
  rcases push_cases t line with ⟨init, last, hinit, rfl, hpush⟩ | ⟨_, hpush⟩
  · simp only [toList_eq, hinit, hpush, expandRuns_append, expandRuns_cons, expandRuns_nil,
      List.replicate_succ', List.append_nil, List.append_assoc]
  · simp only [toList_eq, hpush, expandRuns_append, expandRuns_cons, expandRuns_nil,
      List.replicate_one, List.append_nil]

/-- **A push keeps the runs adjoining.** -/
theorem sound_push {t : LineTable} (h : Sound t) (line : Line) : Sound (t.push line).state := by
  refine ⟨?_, by simp [h.size_eq]⟩
  rcases push_cases t line with ⟨init, last, hinit, -, hpush⟩ | ⟨hne, hpush⟩
  · have hadjoin := h.adjoin
    rw [hinit, adjoin_append_singleton] at hadjoin
    rw [hpush, adjoin_append_singleton]
    exact ⟨hadjoin.1, hadjoin.2.1, Nat.succ_pos _, hadjoin.2.2.2⟩
  · rw [hpush, adjoin_append_singleton]
    refine ⟨h.adjoin, ?_, Nat.one_pos, hne⟩
    rw [h.size_eq, toList_eq, Nat.zero_add]

/-! ## 4. The search -/

/-- The search answers a number of runs that start at or before the offset, and the runs behind
them start later, when the runs are in order. -/
theorem searchRuns_spec {runs : Array LineRun} {offset low high : Nat} {bound : high ≤ runs.size}
    (hmono : ∀ i j, i ≤ j → ∀ (hi : i < runs.size) (hj : j < runs.size),
      runs[i].start ≤ runs[j].start)
    (hlow : ∀ i, i < low → ∀ hi : i < runs.size, runs[i].start ≤ offset)
    (hhigh : ∀ i, high ≤ i → ∀ hi : i < runs.size, offset < runs[i].start) (hle : low ≤ high) :
    (∀ i, i < searchRuns runs offset low high bound → ∀ hi : i < runs.size,
      runs[i].start ≤ offset) ∧
    (∀ i, searchRuns runs offset low high bound ≤ i → ∀ hi : i < runs.size,
      offset < runs[i].start) ∧
    searchRuns runs offset low high bound ≤ runs.size := by
  fun_induction searchRuns runs offset low high bound with
  | case1 low high bound hlt middle hmiddle ih =>
    have hmid : middle < high := by simp only [middle]; omega
    refine ih ?_ hhigh hmid
    intro i hi hs
    exact Nat.le_trans (hmono i middle (Nat.lt_succ_iff.mp hi) hs (by omega)) hmiddle
  | case2 low high bound hlt middle hmiddle ih =>
    have hmid : middle < high := by simp only [middle]; omega
    refine ih hlow ?_ (by simp only [middle]; omega)
    intro i hi hs
    exact Nat.lt_of_lt_of_le (Nat.not_le.mp hmiddle) (hmono middle i hi (by omega) hs)
  | case3 low high bound hge =>
    have : low = high := by omega
    subst this
    exact ⟨hlow, hhigh, bound⟩

/-- Behind the runs that start at or before an offset, the last of them covers it. -/
theorem exists_run_of_count {runs : List LineRun} {offset count : Nat} (h : Adjoin 0 runs)
    (hlt : offset < (expandRuns runs).length) (hcount : count ≤ runs.length)
    (hbefore : ∀ i, i < count → ∀ hi : i < runs.length, runs[i].start ≤ offset)
    (hbehind : ∀ i, count ≤ i → ∀ hi : i < runs.length, offset < runs[i].start) :
    ∃ j, count = j + 1 ∧ ∃ hj : j < runs.length,
      runs[j].start ≤ offset ∧ offset < runs[j].stop := by
  cases count with
  | zero =>
    -- a first run would begin at zero
    cases runs with
    | nil => simp at hlt
    | cons first runs =>
      have := hbehind 0 (Nat.le_refl _) (by simp)
      rw [List.getElem_cons_zero, h.1] at this
      omega
  | succ j =>
    have hj : j < runs.length := hcount
    have hstop := stop_getElem h hj
    refine ⟨j, rfl, hj, hbefore j (Nat.lt_succ_self j) hj, ?_⟩
    rcases Nat.lt_or_ge (j + 1) runs.length with hn | hn
    · rw [hstop.1 hn]
      exact hbehind (j + 1) (Nat.le_refl _) hn
    · rw [hstop.2 (by omega), Nat.zero_add]
      exact hlt

/-- **The search finds the line in the list.** -/
theorem line?_eq_getElem? {t : LineTable} (h : Sound t) (offset : Nat) :
    t.line? offset = t.toList[offset]? := by
  rcases Nat.lt_or_ge offset t.size with hlt | hge
  · have hmono : ∀ i j, i ≤ j → ∀ (hi : i < t.runs.items.size) (hj : j < t.runs.items.size),
        t.runs.items[i].start ≤ t.runs.items[j].start := by
      intro i j hij hi hj
      have hj' : j < t.runs.items.toList.length := by simpa using hj
      simpa only [Array.getElem_toList] using start_le_start h.adjoin hij hj'
    have hnone : ∀ i, t.runs.items.size ≤ i → ∀ hi : i < t.runs.items.size,
        offset < t.runs.items[i].start := by
      intro i hi hs
      omega
    obtain ⟨hbefore, hbehind, hsize⟩ := @searchRuns_spec t.runs.items offset 0 _
      (Nat.le_refl _) hmono (by simp) hnone (Nat.zero_le _)
    obtain ⟨j, hcount, hj, hle, hstop⟩ := exists_run_of_count h.adjoin
      (by rw [← toList_eq, ← h.size_eq]; exact hlt) (by simpa using hsize)
      (by simpa using hbefore) (by simpa using hbehind)
    have hget := (getElem?_expandRuns h.adjoin hj hle hstop).2
    have hsearch : t.runs.items[j]? = some t.runs.items.toList[j] := by
      rw [← Array.getElem?_toList, List.getElem?_eq_getElem hj]
    rw [toList_eq, ← Nat.sub_zero offset, hget, Nat.sub_zero]
    simp only [line?, Nat.not_le.mpr hlt, if_false, hcount, hsearch, Option.map_some]
  · rw [List.getElem?_eq_none (by rw [← h.size_eq]; exact hge)]
    simp [line?, hge]

end LineTable
end BytecodeTrace
