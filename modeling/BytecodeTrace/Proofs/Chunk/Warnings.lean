/-
# The warnings of a trace

A trace goes on at what it cannot show, and warns of it.  The warnings are a second account of the
same walk: there is one for each item that is not an instruction, and one for each instruction whose
constant is missing, in the order of the walk, and there are no others.

* `warning?`: the warning that an item gives, and `warningText?` its text;
* `flatMap_warnings_traceLines`: the trace collects them in the order of the walk;
* `showsAnomaly_shownRow_iff`: an item gives a warning if and only if its row shows why;
* `warning?_eq_none_of_represents`: what calls build has nothing to warn of.

Rows are known by their text alone: the texts of an anomaly have a letter or a bracket that no other
row has, whatever its offset, its line and its value.
-/
import BytecodeTrace.Proofs.Chunk.TraceReading

namespace BytecodeTrace

/-! ## 1. The warning of an item -/

namespace Chunk

/-- The warning that an item of the walk gives. -/
def warning? (c : Chunk) (item : WalkItem) : Option Event :=
  match item.decoded with
  | .error (.unknownOpcode _ tag) => some (.unknownTag tag item.offset)
  | .error (.truncated _ op _ _) => some (.truncatedOperand op item.offset)
  | .error (.offsetOutOfBounds ..) => none
  | .ok i =>
    match i.constantIndex? with
    | none => none
    | some index =>
      if c.constants.size ≤ index then
        some (.danglingConstant index c.constants.size item.offset)
      else none

/-- The text of that warning. -/
def warningText? (c : Chunk) (item : WalkItem) : Option String :=
  match item.decoded with
  | .error (.unknownOpcode _ tag) =>
    some s!"unknown instruction {tag.toNat} at offset {item.offset}"
  | .error (.truncated _ op _ _) => some s!"truncated {op.mnemonic} at offset {item.offset}"
  | .error (.offsetOutOfBounds ..) => none
  | .ok i =>
    match i.constantIndex? with
    | none => none
    | some index =>
      if c.constants.size ≤ index then
        some (s!"constant index {index} out of range (pool holds {c.constants.size})" ++
          s!" at offset {item.offset}")
      else none

variable {c : Chunk} {offset : Nat} {item : WalkItem}

theorem map_message_warning? (c : Chunk) (item : WalkItem) :
    (c.warning? item).map Event.message = c.warningText? item := by
  unfold warning? warningText?
  split
  · rfl
  · rfl
  · rfl
  · split
    · rfl
    · split
      · exact congrArg some String.append_assoc
      · rfl

theorem level_of_mem_warning? {e : Event} (h : e ∈ c.warning? item) : e.level = .warn := by
  unfold warning? at h
  split at h
  · cases h
    rfl
  · cases h
    rfl
  · cases h
  · split at h
    · cases h
    · split at h
      · cases h
        rfl
      · cases h

/-- An instruction gives a warning exactly if the pool has not got its constant. -/
theorem warning?_ok_eq_none_iff {i : Instruction} :
    c.warning? ⟨offset, .ok i⟩ = none ↔
      ∀ index ∈ i.constantIndex?, index < c.content.constants.length := by
  simp only [warning?, ← constants_size_eq_length]
  cases i.constantIndex? with
  | none => simp
  | some index =>
    by_cases hle : c.constants.size ≤ index
    · simp [hle]
    · simp [hle, Nat.not_le.mp hle]

/-! ## 2. The warnings of the trace -/

theorem warnings_constantLine (c : Chunk) (columns : String) (offset : Nat) (op : Opcode)
    (index : Nat) :
    (c.constantLine columns offset op index).warnings =
      if c.constants.size ≤ index then [.danglingConstant index c.constants.size offset]
      else [] := by
  simp only [constantLine, constant_eq, constants_size_eq_length]
  cases hconstant : c.content.constants[index]? with
  | none => rw [if_pos (List.getElem?_eq_none_iff.mp hconstant)]
  | some value =>
    have hlt := (List.getElem?_eq_some_iff.mp hconstant).1
    rw [if_neg (Nat.not_le.mpr hlt)]

/-- **A trace line gives the warning of the item that it shows.** -/
theorem warnings_traceLine (h : c.Coupled) (hlt : offset < c.size) :
    (c.traceLine offset).warnings = (c.warning? ⟨offset, c.decodeAt offset⟩).toList := by
  obtain ⟨line, hline⟩ := exists_line?_eq_some h hlt
  have hload : ∀ columns op index,
      (c.constantLine columns offset op index).warnings =
        (if c.constants.size ≤ index then
          some (Event.danglingConstant index c.constants.size offset) else none).toList := by
    intro columns op index
    rw [warnings_constantLine]
    split <;> rfl
  simp only [traceLine, hline]
  rcases Instruction.decode_cases hlt with ⟨tag, _, _, hd⟩ | ⟨op, _, _, hd⟩ | ⟨i, _, _, hd⟩
  · rw [decodeAt, hd]
    rfl
  · rw [decodeAt, hd]
    rfl
  · rw [decodeAt, hd]
    cases i with
    | ret => rfl
    | constant index => exact hload ..
    | constantLong index => exact hload ..

/-- **The warnings are those of the items of the walk**, in their order and from any offset on. -/
theorem flatMap_warnings_traceLines (h : c.Coupled) (offset : Nat) :
    (c.traceLines offset).flatMap TraceLine.warnings =
      (walkFrom c.code.items offset).filterMap c.warning? := by
  induction hm : c.size - offset using Nat.strongRecOn generalizing offset with
  | ind m ih =>
    rcases Nat.lt_or_ge offset c.size with hlt | hge
    · have hnext := (traceLine_eq h hlt).2
      have hpos := @WalkItem.span_pos ⟨offset, c.decodeAt offset⟩ c.size hlt
      have hrest := ih _ (by omega) (c.traceLine offset).next rfl
      rw [traceLines, dif_pos hlt, walkFrom_of_lt hlt, List.flatMap_cons, hrest, hnext,
        warnings_traceLine h hlt]
      show _ = List.filterMap c.warning? (⟨offset, c.decodeAt offset⟩ :: _)
      rw [List.filterMap_cons]
      cases c.warning? ⟨offset, c.decodeAt offset⟩ <;> rfl
    · rw [traceLines, dif_neg (Nat.not_lt.mpr hge), walkFrom_of_le hge]
      rfl

end Chunk

/-! ## 3. Rows that show an anomaly -/

/-- The texts by which a row shows that it is not a whole instruction, or not with its constant. -/
def anomalyTexts : List String := ["unknown instruction ", "truncated ", "'<missing constant>'"]

/-- The row shows an unknown instruction, a truncation or a missing constant. -/
def ShowsAnomaly (row : List Char) : Prop := ∃ text ∈ anomalyTexts, text.toList <:+: row

instance : DecidablePred ShowsAnomaly := fun row =>
  inferInstanceAs (Decidable (∃ text ∈ anomalyTexts, text.toList <:+: row))

/-- Characters that stand in the texts of anomalies and in no other row. -/
def anomalyMarks : List Char := ['k', 'd', '<']

/-- Every text of an anomaly has such a character. -/
theorem ShowsAnomaly.exists_mark {row : List Char} (h : ShowsAnomaly row) :
    ∃ ch ∈ anomalyMarks, ch ∈ row := by
  obtain ⟨text, htext, hinfix⟩ := h
  obtain ⟨ch, hch, hmem⟩ : ∃ ch ∈ anomalyMarks, ch ∈ text.toList := by
    simp only [anomalyTexts, List.mem_cons, List.not_mem_nil, or_false] at htext
    rcases htext with rfl | rfl | rfl
    · exact ⟨'k', by decide, by decide⟩
    · exact ⟨'d', by decide, by decide⟩
    · exact ⟨'<', by decide, by decide⟩
  exact ⟨ch, hch, hinfix.subset hmem⟩

namespace Content

variable (x : Content) {ch : Char}

/-- The row of an instruction has no mark, if its constant is there. -/
theorem not_mem_shownRow (hch : ch ∈ anomalyMarks) (offset : Nat) {i : Instruction}
    (hindex : ∀ index ∈ i.constantIndex?, index < x.constants.length) :
    ch ∉ x.shownRow ⟨offset, .ok i⟩ := by
  obtain ⟨hnumber, hdigit, hzero, hblank, hquote, hletters, hbar, hmnemonics⟩ :
      isNumberChar ch = false ∧ Char.isDigit ch = false ∧ ch ≠ '0' ∧ ch ≠ ' ' ∧ ch ≠ '\'' ∧
        ch ∉ ['n', 'a', 'i', 'f'] ∧ ch ∉ [' ', ' ', ' ', '|', ' '] ∧
        ∀ op ∈ Opcode.all, ch ∉ op.mnemonic.toList := by
    simp only [anomalyMarks, List.mem_cons, List.not_mem_nil, or_false] at hch
    rcases hch with rfl | rfl | rfl <;> decide
  have hmnemonic : ch ∉ i.opcode.mnemonic.toList := hmnemonics _ (by cases i.opcode <;> decide)
  have hline : ch ∉ x.shownLine offset := by
    unfold shownLine
    split
    · exact List.not_mem_nil
    · split
      · exact hbar
      · rw [List.mem_append, List.mem_singleton, not_or]
        exact ⟨not_mem_leftpad_digitsOf _ 4 hblank hdigit, hblank⟩
  have hdecoded : ch ∉ x.shownDecoded (.ok i) := by
    simp only [shownDecoded]
    cases hconstant : i.constantIndex? with
    | none => exact hmnemonic
    | some index =>
      have hlt := hindex index hconstant
      have hvalue := (x.constants[index]).not_mem_chars hnumber hletters
      have hfill : ch ∉ List.replicate (16 - i.opcode.mnemonic.toList.length) ' ' :=
        fun hmem => hblank (List.eq_of_mem_replicate hmem)
      simp only [shownConstant, List.getElem?_eq_getElem hlt, List.rightpad, List.mem_append,
        List.mem_cons, List.not_mem_nil, or_false, not_or]
      exact ⟨⟨⟨hmnemonic, hfill⟩, hblank, not_mem_leftpad_digitsOf index 4 hblank hdigit⟩, hblank,
        ⟨hquote, hvalue⟩, hquote⟩
  simp only [shownRow, List.mem_append, List.mem_cons, not_or]
  exact ⟨⟨not_mem_leftpad_digitsOf _ 4 hzero hdigit, hblank, hline⟩, hdecoded⟩

end Content

theorem toList_prefix_of_eq_append {s t u : String} (h : s = t ++ u) :
    t.toList <+: s.toList := by
  rw [h, String.toList_append]
  exact List.prefix_append ..

namespace Chunk

variable {c : Chunk} {item : WalkItem}

/-- What stands in place of an instruction stands in its row. -/
theorem infix_shownRow {s : List Char} (h : s <:+: c.content.shownDecoded item.decoded) :
    s <:+: c.content.shownRow item :=
  h.trans (List.suffix_append ..).isInfix

/-- **A row shows an anomaly exactly if its item gives a warning.** -/
theorem showsAnomaly_shownRow_iff (h : item ∈ c.walk) :
    ShowsAnomaly (c.content.shownRow item) ↔ (c.warning? item).isSome = true := by
  obtain ⟨-, hlt, hdecoded⟩ := decoded_of_mem_walkFrom h
  obtain ⟨offset, decoded⟩ := item
  obtain rfl : decoded = Instruction.decode c.code.items offset := hdecoded
  rcases Instruction.decode_cases hlt with ⟨tag, _, _, hd⟩ | ⟨op, _, _, hd⟩ | ⟨i, _, _, hd⟩
  · rw [hd]
    have hshown : "unknown instruction ".toList <+:
        (DecodeError.unknownOpcode offset tag).shown.toList := toList_prefix_of_eq_append rfl
    exact ⟨fun _ => rfl, fun _ => ⟨_, by decide, infix_shownRow hshown.isInfix⟩⟩
  · rw [hd]
    have hshown : ∀ needed available, "truncated ".toList <+:
        (DecodeError.truncated offset op needed available).shown.toList := by
      intro needed available
      have htext : (DecodeError.truncated offset op needed available).shown =
          s!"truncated {op.mnemonic}: needs {needed} operand bytes, {available} available" := rfl
      simp only [htext, toString_string, String.append_assoc]
      exact toList_prefix_of_eq_append rfl
    exact ⟨fun _ => rfl, fun _ => ⟨_, by decide, infix_shownRow (hshown _ _).isInfix⟩⟩
  · rw [hd]
    cases hwarning : c.warning? ⟨offset, .ok i⟩ with
    | none =>
      refine ⟨?_, nofun⟩
      intro hshows
      obtain ⟨ch, hch, hmem⟩ := hshows.exists_mark
      have hthere := warning?_ok_eq_none_iff.mp hwarning
      exact absurd hmem (c.content.not_mem_shownRow hch offset hthere)
    | some e =>
      have hmissing : ¬ ∀ index ∈ i.constantIndex?, index < c.content.constants.length := by
        rw [← @warning?_ok_eq_none_iff c offset i, hwarning]
        exact nofun
      obtain ⟨index, hindex, hge⟩ : ∃ index, i.constantIndex? = some index ∧
          c.content.constants.length ≤ index := by
        simpa only [not_forall, Nat.not_lt, exists_prop, Option.mem_def] using hmissing
      have hshown : "'<missing constant>'".toList <:+ c.content.shownDecoded (.ok i) := by
        simp only [Content.shownDecoded, hindex, (Content.shownConstant_eq_missing_iff _ _).mpr hge]
        exact (List.suffix_cons ..).trans (List.suffix_append ..)
      exact ⟨fun _ => rfl, fun _ => ⟨_, by decide, infix_shownRow hshown.isInfix⟩⟩

/-! ## 4. The whole trace -/

/-- The warnings of a trace under a name, the items of its walk and its rows go together. -/
structure WarnsOfAnomalies (c : Chunk) (name : String) : Prop where
  /-- There is one warning for each item that gives one, in the order of the walk. -/
  warnings_eq : c.traceWarnings = c.walk.filterMap c.warning?
  messages_eq : c.traceWarnings.map Event.message = c.walk.filterMap c.warningText?
  level_eq : ∀ e ∈ c.traceWarnings, e.level = .warn
  /-- The order of the walk is that of the offsets. -/
  offsets_increase : c.walk.Pairwise fun a b => a.offset < b.offset
  /-- The rows, which are read off the text, show an anomaly where the items give a warning. -/
  rows_eq : (traceRows name (c.trace name)).map (fun row => decide (ShowsAnomaly row)) =
    c.walk.map fun item => (c.warning? item).isSome
  /-- There are as many warnings as rows with an anomaly. -/
  length_eq : c.traceWarnings.length =
    (traceRows name (c.trace name)).countP fun row => decide (ShowsAnomaly row)

theorem warnsOfAnomalies_of_coupled (h : c.Coupled) (name : String) :
    c.WarnsOfAnomalies name := by
  have hwarnings : c.traceWarnings = c.walk.filterMap c.warning? :=
    flatMap_warnings_traceLines h 0
  have hrows : (traceRows name (c.trace name)).map (fun row => decide (ShowsAnomaly row)) =
      c.walk.map fun item => (c.warning? item).isSome := by
    rw [traceRows_trace h, List.map_map]
    refine List.map_congr_left ?_
    intro item hitem
    exact Bool.eq_iff_iff.mpr (by simpa using showsAnomaly_shownRow_iff hitem)
  refine ⟨hwarnings, ?_, ?_, (tiles_walkFrom (Nat.zero_le _)).pairwise_offset_lt, hrows, ?_⟩
  · rw [hwarnings, List.map_filterMap]
    exact congrArg (List.filterMap · c.walk) (funext (map_message_warning? c))
  · intro e he
    rw [hwarnings] at he
    obtain ⟨item, -, hitem⟩ := List.mem_filterMap.mp he
    exact level_of_mem_warning? hitem
  · -- both sides count the same list of truth values
    have hcount := congrArg (List.countP id) hrows
    rw [List.countP_map, List.countP_map] at hcount
    rw [hwarnings, List.length_filterMap_eq_countP]
    exact hcount.symm

/-- Statements have no anomaly among their instructions. -/
theorem warning?_eq_none_of_represents {p : Statements} (h : Statements.Represents c p) :
    ∀ item ∈ c.walk, c.warning? item = none := by
  intro item hitem
  rw [(Statements.shows_of_represents h).walk_eq] at hitem
  obtain ⟨j, hj, rfl⟩ := List.mem_mapIdx.mp hitem
  have hjp : j < p.length := by simpa using hj
  rw [warning?_ok_eq_none_iff, Statements.getElem_instructions p hj hjp, h.content_eq]
  exact Statements.lt_of_mem_constantIndex? hjp

/-- **A trace warns of exactly what it shows.**  Whatever code and constants a chunk has, there is
one warning for every unknown tag, truncated operand and missing constant of its walk, in order,
and as many as there are rows that show one.  What calls have built gives no warning. -/
theorem traceWarnings_are_anomalies :
    (∀ c : Chunk, c.Coupled → ∀ name, c.WarnsOfAnomalies name) ∧
    (∀ edits name, (empty.edited edits).WarnsOfAnomalies name) ∧
    ∀ calls, (built calls).traceWarnings = [] := by
  refine ⟨fun c h name => warnsOfAnomalies_of_coupled h name, ?_, ?_⟩
  · intro edits name
    exact warnsOfAnomalies_of_coupled (coupled_edited coupled_empty edits) name
  · intro calls
    have h : Statements.Represents (built calls) _ :=
      (Statements.represents_empty.performAll calls).2
    rw [(warnsOfAnomalies_of_coupled h.coupled "").warnings_eq, List.filterMap_eq_nil_iff]
    exact warning?_eq_none_of_represents h

/-- All three anomalies, behind a constant that no instruction loads. -/
theorem traceWarnings_are_anomalies_of_three :
    ∃ c : Chunk, c.Coupled ∧ c.content.code = [0xEE, 1, 0, 1, 5, 2, 7] ∧
      c.traceWarnings.map Event.message =
        ["unknown instruction 238 at offset 0",
          "constant index 5 out of range (pool holds 1) at offset 3",
          "truncated CONSTANT_LONG at offset 5"] ∧
      (traceRows "x" (c.trace "x")).countP (fun row => decide (ShowsAnomaly row)) = 3 := by
  have hcoupled : ((empty.withConstant ⟨0⟩).edited
      [.byte 0xEE 1, .byte 1 1, .byte 0 1, .byte 1 2, .byte 5 2, .byte 2 2, .byte 7 2]).Coupled :=
    coupled_edited (coupled_withConstant coupled_empty (by decide) _) _
  have hwarns := traceWarnings_are_anomalies.1 _ hcoupled "x"
  refine ⟨_, hcoupled, by decide +kernel, hwarns.messages_eq.trans ?_,
    hwarns.length_eq.symm.trans ?_⟩
  · decide +kernel
  · rw [hwarns.warnings_eq]
    decide +kernel

end Chunk
end BytecodeTrace
