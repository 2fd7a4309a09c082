/-
# What is appended disturbs nothing

Calls and single bytes come behind what a chunk holds already; only a release takes something away.
So a chunk goes on to answer for every old offset and every old index as it did before.  With a
trace there is more to it: an operand that was cut off may be completed by later bytes, and an index
without a constant may get one, so that a row can change.  Where neither is the case the trace and
the rows only go on.

* `Content.Continues`: what one content holds, another one holds too, with more behind it;
* `Continues.decode_eq`, `Continues.isPrefix_walkFrom`: what that means for decoding, and for a walk
  that is not cut off;
* `Continues.shownRow_eq`, `Continues.listedRow_eq`: a row depends on earlier bytes and on the pool;
* `Chunk.continues_edited`: the content goes on in every history that has no release;
* `Chunk.edited_keeps`: what the chunk answers later.
-/
import BytecodeTrace.Proofs.Chunk.Ledger
import BytecodeTrace.Proofs.Chunk.Readers

namespace BytecodeTrace

/-! ## 1. Content that goes on -/

namespace Content

/-- What `x` holds, `y` holds too, with more behind it or nothing. -/
structure Continues (x y : Content) : Prop where
  code : x.code <+: y.code
  lines : x.lines <+: y.lines
  constants : x.constants <+: y.constants

variable {x y : Content}

theorem Continues.getElem?_code (h : x.Continues y) {offset : Nat}
    (hlt : offset < x.code.length) : y.code[offset]? = x.code[offset]? := by
  obtain ⟨rest, hrest⟩ := h.code
  rw [← hrest, List.getElem?_append_left hlt]

theorem Continues.getElem?_lines (h : x.Continues y) {offset : Nat}
    (hlt : offset < x.lines.length) : y.lines[offset]? = x.lines[offset]? := by
  obtain ⟨rest, hrest⟩ := h.lines
  rw [← hrest, List.getElem?_append_left hlt]

theorem Continues.getElem?_constants (h : x.Continues y) {index : Nat}
    (hlt : index < x.constants.length) : y.constants[index]? = x.constants[index]? := by
  obtain ⟨rest, hrest⟩ := h.constants
  rw [← hrest, List.getElem?_append_left hlt]

/-! ## 2. Decoding and walking -/

/-- The code as an array, with what came behind it. -/
theorem Continues.exists_append (h : x.Continues y) :
    ∃ rest : Array UInt8, y.code.toArray = x.code.toArray ++ rest := by
  obtain ⟨rest, hrest⟩ := h.code
  exact ⟨rest.toArray, by rw [← hrest, List.append_toArray]⟩

/-- Decoding gives the same, unless an operand was cut off or the offset was behind the end. -/
theorem Continues.decode_eq (h : x.Continues y) {offset : Nat} (hlt : offset < x.code.length)
    (ht : WalkItem.isTruncated ⟨offset, Instruction.decode x.code.toArray offset⟩ = false) :
    Instruction.decode y.code.toArray offset = Instruction.decode x.code.toArray offset := by
  obtain ⟨rest, hrest⟩ := h.exists_append
  rw [hrest]
  exact Instruction.decode_append_left _ rest (by simpa using hlt) ht

/-- A walk that is not cut off goes on. -/
theorem Continues.isPrefix_walkFrom (h : x.Continues y)
    (ht : ∀ item ∈ walkFrom x.code.toArray 0, item.isTruncated = false) :
    walkFrom x.code.toArray 0 <+: walkFrom y.code.toArray 0 := by
  obtain ⟨rest, hrest⟩ := h.exists_append
  rw [hrest, walkFrom_append _ rest ht]
  exact List.prefix_append _ _

/-! ## 3. Rows -/

/-- The constant of an item, if it has one, is in the pool. -/
def HasConstant (x : Content) (item : WalkItem) : Prop :=
  ∀ i, item.decoded = .ok i → ∀ index ∈ i.constantIndex?, index < x.constants.length

section Rows

variable (h : x.Continues y) {item : WalkItem} (hlt : item.offset < x.lines.length)
  (hconstant : x.HasConstant item)
include h hlt hconstant

/-- The trace line of an item depends on the byte before it, and on nothing behind it. -/
theorem Continues.shownRow_eq : y.shownRow item = x.shownRow item := by
  have hbefore : item.offset - 1 < x.lines.length := Nat.lt_of_le_of_lt (Nat.sub_le ..) hlt
  have hdecoded : y.shownDecoded item.decoded = x.shownDecoded item.decoded := by
    cases hd : item.decoded with
    | error e => rfl
    | ok i =>
      simp only [shownDecoded]
      cases hindex : i.constantIndex? with
      | none => rfl
      | some index =>
        simp only [shownConstant, h.getElem?_constants (hconstant i hd index hindex)]
  rw [shownRow, shownRow, shownLine, shownLine, h.getElem?_lines hlt, h.getElem?_lines hbefore,
    hdecoded]

theorem Continues.listedRow_eq : y.listedRow item = x.listedRow item := by
  rw [listedRow, listedRow, h.getElem?_lines hlt]
  cases hd : item.decoded with
  | error e => rfl
  | ok i =>
    cases hindex : i.constantIndex? with
    | none => simp only [hindex, Option.bind_none]
    | some index =>
      simp only [hindex, Option.bind_some,
        h.getElem?_constants (hconstant i hd index hindex)]

end Rows
end Content

/-! ## 4. Histories without a release -/

namespace Ledger

/-- An edit that is no release adds entries behind the others. -/
theorem exists_record_eq_append (l : Ledger) {edit : Edit} (h : edit ≠ .call .release) :
    ∃ new, l.record edit = l ++ new := by
  cases edit with
  | byte byte line => exact ⟨_, rfl⟩
  | clone => exact ⟨[], (List.append_nil l).symm⟩
  | call call =>
    cases call with
    | release => exact absurd rfl h
    | instruction op line => exact ⟨_, rfl⟩
    | constant value line => exact ⟨_, rfl⟩
    | assemble source => exact ⟨_, rfl⟩

/-- So does a history. -/
theorem exists_foldl_record_eq_append (l : Ledger) {edits : List Edit}
    (h : ∀ edit ∈ edits, edit ≠ .call .release) : ∃ new, edits.foldl record l = l ++ new := by
  induction edits generalizing l with
  | nil => exact ⟨[], (List.append_nil l).symm⟩
  | cons edit edits ih =>
    obtain ⟨new, hnew⟩ := l.exists_record_eq_append (h edit (List.mem_cons_self ..))
    obtain ⟨more, hmore⟩ := ih (l.record edit) fun e he => h e (List.mem_cons_of_mem _ he)
    refine ⟨new ++ more, ?_⟩
    rw [List.foldl_cons, hmore, hnew, List.append_assoc]

theorem continues_content_append (l new : Ledger) :
    (content l).Continues (content (l ++ new)) := by
  have hwritten : written l <+: written (l ++ new) := by
    rw [written, written, writtenFrom_append]
    exact List.prefix_append _ _
  refine ⟨hwritten.map _, hwritten.map _, ?_⟩
  show constants l <+: constants (l ++ new)
  rw [constants_append]
  exact List.prefix_append _ _

end Ledger

namespace Chunk

/-- **Without a release the content goes on.** -/
theorem continues_edited (edits : List Edit) {later : List Edit}
    (h : ∀ edit ∈ later, edit ≠ .call .release) :
    (empty.edited edits).content.Continues (empty.edited (edits ++ later)).content := by
  have hbefore := Ledger.holds_empty.edited edits
  have hafter := hbefore.edited later
  obtain ⟨new, hnew⟩ := Ledger.exists_foldl_record_eq_append (edits.foldl Ledger.record []) h
  rw [hnew] at hafter
  rw [edited_append, hbefore.content_eq, hafter.content_eq]
  exact Ledger.continues_content_append _ new

/-! ## 5. What the chunk answers later -/

/-- What a chunk `c` answered, the later chunk `d` still answers. -/
structure Keeps (c d : Chunk) : Prop where
  byteAt_eq : ∀ offset < c.size, d.byteAt offset = c.byteAt offset
  lineAt_eq : ∀ offset < c.size, d.lineAt offset = c.lineAt offset
  /-- A constant is the same value, bit for bit. -/
  constant_eq : ∀ index < c.constants.size, d.constant index = c.constant index
  decodeAt_of_ok : ∀ offset i, c.decodeAt offset = .ok i → d.decodeAt offset = .ok i
  decodeAt_of_unknownOpcode : ∀ offset o tag, c.decodeAt offset = .error (.unknownOpcode o tag) →
    d.decodeAt offset = .error (.unknownOpcode o tag)
  /-- If no operand is cut off and every constant is in the pool, the trace only goes on. -/
  exists_trace_append : (∀ item ∈ c.walk, item.isTruncated = false) →
    (∀ item ∈ c.walk, c.content.HasConstant item) →
    ∀ name, ∃ more, d.trace name = c.trace name ++ more
  /-- And so do the rows. -/
  isPrefix_rows : (∀ item ∈ c.walk, item.isTruncated = false) →
    (∀ item ∈ c.walk, c.content.HasConstant item) → c.rows <+: d.rows

/-- An item of the walk stands at a byte that has a line. -/
theorem offset_lt_of_mem_walk {c : Chunk} (hc : c.Coupled) {item : WalkItem}
    (hitem : item ∈ c.walk) : item.offset < c.content.lines.length := by
  rw [length_content_lines hc]
  exact (decoded_of_mem_walkFrom hitem).2.1

/-- An answer that is not about the end of the code is about a byte inside it. -/
theorem lt_size_of_decodeAt {c : Chunk} {offset : Nat}
    (hne : ∀ o n, c.decodeAt offset ≠ .error (.offsetOutOfBounds o n)) : offset < c.size := by
  by_contra hge
  exact hne _ _ (Instruction.decode_eq_offsetOutOfBounds_iff.mpr ⟨Nat.not_lt.mp hge, rfl, rfl⟩)

section Keeps

variable {c d : Chunk} (hc : c.Coupled) (hd : d.Coupled) (h : c.content.Continues d.content)
include h

theorem byteAt_eq_of_continues {offset : Nat} (hlt : offset < c.size) :
    d.byteAt offset = c.byteAt offset := by
  rw [size_eq_length] at hlt
  have hget : d.code.items[offset]? = c.code.items[offset]? := by
    rw [← Array.getElem?_toList, ← Array.getElem?_toList]
    exact h.getElem?_code hlt
  have hsome : c.code.items[offset]? = some (c.content.code[offset]) := by
    rw [← Array.getElem?_toList]
    exact List.getElem?_eq_getElem hlt
  rw [byteAt, byteAt, Buffer.get, Buffer.get, hget, hsome]

/-- Where the byte at an offset was decoded, it still is. -/
theorem decodeAt_eq_of_continues {offset : Nat} (hlt : offset < c.size)
    (ht : WalkItem.isTruncated ⟨offset, c.decodeAt offset⟩ = false) :
    d.decodeAt offset = c.decodeAt offset := by
  rw [size_eq_length] at hlt
  exact h.decode_eq hlt ht

include hc hd

theorem lineAt_eq_of_continues {offset : Nat} (hlt : offset < c.size) :
    d.lineAt offset = c.lineAt offset := by
  rw [← length_content_lines hc] at hlt
  rw [lineAt, lineAt, line?_eq_content hc, line?_eq_content hd, h.getElem?_lines hlt,
    List.getElem?_eq_getElem hlt]

section Walk

variable (ht : ∀ item ∈ c.walk, item.isTruncated = false)
  (hconstant : ∀ item ∈ c.walk, c.content.HasConstant item)
include ht hconstant

theorem rows_of_continues : c.rows <+: d.rows := by
  obtain ⟨later, hlater⟩ : c.walk <+: d.walk := h.isPrefix_walkFrom ht
  have hsame : c.walk.map d.content.listedRow = c.walk.map c.content.listedRow := by
    refine List.map_congr_left fun item hitem => ?_
    exact h.listedRow_eq (offset_lt_of_mem_walk hc hitem) (hconstant item hitem)
  rw [(readAlike_of_coupled hc "").rows_eq, (readAlike_of_coupled hd "").rows_eq, ← hlater,
    List.map_append, hsame]
  exact List.prefix_append _ _

theorem trace_of_continues (name : String) : ∃ more, d.trace name = c.trace name ++ more := by
  obtain ⟨later, hlater⟩ : c.walk <+: d.walk := h.isPrefix_walkFrom ht
  have hsame : (c.walk.flatMap fun item => d.content.shownRow item ++ ['\n']) =
      c.walk.flatMap fun item => c.content.shownRow item ++ ['\n'] := by
    rw [List.flatMap_def, List.flatMap_def]
    refine congrArg List.flatten (List.map_congr_left fun item hitem => ?_)
    rw [h.shownRow_eq (offset_lt_of_mem_walk hc hitem) (hconstant item hitem)]
  refine ⟨String.ofList (later.flatMap fun item => d.content.shownRow item ++ ['\n']), ?_⟩
  refine String.toList_inj.mp ?_
  rw [String.toList_append, String.toList_ofList, (readAlike_of_coupled hc name).trace_eq,
    (readAlike_of_coupled hd name).trace_eq, ← hlater, List.flatMap_append, hsame,
    ← List.append_assoc]

end Walk

/-- **A chunk whose content goes on keeps its answers.** -/
theorem keeps_of_continues : c.Keeps d := by
  refine ⟨fun _ => byteAt_eq_of_continues h, fun _ => lineAt_eq_of_continues hc hd h, ?_, ?_, ?_,
    trace_of_continues hc hd h, rows_of_continues hc hd h⟩
  · intro index hlt
    rw [constants_size_eq_length] at hlt
    rw [constant_eq, constant_eq, h.getElem?_constants hlt, List.getElem?_eq_getElem hlt]
  · intro offset i hi
    have hlt : offset < c.size := lt_size_of_decodeAt (by simp [hi])
    rw [decodeAt_eq_of_continues h hlt (by simp [WalkItem.isTruncated, hi]), hi]
  · intro offset o tag htag
    have hlt : offset < c.size := lt_size_of_decodeAt (by simp [htag])
    rw [decodeAt_eq_of_continues h hlt (by simp [WalkItem.isTruncated, htag]), htag]

end Keeps

/-- **Appends never disturb what is there.** -/
theorem edited_keeps (edits later : List Edit) (h : ∀ edit ∈ later, edit ≠ .call .release) :
    (empty.edited edits).Keeps (empty.edited (edits ++ later)) :=
  keeps_of_continues (coupled_edited coupled_empty edits) (coupled_edited coupled_empty _)
    (continues_edited edits h)

/-- A constant and a byte that is no tag, and behind them a tag whose operand is cut off. -/
theorem edited_keeps_of_unknown_tag :
    (empty.edited [.call (.constant ⟨0x3ff3333333333333⟩ 7), .byte 0xFF 7]).Keeps
        (empty.edited ([.call (.constant ⟨0x3ff3333333333333⟩ 7), .byte 0xFF 7] ++
          [.call (.instruction .ret 8), .byte 1 8])) ∧
      ∀ name, ∃ more, (empty.edited ([.call (.constant ⟨0x3ff3333333333333⟩ 7), .byte 0xFF 7] ++
          [.call (.instruction .ret 8), .byte 1 8])).trace name =
        (empty.edited [.call (.constant ⟨0x3ff3333333333333⟩ 7), .byte 0xFF 7]).trace name ++
          more := by
  have hkeeps := edited_keeps [.call (.constant ⟨0x3ff3333333333333⟩ 7), .byte 0xFF 7]
    [.call (.instruction .ret 8), .byte 1 8] (by decide)
  have hwalk : (empty.edited [.call (.constant ⟨0x3ff3333333333333⟩ 7), .byte 0xFF 7]).walk =
      [⟨0, .ok (.constant 0)⟩, ⟨2, .error (.unknownOpcode 2 0xFF)⟩] := by
    have hcode : (empty.edited [.call (.constant ⟨0x3ff3333333333333⟩ 7),
        .byte 0xFF 7]).code.items = #[1, 0, 0xFF] := by decide
    rw [walk, hcode, walkFrom_of_lt (by decide), walkFrom_of_lt (by decide),
      walkFrom_of_le (by decide)]
    rfl
  refine ⟨hkeeps, hkeeps.exists_trace_append ?_ ?_⟩
  · simp [hwalk, WalkItem.isTruncated]
  · rw [hwalk]
    intro item hitem i hi index hindex
    rcases List.mem_cons.mp hitem with rfl | hitem
    · obtain rfl := Except.ok.inj hi
      obtain rfl := Option.some.inj hindex
      decide
    · obtain rfl := List.mem_singleton.mp hitem
      cases hi

end Chunk
end BytecodeTrace
