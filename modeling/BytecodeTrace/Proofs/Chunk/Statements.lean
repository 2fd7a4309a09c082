/-
# A chunk is the list of its statements

Seen from outside, calls build a list of statements: the appends that succeeded since the last
release.  This file defines that list without any chunk (`Statements.performAll`) and proves that a
chunk shows exactly it, whatever calls were made:

* `advances_perform`: every call answers as the list does, and appends the same statements to both;
* `Represents`: the chunk has the content that the statements have, one after the other;
* `Represents.perform`: every call keeps the chunk representing the list;
* `shows_of_represents`: what a walk, the line table and the pool then say about each statement.
-/
import BytecodeTrace.Proofs.Chunk.Edit
import BytecodeTrace.Proofs.Chunk.Tiling
import Mathlib.Data.List.Induction

namespace BytecodeTrace

/-! ## 1. The statements that calls leave behind -/

/-- The appends that succeeded since the last release, the first one first. -/
abbrev Statements := List Listing.Placed

namespace Statements

/-- The constant of a statement. -/
def constant? (placed : Listing.Placed) : Option Value :=
  match placed.statement with
  | .ret => none
  | .constant value => some value

/-- The constants of the statements, in order. -/
def constants (p : Statements) : List Value := p.filterMap constant?

/-- Appends a statement; a constant is refused when every index is taken. -/
def append (p : Statements) (placed : Listing.Placed) : Except ChunkError Statements :=
  match placed.statement with
  | .ret => .ok (p ++ [placed])
  | .constant _ =>
    if (constants p).length < ConstantPool.limit then .ok (p ++ [placed])
    else .error (.poolFull (constants p).length)

/-- Appends the statements of lines up to the first one with a fault. -/
def assembleLines (p : Statements) (number : Nat) :
    List (List Char) → Except Listing.Error Unit × Statements
  | [] => (.ok (), p)
  | raw :: rest =>
    match Listing.parseLine number raw with
    | .error fault => (.error ⟨number, fault⟩, p)
    | .ok none => assembleLines p (number + 1) rest
    | .ok (some placed) =>
      match append p placed with
      | .error cause => (.error ⟨number, .refused cause⟩, p)
      | .ok p => assembleLines p (number + 1) rest

/-- What a call answers, and the statements behind it. -/
def perform (p : Statements) : Call → Reply × Statements
  | .instruction op line =>
    if op = .ret then (.instruction (.ok ()), p ++ [⟨line, .ret⟩])
    else (.instruction (.error (.operandRequired op)), p)
  | .constant value line =>
    match append p ⟨line, .constant value⟩ with
    | .error cause => (.constant (.error cause), p)
    | .ok q => (.constant (.ok (constants p).length), q)
  | .assemble source =>
    match assembleLines p 1 (Text.lines source.toList) with
    | (answer, q) => (.assemble answer, q)
  | .release => (.release, [])

/-- The replies to calls, and the statements behind them. -/
def performAll (p : Statements) : List Call → List Reply × Statements
  | [] => ([], p)
  | call :: calls =>
    match perform p call with
    | (reply, q) =>
      match performAll q calls with
      | (replies, r) => (reply :: replies, r)

/-! ## 2. Their instructions -/

/-- The instruction of a statement that comes behind others: a constant has as its index the number
of constants before it. -/
def instruction (before : Statements) (placed : Listing.Placed) : Instruction :=
  match placed.statement with
  | .ret => .ret
  | .constant _ => Instruction.load (constants before).length

/-- The instructions of the statements. -/
def instructions (p : Statements) : List Instruction :=
  p.mapIdx fun j placed => instruction (p.take j) placed

/-- Where the instruction of the statement `j` starts. -/
def offset (p : Statements) (j : Nat) : Nat :=
  (((instructions p).take j).map Instruction.width).sum

/-- The content of a chunk to which the statements were appended. -/
def content (p : Statements) : Content := p.foldl Content.add Content.empty

variable (p : Statements) (x : Listing.Placed)

@[simp] theorem length_instructions : (instructions p).length = p.length := by
  simp [instructions]

theorem getElem_instructions {j : Nat} (h : j < (instructions p).length) (hj : j < p.length) :
    (instructions p)[j] = instruction (p.take j) p[j] := List.getElem_mapIdx

/-- What every statement gives behind those before it; a further one gives it behind all. -/
theorem mapIdx_take_append {β : Type} (f : Statements → Listing.Placed → β) :
    (p ++ [x]).mapIdx (fun j placed => f ((p ++ [x]).take j) placed) =
      p.mapIdx (fun j placed => f (p.take j) placed) ++ [f p x] := by
  rw [List.mapIdx_concat, List.take_left]
  congr 1
  refine List.ext_getElem (by simp) ?_
  intro j hj _
  have hjp : j < p.length := by simpa using hj
  simp only [List.getElem_mapIdx, List.take_append_of_le_length (Nat.le_of_lt hjp)]

/-- A further statement has its instruction behind the others. -/
@[simp] theorem instructions_append :
    instructions (p ++ [x]) = instructions p ++ [instruction p x] :=
  mapIdx_take_append p x instruction

@[simp] theorem constants_append :
    constants (p ++ [x]) = constants p ++ (constant? x).toList := by
  simp only [constants, List.filterMap_append, List.append_cancel_left_eq]
  cases h : constant? x <;> simp [h]

@[simp] theorem content_append : content (p ++ [x]) = (content p).add x := by
  simp [content]

/-- An instruction ends where the next one starts. -/
theorem offset_succ {j : Nat} (hj : j < p.length) :
    offset p (j + 1) = offset p j + (instruction (p.take j) p[j]).width := by
  have hji : j < (instructions p).length := by rwa [length_instructions]
  rw [offset, List.take_succ_eq_append_getElem hji, List.map_append, List.sum_append,
    getElem_instructions p hji hj]
  simp [offset]

/-- No instruction is empty. -/
theorem offset_lt_succ {j : Nat} (hj : j < p.length) : offset p j < offset p (j + 1) := by
  rw [offset_succ p hj]
  exact Nat.lt_add_of_pos_right (Instruction.width_pos _)

theorem offset_append {j : Nat} (h : j ≤ p.length) : offset (p ++ [x]) j = offset p j := by
  simp [offset, List.take_append_of_le_length, h]

theorem offset_length_append :
    offset (p ++ [x]) (p.length + 1) = offset p p.length + (instruction p x).width := by
  simp [offset, List.take_of_length_le]

/-- What appending a statement writes, in one form for both kinds. -/
theorem add_eq (y : Content) (h : y.constants = constants p) :
    y.add x =
      ⟨y.code ++ (instruction p x).encode,
        y.lines ++ List.replicate (instruction p x).width x.line,
        y.constants ++ (constant? x).toList⟩ := by
  obtain ⟨line, statement⟩ := x
  cases statement <;> simp [Content.add, Content.write, instruction, constant?, h]

/-! ## 3. What their content is -/

theorem constants_content : (content p).constants = constants p := by
  induction p using List.reverseRecOn with
  | nil => rfl
  | append_singleton p x ih =>
    rw [content_append, add_eq p x _ ih, constants_append, ih]

/-- The code and the lines end where the last instruction ends. -/
theorem length_content :
    (content p).code.length = offset p p.length ∧ (content p).lines.length = offset p p.length := by
  induction p using List.reverseRecOn with
  | nil => exact ⟨rfl, rfl⟩
  | append_singleton p x ih =>
    have hlength : (p ++ [x]).length = p.length + 1 := List.length_append
    rw [content_append, add_eq p x _ (constants_content p), hlength, offset_length_append]
    simp [ih.1, ih.2]

/-- The bytes of a statement have its line. -/
theorem getElem?_lines_content {j o : Nat} (hj : j < p.length) (hle : offset p j ≤ o)
    (hlt : o < offset p (j + 1)) : (content p).lines[o]? = some p[j].line := by
  induction p using List.reverseRecOn with
  | nil => simp at hj
  | append_singleton p x ih =>
    simp only [List.length_append, List.length_singleton] at hj
    rw [content_append, add_eq p x _ (constants_content p)]
    rcases Nat.lt_or_ge j p.length with hjp | hjp
    · rw [offset_append p x (by omega)] at hle
      rw [offset_append p x (by omega)] at hlt
      have h := ih hjp hle hlt
      have ho := (List.getElem?_eq_some_iff.mp h).1
      rw [List.getElem?_append_left ho, h, List.getElem_append_left hjp]
    · have : j = p.length := by omega
      subst this
      rw [offset_append p x (Nat.le_refl _)] at hle
      rw [offset_length_append] at hlt
      have hlength := (length_content p).2
      rw [← hlength] at hle hlt
      rw [List.getElem?_append_right hle, List.getElem?_replicate, if_pos (by omega)]
      simp

/-- An index is below the number of constants. -/
theorem fits_instruction (h : (constants (p ++ [x])).length ≤ ConstantPool.limit) :
    (instruction p x).Fits := by
  obtain ⟨line, statement⟩ := x
  cases statement with
  | ret => trivial
  | constant value =>
    refine Instruction.fits_load (Nat.lt_of_succ_le ?_)
    simpa [constant?] using h

/-- The walk of the instruction of a statement is one item. -/
theorem walkFrom_encode {i : Instruction} (h : i.Fits) :
    walkFrom i.encode.toArray 0 = [⟨0, .ok i⟩] := by
  have hsize : i.encode.toArray.size = i.width := by simp
  rw [walkFrom_of_lt (by rw [hsize]; exact i.width_pos), Instruction.decode_encode h,
    walkFrom_of_le (by rw [hsize]; simp [WalkItem.span])]

/-- **The walk through the code of statements shows their instructions.** -/
theorem walkFrom_content (h : (constants p).length ≤ ConstantPool.limit) :
    walkFrom (content p).code.toArray 0 =
      (instructions p).mapIdx fun j i => ⟨offset p j, .ok i⟩ := by
  induction p using List.reverseRecOn with
  | nil => exact walkFrom_of_le (Nat.le_refl _)
  | append_singleton p x ih =>
    have hp : (constants p).length ≤ ConstantPool.limit := by
      simp only [constants_append, List.length_append] at h
      omega
    have hwalk := ih hp
    have htail : ∀ item ∈ walkFrom (content p).code.toArray 0, item.isTruncated = false := by
      intro item hitem
      rw [hwalk] at hitem
      obtain ⟨j, hj, rfl⟩ := List.mem_mapIdx.mp hitem
      rfl
    have hcode : (content (p ++ [x])).code.toArray =
        (content p).code.toArray ++ (instruction p x).encode.toArray := by
      rw [content_append, add_eq p x _ (constants_content p)]
      simp
    rw [hcode, walkFrom_append _ _ htail, walkFrom_encode (fits_instruction p x h), hwalk,
      instructions_append, List.mapIdx_concat, length_instructions,
      offset_append p x (Nat.le_refl _)]
    congr 1
    · refine List.ext_getElem (by simp) ?_
      intro j hj _
      simp only [List.length_mapIdx, length_instructions] at hj
      simp [offset_append p x (Nat.le_of_lt hj)]
    · simp [WalkItem.shift, (length_content p).1, Except.mapError]

/-! ## 4. Calls append statements -/

section Advances

variable {c : Chunk} {p : Statements}

/-- From the chunk `c` to `d` there came the same statements behind the others as from the list `p`
to `q`.  What the chunk held before does not matter, so single bytes may be among it. -/
structure Advances (c : Chunk) (p : Statements) (d : Chunk) (q : Statements) : Prop where
  exists_new : ∃ new, q = p ++ new ∧ d.content = new.foldl Content.add c.content

theorem Advances.refl : Advances c p c p := ⟨[], (List.append_nil p).symm, rfl⟩

theorem Advances.trans {d e : Chunk} {q r : Statements} (h : Advances c p d q)
    (h' : Advances d q e r) : Advances c p e r := by
  obtain ⟨new, rfl, hd⟩ := h
  obtain ⟨new', rfl, he⟩ := h'
  refine ⟨new ++ new', List.append_assoc .., ?_⟩
  rw [he, hd, List.foldl_append]

/-- The constants of statements come behind the others. -/
theorem constants_foldl_add (x : Content) (new : Statements) :
    (new.foldl Content.add x).constants = x.constants ++ constants new := by
  induction new generalizing x with
  | nil => exact (List.append_nil _).symm
  | cons placed new ih =>
    obtain ⟨line, statement⟩ := placed
    rw [List.foldl_cons, ih]
    cases statement with
    | ret => rfl
    | constant value => exact List.append_assoc ..

/-- A chunk and a list with the same constants still have the same after the same statements. -/
theorem Advances.constants_eq {d : Chunk} {q : Statements} (h : Advances c p d q)
    (hp : c.content.constants = constants p) : d.content.constants = constants q := by
  obtain ⟨new, rfl, hd⟩ := h
  rw [hd, constants_foldl_add, hp]
  exact List.filterMap_append.symm

/-- A statement is appended in both places, or refused in both for the same reason. -/
theorem appendStatement_cases (hp : c.content.constants = constants p)
    (placed : Listing.Placed) :
    (append p placed = .ok (p ++ [placed]) ∧ (c.appendStatement placed).answer = .ok () ∧
      Advances c p (c.appendStatement placed).state (p ++ [placed])) ∨
    (append p placed = .error (.poolFull (constants p).length) ∧
      c.appendStatement placed = .pure (.error (.poolFull (constants p).length)) c) := by
  by_cases hroom : c.content.HasRoom placed
  · obtain ⟨hanswer, hcontent⟩ := Chunk.appendStatement_of_hasRoom hroom
    refine .inl ⟨?_, hanswer, [placed], rfl, hcontent⟩
    obtain ⟨line, statement⟩ := placed
    cases statement with
    | ret => rfl
    | constant value =>
      have hlt : (constants p).length < ConstantPool.limit := by
        rw [← hp]
        exact hroom.resolve_left nofun
      simp only [append, hlt, if_true]
  · have hrefused := Chunk.appendStatement_of_not_hasRoom hroom
    rw [Chunk.constants_size_eq_length, hp] at hrefused
    refine .inr ⟨?_, hrefused⟩
    obtain ⟨line, statement⟩ := placed
    simp only [Content.HasRoom, not_or, hp] at hroom
    cases statement with
    | ret => exact absurd rfl hroom.1
    | constant value => simp only [append, hroom.2, if_false]

/-- The lines of a listing have the same effect in both places, up to the first fault. -/
theorem advances_assembleLines (hp : c.content.constants = constants p) (number : Nat)
    (lines : List (List Char)) :
    (c.assembleLines number lines).answer = (assembleLines p number lines).1 ∧
      Advances c p (c.assembleLines number lines).state (assembleLines p number lines).2 := by
  induction lines generalizing c p number with
  | nil => exact ⟨rfl, .refl⟩
  | cons raw rest ih =>
    cases hparse : Listing.parseLine number raw with
    | error fault =>
      simp only [Chunk.assembleLines, Statements.assembleLines, hparse]
      exact ⟨rfl, .refl⟩
    | ok statement =>
      cases statement with
      | none =>
        simp only [Chunk.assembleLines, Statements.assembleLines, hparse]
        exact ih hp (number + 1)
      | some placed =>
        simp only [Chunk.assembleLines, Statements.assembleLines, hparse, Outcome.answer_andThen,
          Outcome.state_andThen]
        rcases appendStatement_cases hp placed with ⟨hok, hanswer, hnext⟩ | ⟨herror, hrefused⟩
        · rw [hok, hanswer]
          obtain ⟨hrest, hadvances⟩ := ih (hnext.constants_eq hp) (number + 1)
          exact ⟨hrest, hnext.trans hadvances⟩
        · rw [herror, hrefused]
          exact ⟨rfl, .refl⟩

/-- **A call answers as the statements do**, and unless it is a release the chunk goes on with the
statements that the list goes on with. -/
theorem advances_perform (hp : c.content.constants = constants p) (call : Call) :
    (c.perform call).answer = (perform p call).1 ∧
      (call ≠ .release → Advances c p (c.perform call).state (perform p call).2) := by
  have hsize : c.constants.size = (constants p).length := by
    rw [Chunk.constants_size_eq_length, hp]
  cases call with
  | instruction op line =>
    by_cases hop : op = .ret
    · subst hop
      rcases appendStatement_cases hp ⟨line, .ret⟩ with ⟨_, _, hnext⟩ | ⟨herror, _⟩
      · exact ⟨rfl, fun _ => hnext⟩
      · cases herror
    · simp only [Chunk.perform, Chunk.appendInstruction_of_ne hop, Statements.perform, hop,
        if_false]
      exact ⟨rfl, fun _ => .refl⟩
  | constant value line =>
    have hstate : (c.perform (.constant value line)).state =
        (c.appendStatement ⟨line, .constant value⟩).state := rfl
    have hanswer : (c.perform (.constant value line)).answer =
        .constant (c.appendConstant value line).answer := rfl
    rw [hstate, hanswer]
    rcases appendStatement_cases hp ⟨line, .constant value⟩ with
      ⟨hok, _, hnext⟩ | ⟨herror, hrefused⟩
    · have hlt : c.constants.size < ConstantPool.limit := by
        rw [hsize]
        by_contra hge
        simp only [append, hge, if_false] at hok
        cases hok
      obtain ⟨hindex, -⟩ := Chunk.appendConstant_of_lt_limit hlt value line
      rw [hindex, hsize]
      simp only [Statements.perform, hok]
      exact ⟨trivial, fun _ => hnext⟩
    · have hge : ConstantPool.limit ≤ c.constants.size := by
        rw [hsize]
        by_contra hlt
        simp only [append, Nat.not_le.mp hlt, if_true] at herror
        cases herror
      rw [Chunk.appendConstant_of_limit_le hge, hrefused, hsize]
      simp only [Statements.perform, herror]
      exact ⟨rfl, fun _ => .refl⟩
  | assemble source =>
    obtain ⟨hlines, hadvances⟩ := advances_assembleLines hp 1 (Text.lines source.toList)
    have hstate : (c.perform (.assemble source)).state =
        (c.assembleLines 1 (Text.lines source.toList)).state := Chunk.state_assembleInto c source
    have hanswer : (c.perform (.assemble source)).answer =
        .assemble (c.assembleLines 1 (Text.lines source.toList)).answer :=
      congrArg Reply.assemble (Chunk.answer_assembleInto c source)
    rw [hstate, hanswer, hlines]
    exact ⟨rfl, fun _ => hadvances⟩
  | release => exact ⟨rfl, fun h => absurd rfl h⟩

end Advances

/-! ## 5. Chunks that represent statements -/

/-- The chunk holds what the statements write, and its parts fit together. -/
structure Represents (c : Chunk) (p : Statements) : Prop where
  coupled : c.Coupled
  content_eq : c.content = content p

theorem represents_empty : Represents Chunk.empty [] := ⟨Chunk.coupled_empty, rfl⟩

section Simulation

variable {c : Chunk} {p : Statements}

theorem Represents.constants_eq (h : Represents c p) : c.content.constants = constants p := by
  rw [h.content_eq, constants_content]

theorem Represents.constants_size (h : Represents c p) :
    c.constants.size = (constants p).length := by
  rw [Chunk.constants_size_eq_length, h.constants_eq]

theorem Represents.size_eq (h : Represents c p) : c.size = offset p p.length := by
  rw [Chunk.size_eq_length, h.content_eq, (length_content p).1]

/-- A chunk goes on to represent the statements that its list goes on with. -/
theorem Represents.advances {d : Chunk} {q : Statements} (h : Represents c p)
    (hd : d.Coupled) (hadvances : Advances c p d q) : Represents d q := by
  obtain ⟨new, rfl, hcontent⟩ := hadvances
  refine ⟨hd, ?_⟩
  rw [hcontent, h.content_eq]
  exact List.foldl_append.symm

/-- The lines of a listing have the same effect in both places, up to the first fault. -/
theorem Represents.assembleLines (h : Represents c p) (number : Nat)
    (lines : List (List Char)) :
    (c.assembleLines number lines).answer = (assembleLines p number lines).1 ∧
      Represents (c.assembleLines number lines).state (assembleLines p number lines).2 := by
  obtain ⟨hanswer, hadvances⟩ := advances_assembleLines h.constants_eq number lines
  have hcoupled := Chunk.invariant_coupled.assembleLines h.coupled number lines
  exact ⟨hanswer, h.advances hcoupled hadvances⟩

/-- **A call answers as the statements do, and the chunk goes on to represent them.** -/
theorem Represents.perform (h : Represents c p) (call : Call) :
    (c.perform call).answer = (perform p call).1 ∧
      Represents (c.perform call).state (perform p call).2 := by
  obtain ⟨hanswer, hadvances⟩ := advances_perform h.constants_eq call
  refine ⟨hanswer, ?_⟩
  by_cases hrelease : call = .release
  · subst hrelease
    exact represents_empty
  · exact h.advances (Chunk.invariant_coupled.perform h.coupled call) (hadvances hrelease)

/-- The same over a run of calls. -/
theorem Represents.performAll (h : Represents c p) (calls : List Call) :
    (c.performAll calls).answer = (performAll p calls).1 ∧
      Represents (c.performAll calls).state (performAll p calls).2 := by
  induction calls generalizing c p with
  | nil => exact ⟨rfl, h⟩
  | cons call calls ih =>
    obtain ⟨hreply, hnext⟩ := h.perform call
    obtain ⟨hreplies, hend⟩ := ih hnext
    refine ⟨?_, hend⟩
    show (c.perform call).answer :: ((c.perform call).state.performAll calls).answer = _
    rw [hreply, hreplies]
    rfl

end Simulation

/-! ## 6. What such a chunk shows -/

/-- The chunk shows the statements: one item, one line and one constant for each. -/
structure Shows (c : Chunk) (p : Statements) : Prop where
  /-- The walk has the instruction of every statement, where the instructions before it end. -/
  walk_eq : c.walk = (instructions p).mapIdx fun j i => ⟨offset p j, .ok i⟩
  /-- The code ends with the last instruction. -/
  size_eq : c.size = ((instructions p).map Instruction.width).sum
  /-- Every byte of an instruction has the line of its statement. -/
  lineAt_eq : ∀ j (h : j < p.length) o, offset p j ≤ o → o < offset p (j + 1) →
    c.lineAt o = .ok p[j].line
  /-- The pool holds the constants of the statements, bit for bit. -/
  constants_eq : c.constants.toList = constants p
  constants_le : (constants p).length ≤ 2 ^ 24
  /-- The index that an instruction loads is that of the constant of its statement. -/
  constant_eq : ∀ j (h : j < p.length) value, p[j].statement = .constant value →
    ∃ index, (instruction (p.take j) p[j]).constantIndex? = some index ∧
      c.constant index = .ok value

/-- What is taken from the items of the walk is taken from the statements. -/
theorem Shows.map_walk {c : Chunk} {p : Statements} (h : Shows c p) {β : Type}
    (f : WalkItem → β) :
    c.walk.map f =
      p.mapIdx fun j placed => f ⟨offset p j, .ok (instruction (p.take j) placed)⟩ := by
  rw [h.walk_eq]
  refine List.ext_getElem (by simp) ?_
  intro j hj _
  simp only [List.getElem_map, List.getElem_mapIdx, instructions]

/-- The constant of a statement stands behind those of the statements before it. -/
theorem getElem?_constants {p : Statements} {j : Nat} (hj : j < p.length) {value : Value}
    (hvalue : p[j].statement = .constant value) :
    (constants p)[(constants (p.take j)).length]? = some value := by
  have hsplit : p = p.take j ++ p[j] :: p.drop (j + 1) := by
    rw [← List.drop_eq_getElem_cons hj, List.take_append_drop]
  have hconstants : constants p =
      constants (p.take j) ++ value :: constants (p.drop (j + 1)) := by
    conv_lhs => rw [hsplit]
    simp only [constants, List.filterMap_append, List.filterMap_cons, constant?, hvalue]
  rw [hconstants]
  simp

/-- **A chunk that represents statements shows them.** -/
theorem shows_of_represents {c : Chunk} {p : Statements} (h : Represents c p) : Shows c p := by
  have hle : (constants p).length ≤ ConstantPool.limit := by
    rw [← h.constants_size]
    exact h.coupled.constants_le
  have hcode : c.code.items = (content p).code.toArray := by
    rw [← h.content_eq]
    simp [Chunk.content]
  refine ⟨?_, ?_, ?_, ?_, hle, ?_⟩
  · rw [Chunk.walk, hcode, walkFrom_content p hle]
  · rw [h.size_eq, offset, List.take_of_length_le (by simp)]
  · intro j hj o hlo hhi
    simp only [Chunk.lineAt, Chunk.line?_eq_content h.coupled, h.content_eq,
      getElem?_lines_content p hj hlo hhi]
  · exact h.constants_eq
  · intro j hj value hvalue
    refine ⟨(constants (p.take j)).length, ?_, ?_⟩
    · simp [instruction, hvalue]
    · rw [Chunk.constant_eq, h.constants_eq, getElem?_constants hj hvalue]

/-- **Runs of calls build lists of statements.**  From the empty chunk on, every call is answered as
the list of statements answers it, and the chunk that is left shows exactly the statements whose
appends succeeded since the last release. -/
theorem performAll_shows (calls : List Call) :
    (Chunk.empty.performAll calls).answer = (performAll [] calls).1 ∧
      Shows (Chunk.empty.performAll calls).state (performAll [] calls).2 := by
  obtain ⟨hreplies, hend⟩ := represents_empty.performAll calls
  exact ⟨hreplies, shows_of_represents hend⟩

end Statements
end BytecodeTrace
