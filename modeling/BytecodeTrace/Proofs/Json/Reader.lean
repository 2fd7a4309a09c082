/-
# A reader for JSON texts

What a JSON text says, read by a machine that goes through it once, character by character, with a
stack of the arrays and objects that are still open.  The machine knows nothing of how this library
writes JSON; it keeps every number as it is written.

* `JsonTree`: what a text says;
* `JsonReader.step`: one character;
* `JsonTree.read?`: a whole text, refused unless it is one JSON value with blanks around it;
* `read?_indented`: what `Json.indented` writes is such a text, and says what was to be written.
-/
import BytecodeTrace.Json.Basic
import BytecodeTrace.Proofs.Value.ReadBack
import Mathlib.Tactic.IntervalCases

namespace BytecodeTrace

/-! ## 1. Trees and words -/

/-- What a JSON text says.  A number is its text. -/
inductive JsonTree where
  | null
  | bool (b : Bool)
  | number (text : List Char)
  | text (s : List Char)
  | array (items : List JsonTree)
  | object (members : List (List Char × JsonTree))

/-- The blanks of JSON. -/
def isJsonBlank (c : Char) : Bool := c == ' ' || c == '\n' || c == '\r' || c == '\t'

/-- The characters of numbers and of the three names. -/
def isJsonWordChar (c : Char) : Bool := isNumberChar c || c.isAlpha

/-- The number grammar behind the sign: digits without a zero in front, then perhaps a point and
digits, then perhaps an exponent. -/
def isUnsignedJsonNumber (s : List Char) : Bool :=
  let (whole, s) := Decimal.spanDigits s
  (whole == ['0'] || !whole.isEmpty && whole.head? != some '0') &&
    match s with
    | '.' :: s =>
      let (fraction, s) := Decimal.spanDigits s
      !fraction.isEmpty && (Decimal.readExponent? s).isSome
    | s => (Decimal.readExponent? s).isSome

/-- The number grammar. -/
def isJsonNumber : List Char → Bool
  | '-' :: s => isUnsignedJsonNumber s
  | s => isUnsignedJsonNumber s

/-- What a word says. -/
def jsonWord? (word : List Char) : Option JsonTree :=
  if word = ['n', 'u', 'l', 'l'] then some .null
  else if word = ['t', 'r', 'u', 'e'] then some (.bool true)
  else if word = ['f', 'a', 'l', 's', 'e'] then some (.bool false)
  else if isJsonNumber word then some (.number word)
  else none

/-- The character that a backslash and a character stand for. -/
def jsonEscaped? : Char → Option Char
  | '"' => some '"'
  | '\\' => some '\\'
  | '/' => some '/'
  | 'b' => some '\x08'
  | 'f' => some '\x0c'
  | 'n' => some '\n'
  | 'r' => some '\r'
  | 't' => some '\t'
  | _ => none

/-- The value of a hexadecimal digit. -/
def hexDigit? (c : Char) : Option Nat :=
  if '0' ≤ c ∧ c ≤ '9' then some (c.toNat - '0'.toNat)
  else if 'a' ≤ c ∧ c ≤ 'f' then some (c.toNat - 'a'.toNat + 10)
  else if 'A' ≤ c ∧ c ≤ 'F' then some (c.toNat - 'A'.toNat + 10)
  else none

/-! ## 2. The machine -/

/-- An array or an object that is still open, with what it has so far; in an object, the name of the
member that is being read. -/
inductive JsonFrame where
  | items (done : List JsonTree)
  | members (done : List (List Char × JsonTree)) (name : List Char)

/-- Where a string stands. -/
inductive JsonPlace where
  | value (stack : List JsonFrame)
  | key (stack : List JsonFrame) (done : List (List Char × JsonTree))

/-- How far an escape sequence has been read. -/
inductive JsonEscape where
  | none
  | backslash
  | unicode (code digits : Nat)

/-- A state of the reader. -/
inductive JsonReader where
  /-- A value has to come; right behind an opening bracket, a closing one may come instead. -/
  | value (stack : List JsonFrame) (opened : Bool)
  /-- Inside a number or a name. -/
  | word (stack : List JsonFrame) (chars : List Char)
  /-- Inside a string. -/
  | quoted (place : JsonPlace) (chars : List Char) (escape : JsonEscape)
  /-- A key has to come; right behind an opening brace, a closing one may come instead. -/
  | key (stack : List JsonFrame) (done : List (List Char × JsonTree)) (opened : Bool)
  /-- A colon has to come. -/
  | colon (stack : List JsonFrame) (done : List (List Char × JsonTree)) (name : List Char)
  /-- A value is complete. -/
  | after (stack : List JsonFrame) (tree : JsonTree)

namespace JsonReader

/-- The end of a string. -/
def closeQuote (chars : List Char) : JsonPlace → JsonReader
  | .value stack => .after stack (.text chars)
  | .key stack done => .colon stack done chars

/-- A character behind a complete value. -/
def stepAfter (stack : List JsonFrame) (tree : JsonTree) (c : Char) : Option JsonReader :=
  if isJsonBlank c then some (.after stack tree)
  else
    match c, stack with
    | ',', .items done :: stack => some (.value (.items (done ++ [tree]) :: stack) false)
    | ']', .items done :: stack => some (.after stack (.array (done ++ [tree])))
    | ',', .members done name :: stack => some (.key stack (done ++ [(name, tree)]) false)
    | '\x7d', .members done name :: stack => some (.after stack (.object (done ++ [(name, tree)])))
    | _, _ => none

/-- A character where a value has to come. -/
def stepValue (stack : List JsonFrame) (opened : Bool) (c : Char) : Option JsonReader :=
  if isJsonBlank c then some (.value stack opened)
  else if c = '[' then some (.value (.items [] :: stack) true)
  else if c = '\x7b' then some (.key stack [] true)
  else if c = '"' then some (.quoted (.value stack) [] .none)
  else if isJsonWordChar c then some (.word stack [c])
  else
    match c, opened, stack with
    | ']', true, .items [] :: stack => some (.after stack (.array []))
    | _, _, _ => none

/-- A character inside a string. -/
def stepQuoted (place : JsonPlace) (chars : List Char) (c : Char) : JsonEscape → Option JsonReader
  | .none =>
    if c = '"' then some (closeQuote chars place)
    else if c = '\\' then some (.quoted place chars .backslash)
    else if c.toNat < 32 then none
    else some (.quoted place (chars ++ [c]) .none)
  | .backslash =>
    if c = 'u' then some (.quoted place chars (.unicode 0 0))
    else (jsonEscaped? c).map fun x => .quoted place (chars ++ [x]) .none
  | .unicode code digits =>
    match hexDigit? c with
    | none => none
    | some d =>
      let code := 16 * code + d
      if digits < 3 then some (.quoted place chars (.unicode code (digits + 1)))
      else if code.isValidChar then some (.quoted place (chars ++ [Char.ofNat code]) .none)
      else none

/-- One character. -/
def step (s : JsonReader) (c : Char) : Option JsonReader :=
  match s with
  | .value stack opened => stepValue stack opened c
  | .word stack chars =>
    if isJsonWordChar c then some (.word stack (chars ++ [c]))
    else (jsonWord? chars).bind fun tree => stepAfter stack tree c
  | .quoted place chars escape => stepQuoted place chars c escape
  | .key stack done opened =>
    if isJsonBlank c then some s
    else if c = '"' then some (.quoted (.key stack done) [] .none)
    else if c = '\x7d' ∧ opened then some (.after stack (.object []))
    else none
  | .colon stack done name =>
    if isJsonBlank c then some s
    else if c = ':' then some (.value (.members done name :: stack) false)
    else none
  | .after stack tree => stepAfter stack tree c

/-- A text. -/
def run (s : JsonReader) (text : List Char) : Option JsonReader := text.foldlM step s

/-- What has been read at the end of a text. -/
def result? : JsonReader → Option JsonTree
  | .word [] chars => jsonWord? chars
  | .after [] tree => some tree
  | _ => none

end JsonReader

/-- What a JSON text says, if it is one. -/
def JsonTree.read? (text : List Char) : Option JsonTree :=
  ((JsonReader.value [] false).run text).bind JsonReader.result?

/-! ## 3. What is written -/

mutual

/-- What the text of a value says.  Values that are not finite are written as `null`. -/
def Json.tree : Json → JsonTree
  | .null => .null
  | .natural n => .number (digitsOf n)
  | .number v => if v.isFinite then .number v.jsonChars else .null
  | .text s => .text s.toList
  | .array xs => .array (Json.itemTrees xs)
  | .object ms => .object (Json.memberTrees ms)

/-- What the texts of items say. -/
def Json.itemTrees : List Json → List JsonTree
  | [] => []
  | x :: xs => x.tree :: Json.itemTrees xs

/-- What the texts of members say. -/
def Json.memberTrees : List (String × Json) → List (List Char × JsonTree)
  | [] => []
  | (k, x) :: ms => (k.toList, x.tree) :: Json.memberTrees ms

end

theorem Json.itemTrees_eq_map (xs : List Json) : Json.itemTrees xs = xs.map Json.tree := by
  induction xs with
  | nil => rfl
  | cons x xs ih => rw [Json.itemTrees, ih, List.map_cons]

/-! ## 4. Words -/

section Words

theorem isUnsignedJsonNumber_joinPoint {whole fraction tail : List Char} (hwhole : IsWhole whole)
    (hfraction : ∀ c ∈ fraction, c.isDigit = true)
    (htail : ∀ c ∈ tail.head?, c.isDigit = false ∧ c ≠ '.')
    (hx : (Decimal.readExponent? tail).isSome = true) :
    isUnsignedJsonNumber (joinPoint whole fraction ++ tail) = true := by
  have hdigit : ∀ c ∈ tail.head?, c.isDigit = false := by
    intro c hc
    exact (htail c hc).1
  have hstart : (whole == ['0'] || !whole.isEmpty && whole.head? != some '0') = true := by
    have hempty := List.isEmpty_eq_false_iff.mpr hwhole.ne_nil
    rcases hwhole.head_ne with rfl | hhead
    · rfl
    · simp [hempty, hhead]
  cases hf : fraction with
  | nil =>
    have hjoin : joinPoint whole [] ++ tail = whole ++ tail := rfl
    rw [hjoin, isUnsignedJsonNumber, Decimal.spanDigits_append hwhole.isDigit hdigit]
    simp only [hstart, Bool.true_and]
    split
    · rename_i s
      exact absurd rfl (htail '.' rfl).2
    · exact hx
  | cons c cs =>
    rw [← hf]
    have hempty : fraction.isEmpty = false := by rw [hf]; rfl
    have hjoin : joinPoint whole fraction ++ tail = whole ++ '.' :: (fraction ++ tail) := by
      simp [joinPoint, hf]
    rw [hjoin, isUnsignedJsonNumber, Decimal.spanDigits_append hwhole.isDigit (by simp)]
    simp [hstart, Decimal.spanDigits_append hfraction hdigit, hempty, hx]

/-- A number, with or without a minus, is none of the three names. -/
theorem jsonWord?_joinPoint {whole fraction tail : List Char} (hwhole : IsWhole whole)
    (hfraction : ∀ c ∈ fraction, c.isDigit = true)
    (htail : ∀ c ∈ tail.head?, c.isDigit = false ∧ c ≠ '.')
    (hx : (Decimal.readExponent? tail).isSome = true) (negative : Bool) {text : List Char}
    (htext : text = joinPoint whole fraction ++ tail) :
    jsonWord? (if negative then '-' :: text else text) =
      some (.number (if negative then '-' :: text else text)) := by
  have hunsigned := isUnsignedJsonNumber_joinPoint hwhole hfraction htail hx
  obtain ⟨c, s, hcons, hc⟩ := hwhole.exists_joinPoint_eq_cons fraction tail
  rw [hcons] at htext hunsigned
  have hne : ∀ d : Char, d.isDigit = false → c ≠ d := by
    intro d hd heq
    rw [← heq, hc] at hd
    cases hd
  have hnumber : isJsonNumber (if negative then '-' :: text else text) = true := by
    rw [htext]
    cases negative with
    | true => exact hunsigned
    | false =>
      have hminus := hne '-' (by decide)
      simp only [Bool.false_eq_true, if_false]
      unfold isJsonNumber
      split
      · rename_i heq
        exact absurd (List.cons.inj heq).1 hminus
      · exact hunsigned
  have hname : ∀ d t, d.isDigit = false → d ≠ '-' →
      (if negative then '-' :: text else text) ≠ d :: t := by
    intro d t hd hminus heq
    rw [htext] at heq
    cases negative with
    | true => exact hminus (List.cons.inj heq).1.symm
    | false => exact hne d hd (List.cons.inj heq).1
  rw [jsonWord?, if_neg (hname _ _ (by decide) (by decide)),
    if_neg (hname _ _ (by decide) (by decide)), if_neg (hname _ _ (by decide) (by decide)),
    if_pos hnumber]

theorem jsonWord?_digitsOf (n : Nat) :
    jsonWord? (digitsOf n) = some (.number (digitsOf n)) :=
  @jsonWord?_joinPoint (digitsOf n) [] [] (isWhole_digitsOf n) (by simp) (by simp) rfl false _
    (List.append_nil _).symm

theorem jsonWord?_jsonChars {v : Value} (h : v.isFinite = true) :
    jsonWord? v.jsonChars = some (.number v.jsonChars) := by
  obtain ⟨d, tail, x, ⟨whole, fraction, htext, hwhole, hfraction, -⟩, -, htail⟩ :=
    Value.exists_isNotation h
  rw [Value.jsonChars_eq h]
  refine jsonWord?_joinPoint hwhole hfraction ?_ ?_ v.isNegative htext
  · rcases htail with ⟨rfl, -⟩ | ⟨rfl, -⟩
    · simp
    · simp [ExponentStyle.text]
  · rcases htail with ⟨rfl, -⟩ | ⟨rfl, hx⟩
    · rfl
    · rw [Decimal.readExponent?_text _ hx]
      rfl

end Words

/-! ## 5. Reading what is written -/

namespace JsonReader

variable {stack : List JsonFrame} {tree : JsonTree}

theorem run_append (s : JsonReader) (a b : List Char) :
    s.run (a ++ b) = (s.run a).bind fun s => s.run b := List.foldlM_append

theorem run_cons (s : JsonReader) (c : Char) (text : List Char) :
    s.run (c :: text) = (s.step c).bind fun s => s.run text := List.foldlM_cons

/-- The reader has read a value as far as it goes; a word may still be open. -/
inductive Completes (stack : List JsonFrame) (tree : JsonTree) : JsonReader → Prop where
  | after : Completes stack tree (.after stack tree)
  | word (chars : List Char) (h : jsonWord? chars = some tree) :
    Completes stack tree (.word stack chars)

/-- A character that cannot go on with a word is taken as one behind the value. -/
theorem Completes.step_eq {s : JsonReader} (h : Completes stack tree s) {c : Char}
    (hc : isJsonWordChar c = false) : s.step c = stepAfter stack tree c := by
  cases h with
  | after => rfl
  | word chars h => simp [step, hc, h]

theorem Completes.result?_eq {s : JsonReader} (h : Completes [] tree s) :
    s.result? = some tree := by
  cases h with
  | after => rfl
  | word chars h => exact h

/-- Blanks are passed over where they change nothing. -/
theorem run_blanks {s : JsonReader} (hs : ∀ c, isJsonBlank c = true → s.step c = some s)
    {blanks : List Char} (h : ∀ c ∈ blanks, isJsonBlank c = true) : s.run blanks = some s := by
  induction blanks with
  | nil => rfl
  | cons c blanks ih =>
    have hrest : ∀ d ∈ blanks, isJsonBlank d = true := by
      intro d hd
      exact h d (List.mem_cons_of_mem _ hd)
    rw [run_cons, hs c (h c (List.mem_cons_self ..))]
    exact ih hrest

/-- Blanks behind a value end a word. -/
theorem Completes.run_blanks {s : JsonReader} (h : Completes stack tree s) {c : Char}
    {blanks : List Char} (hblanks : ∀ d ∈ c :: blanks, isJsonBlank d = true) :
    s.run (c :: blanks) = some (.after stack tree) := by
  have hc : isJsonBlank c = true := hblanks c (List.mem_cons_self ..)
  have hword : isJsonWordChar c = false := by
    simp only [isJsonBlank, Bool.or_eq_true, beq_iff_eq] at hc
    rcases hc with ((rfl | rfl) | rfl) | rfl <;> decide
  have hstep : stepAfter stack tree c = some (.after stack tree) := by simp [stepAfter, hc]
  rw [run_cons, h.step_eq hword, hstep]
  refine JsonReader.run_blanks ?_ ?_
  · intro d hd
    simp [step, stepAfter, hd]
  · intro d hd
    exact hblanks d (List.mem_cons_of_mem _ hd)

theorem isJsonBlank_of_mem_newLine (depth : Nat) :
    ∀ c ∈ Json.newLine depth, isJsonBlank c = true := by
  intro c hc
  rcases List.mem_cons.mp hc with rfl | hc
  · rfl
  · rw [List.eq_of_mem_replicate hc]
    rfl

theorem Completes.run_newLine {s : JsonReader} (h : Completes stack tree s) (depth : Nat) :
    s.run (Json.newLine depth) = some (.after stack tree) :=
  h.run_blanks (isJsonBlank_of_mem_newLine depth)

theorem run_value_newLine (stack : List JsonFrame) (opened : Bool) (depth : Nat) :
    (JsonReader.value stack opened).run (Json.newLine depth) = some (.value stack opened) :=
  run_blanks (fun c hc => by simp [step, stepValue, hc]) (isJsonBlank_of_mem_newLine depth)

theorem run_key_newLine (stack : List JsonFrame) (done : List (List Char × JsonTree))
    (opened : Bool) (depth : Nat) :
    (JsonReader.key stack done opened).run (Json.newLine depth) = some (.key stack done opened) :=
  run_blanks (fun c hc => by simp [step, hc]) (isJsonBlank_of_mem_newLine depth)

/-- A word is read to its end. -/
theorem run_word {word : List Char} (hchars : ∀ c ∈ word, isJsonWordChar c = true)
    (h : jsonWord? word = some tree) (opened : Bool) :
    ∃ s, (JsonReader.value stack opened).run word = some s ∧ Completes stack tree s := by
  have hne : word ≠ [] := by
    rintro rfl
    cases h
  obtain ⟨c, cs, rfl⟩ := List.exists_cons_of_ne_nil hne
  have hc := hchars c (List.mem_cons_self ..)
  have hstart : (JsonReader.value stack opened).step c = some (.word stack [c]) := by
    have hne : ∀ d, isJsonWordChar d = false → c ≠ d := by
      intro d hd heq
      rw [← heq, hc] at hd
      cases hd
    have hblank : isJsonBlank c = false := by
      simp [isJsonBlank, hne ' ' (by decide), hne '\n' (by decide), hne '\r' (by decide),
        hne '\t' (by decide)]
    simp [step, stepValue, hblank, hc, hne '[' (by decide), hne '\x7b' (by decide),
      hne '"' (by decide)]
  have hrest : ∀ (cs chars : List Char), (∀ d ∈ cs, isJsonWordChar d = true) →
      (JsonReader.word stack chars).run cs = some (.word stack (chars ++ cs)) := by
    intro cs
    induction cs with
    | nil => exact fun chars _ => by rw [List.append_nil]; rfl
    | cons d cs ih =>
      intro chars hcs
      have hd := hcs d (List.mem_cons_self ..)
      have hstep : (JsonReader.word stack chars).step d = some (.word stack (chars ++ [d])) := by
        simp [step, hd]
      have htail : ∀ e ∈ cs, isJsonWordChar e = true := by
        intro e he
        exact hcs e (List.mem_cons_of_mem _ he)
      rw [run_cons, hstep, Option.bind_some, ih _ htail, List.append_assoc]
      rfl
  refine ⟨.word stack (c :: cs), ?_, .word _ h⟩
  rw [run_cons, hstart]
  refine hrest cs [c] ?_
  intro d hd
  exact hchars d (List.mem_cons_of_mem _ hd)

/-- A control character is read back from its code. -/
theorem run_unicode (place : JsonPlace) (chars : List Char) {n : Nat} (h : n < 32) :
    (JsonReader.quoted place chars .none).run
        ('\\' :: 'u' :: (Nat.toDigits 16 n).leftpad 4 '0') =
      some (.quoted place (chars ++ [Char.ofNat n]) .none) := by
  interval_cases n <;> rfl

/-- A character of a string is read back from its escape. -/
theorem run_escape (place : JsonPlace) (chars : List Char) (c : Char) :
    (JsonReader.quoted place chars .none).run (Json.escape c) =
      some (.quoted place (chars ++ [c]) .none) := by
  have hchar : ∀ n, c.toNat = n → c = Char.ofNat n := by
    intro n hn
    rw [← hn, Char.ofNat_toNat]
  unfold Json.escape
  split
  · rfl
  · rfl
  · rfl
  · rfl
  · rfl
  · rename_i hquote hbackslash _ _ _
    split
    · rename_i h
      rw [hchar 8 h]
      rfl
    · split
      · rename_i h
        rw [hchar 12 h]
        rfl
      · split
        · rename_i h
          have hrun := run_unicode place chars h
          rwa [Char.ofNat_toNat] at hrun
        · rename_i h
          have hq : c ≠ '"' := fun heq => hquote heq
          have hb : c ≠ '\\' := fun heq => hbackslash heq
          have hstep : (JsonReader.quoted place chars .none).step c =
              some (.quoted place (chars ++ [c]) .none) := by
            simp [step, stepQuoted, hq, hb, h]
          rw [run_cons, hstep]
          rfl

theorem run_flatMap_escape (place : JsonPlace) (chars s : List Char) :
    (JsonReader.quoted place chars .none).run (s.flatMap Json.escape) =
      some (.quoted place (chars ++ s) .none) := by
  induction s generalizing chars with
  | nil => rw [List.append_nil]; rfl
  | cons c s ih =>
    rw [List.flatMap_cons, run_append, run_escape, Option.bind_some, ih, List.append_assoc]
    rfl

theorem run_quote_value (stack : List JsonFrame) (opened : Bool) (s : String) :
    (JsonReader.value stack opened).run (Json.quote s) = some (.after stack (.text s.toList)) := by
  have hstart : (JsonReader.value stack opened).step '"' =
      some (.quoted (.value stack) [] .none) := rfl
  rw [Json.quote, List.cons_append, run_cons, hstart, Option.bind_some, run_append,
    run_flatMap_escape]
  rfl

/-- A key in its quotes, with the colon behind it. -/
def keyChars (k : String) : List Char := Json.quote k ++ [':', ' ']

theorem run_keyChars (stack : List JsonFrame) (done : List (List Char × JsonTree))
    (opened : Bool) (k : String) :
    (JsonReader.key stack done opened).run (keyChars k) =
      some (.value (.members done k.toList :: stack) false) := by
  have hstart : (JsonReader.key stack done opened).step '"' =
      some (.quoted (.key stack done) [] .none) := rfl
  rw [keyChars, Json.quote, List.cons_append, List.cons_append, run_cons, hstart,
    Option.bind_some, List.append_assoc, run_append, run_flatMap_escape]
  rfl

/-! Values within values: the induction goes over the value, with the stack left open. -/

theorem indented_object (k : String) (x : Json) (ms : List (String × Json)) (depth : Nat) :
    (Json.object ((k, x) :: ms)).indented depth =
      '\x7b' :: (Json.newLine (depth + 1) ++ (keyChars k ++
        (x.indented (depth + 1) ++ (Json.indentedMembers (depth + 1) ms ++
          (Json.newLine depth ++ ['\x7d']))))) := by
  simp only [Json.indented, keyChars, List.cons_append, List.append_assoc, List.nil_append]

theorem indentedMembers_cons (k : String) (x : Json) (ms : List (String × Json)) (depth : Nat) :
    Json.indentedMembers depth ((k, x) :: ms) =
      ',' :: (Json.newLine depth ++ (keyChars k ++
        (x.indented depth ++ Json.indentedMembers depth ms))) := by
  simp only [Json.indentedMembers, keyChars, List.cons_append, List.append_assoc, List.nil_append]

theorem isJsonWordChar_of_mem_null : ∀ c ∈ ['n', 'u', 'l', 'l'], isJsonWordChar c = true :=
  List.all_eq_true.mp rfl

theorem isJsonWordChar_of_mem_number {s : List Char} (h : NumberChars s) :
    ∀ c ∈ s, isJsonWordChar c = true := by
  intro c hc
  rw [isJsonWordChar, h c hc, Bool.true_or]

mutual

/-- **What is written is read**, wherever a value has to come. -/
theorem run_indented (j : Json) (depth : Nat) (stack : List JsonFrame) (opened : Bool) :
    ∃ s, (JsonReader.value stack opened).run (j.indented depth) = some s ∧
      Completes stack j.tree s := by
  match j with
  | .null => exact run_word isJsonWordChar_of_mem_null rfl opened
  | .natural n =>
    exact run_word (isJsonWordChar_of_mem_number (numberChars_digitsOf n)) (jsonWord?_digitsOf n)
      opened
  | .number v =>
    rw [Json.tree, Json.indented]
    cases h : v.isFinite with
    | true =>
      exact run_word (isJsonWordChar_of_mem_number (Value.numberChars_jsonChars h))
        (jsonWord?_jsonChars h) opened
    | false =>
      have hnull : v.jsonChars = ['n', 'u', 'l', 'l'] := by simp [Value.jsonChars, h]
      rw [hnull]
      exact run_word isJsonWordChar_of_mem_null rfl opened
  | .text s => exact ⟨_, run_quote_value stack opened s, .after⟩
  | .array [] => exact ⟨_, rfl, .after⟩
  | .array (x :: xs) =>
    obtain ⟨s, hs, hfirst⟩ := run_indented x (depth + 1) (.items [] :: stack) true
    obtain ⟨t, done, last, ht, hlast, hitems⟩ := run_indentedItems xs (depth + 1) hfirst
    have hopen : (JsonReader.value stack opened).step '[' =
        some (.value (.items [] :: stack) true) := rfl
    refine ⟨.after stack (.array (done ++ [last])), ?_, ?_⟩
    · simp only [Json.indented, List.cons_append, List.append_assoc, run_cons, run_append, hopen,
        Option.bind_some, run_value_newLine, hs, ht, hlast.run_newLine]
      rfl
    · rw [hitems]
      exact .after
  | .object [] => exact ⟨_, rfl, .after⟩
  | .object ((k, x) :: ms) =>
    obtain ⟨s, hs, hfirst⟩ := run_indented x (depth + 1) (.members [] k.toList :: stack) false
    obtain ⟨t, done, name, last, ht, hlast, hmembers⟩ := run_indentedMembers ms (depth + 1) hfirst
    have hopen : (JsonReader.value stack opened).step '\x7b' = some (.key stack [] true) := rfl
    refine ⟨.after stack (.object (done ++ [(name, last)])), ?_, ?_⟩
    · rw [indented_object]
      simp only [run_cons, run_append, hopen, Option.bind_some, run_key_newLine, run_keyChars, hs,
        ht, hlast.run_newLine]
      rfl
    · rw [hmembers]
      exact .after

/-- Further items. -/
theorem run_indentedItems (xs : List Json) (depth : Nat) {stack : List JsonFrame}
    {done : List JsonTree} {tree : JsonTree} {s : JsonReader}
    (h : Completes (.items done :: stack) tree s) :
    ∃ t done' last, s.run (Json.indentedItems depth xs) = some t ∧
      Completes (.items done' :: stack) last t ∧
        done' ++ [last] = done ++ tree :: Json.itemTrees xs := by
  match xs with
  | [] => exact ⟨s, done, tree, rfl, h, rfl⟩
  | x :: xs =>
    obtain ⟨s', hs', hnext⟩ := run_indented x depth (.items (done ++ [tree]) :: stack) false
    obtain ⟨t, done', last, ht, hlast, hitems⟩ := run_indentedItems xs depth hnext
    have hcomma : s.step ',' = some (.value (.items (done ++ [tree]) :: stack) false) :=
      h.step_eq (by decide)
    refine ⟨t, done', last, ?_, hlast, ?_⟩
    · simp only [Json.indentedItems, List.cons_append, List.append_assoc, run_cons, run_append,
        hcomma, Option.bind_some, run_value_newLine, hs', ht]
    · rw [hitems, List.append_assoc]
      rfl

/-- Further members. -/
theorem run_indentedMembers (ms : List (String × Json)) (depth : Nat) {stack : List JsonFrame}
    {done : List (List Char × JsonTree)} {name : List Char} {tree : JsonTree} {s : JsonReader}
    (h : Completes (.members done name :: stack) tree s) :
    ∃ t done' name' last, s.run (Json.indentedMembers depth ms) = some t ∧
      Completes (.members done' name' :: stack) last t ∧
        done' ++ [(name', last)] = done ++ (name, tree) :: Json.memberTrees ms := by
  match ms with
  | [] => exact ⟨s, done, name, tree, rfl, h, rfl⟩
  | (k, x) :: ms =>
    obtain ⟨s', hs', hnext⟩ :=
      run_indented x depth (.members (done ++ [(name, tree)]) k.toList :: stack) false
    obtain ⟨t, done', name', last, ht, hlast, hmembers⟩ := run_indentedMembers ms depth hnext
    have hcomma : s.step ',' = some (.key stack (done ++ [(name, tree)]) false) :=
      h.step_eq (by decide)
    refine ⟨t, done', name', last, ?_, hlast, ?_⟩
    · rw [indentedMembers_cons]
      simp only [run_cons, run_append, hcomma, Option.bind_some, run_key_newLine, run_keyChars,
        hs', ht]
    · rw [hmembers, List.append_assoc]
      rfl

end

end JsonReader

/-- **An indented text says what was written**, with any blanks behind it. -/
theorem JsonTree.read?_indented (j : Json) {blanks : List Char}
    (h : ∀ c ∈ blanks, isJsonBlank c = true) : read? (j.indented 0 ++ blanks) = some j.tree := by
  obtain ⟨s, hs, hcompletes⟩ := JsonReader.run_indented j 0 [] false
  rw [read?, JsonReader.run_append, hs, Option.bind_some]
  cases blanks with
  | nil => exact hcompletes.result?_eq
  | cons c blanks =>
    have hblanks : s.run (c :: blanks) = some (.after [] j.tree) :=
      hcompletes.run_blanks h
    rw [hblanks]
    rfl

/-- A comma asks for an item. -/
example : (JsonTree.read? "[1,]".toList).isNone = true := by decide

/-! ## 6. Parts of a tree -/

namespace JsonTree

/-- The member of an object with this name. -/
def member? (name : String) : JsonTree → Option JsonTree
  | .object ms => ms.lookup name.toList
  | _ => none

/-- The text of a number. -/
def number? : JsonTree → Option (List Char)
  | .number chars => some chars
  | _ => none

/-- The characters of a string. -/
def text? : JsonTree → Option (List Char)
  | .text s => some s
  | _ => none

@[simp] theorem member?_nil (name : String) :
    (object (Json.memberTrees [])).member? name = none := rfl

/-- The first member with a name is the one that is found. -/
@[simp] theorem member?_cons (name k : String) (x : Json) (ms : List (String × Json)) :
    (object (Json.memberTrees ((k, x) :: ms))).member? name =
      if name = k then some x.tree else (object (Json.memberTrees ms)).member? name := by
  simp only [member?, Json.memberTrees, List.lookup_cons]
  split
  · rename_i heq
    rw [if_pos (String.toList_inj.mp (beq_iff_eq.mp heq))]
  · rename_i hne
    rw [if_neg fun heq => beq_eq_false_iff_ne.mp hne (congrArg String.toList heq)]

end JsonTree
end BytecodeTrace
