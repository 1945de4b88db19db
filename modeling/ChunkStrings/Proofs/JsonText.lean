import ChunkStrings.Proofs.Numerals
import ChunkStrings.Text.Json

/-!
# JSON that is read again

A reader of JSON, and the proof that it reads what `Json.lines` writes: the lines of a document are
read as the document (`Json.read?_lines`), so they determine it, with every text in it and the order
of every array and object.

The reader takes one character after another. It knows where it is inside of a word
(`Json.Scan`) and between the words (`Json.Place`): which arrays and objects have begun, what has
been read of them, and what may come next. So to read one run of characters and then another is to
read both (`Json.Reader.run_append`), and no measure of what is left is needed. What the writer
does is followed by induction over the document (`Json.reads`); `Json.Reads` says what the lines of
one value do to a reader that is waiting for a value.

Truth values, fractions and signs, which no document here has, are not read.
-/

namespace ChunkStrings.Json

/-! ### The reader -/

/-- A value that has begun. -/
inductive Part where
  /-- An array, with its elements so far, the last first. -/
  | array (items : List Json)
  /-- An object, with its fields so far, the last first. -/
  | object (fields : List (String × Json))
  /-- A field of the object below it, with its name. -/
  | field (name : String)
  deriving Repr

/-- What may come next. -/
inductive Wanted where
  /-- A value. -/
  | value
  /-- The first element or field of what has just begun, or its end. -/
  | first
  /-- The name of a field. -/
  | name
  /-- The colon behind a name. -/
  | colon
  /-- A comma, or the end of what has begun. -/
  | next
  deriving DecidableEq, Repr

/-- A place between two words of a document. -/
structure Place where
  /-- What may come next. -/
  wanted : Wanted
  /-- The values that have begun, the innermost first. -/
  parts : List Part
  deriving Repr

namespace Place

/-- Whether a value may come. -/
def awaits : Place → Bool
  | ⟨.value, _⟩ => true
  | ⟨.first, .array _ :: _⟩ => true
  | _ => false

/-- The place behind a value of the innermost part. -/
def behind (value : Json) : List Part → Option Place
  | .array items :: outer => some ⟨.next, .array (value :: items) :: outer⟩
  | .field name :: .object fields :: outer =>
    some ⟨.next, .object ((name, value) :: fields) :: outer⟩
  | _ => none

/-- Reads a value. -/
def value (place : Place) (value : Json) : Option Place :=
  if place.awaits then behind value place.parts else none

/-- Reads a text, which is a value or the name of a field. -/
def text (place : Place) (content : String) : Option Place :=
  match place with
  | ⟨.name, .object fields :: outer⟩ | ⟨.first, .object fields :: outer⟩ =>
    some ⟨.colon, .field content :: .object fields :: outer⟩
  | _ => place.value (.text content)

/-- Begins a value that has parts. -/
def enter (place : Place) (part : Part) : Option Place :=
  if place.awaits then some ⟨.first, part :: place.parts⟩ else none

/-- Ends the innermost part, which is then a value of the part around it. -/
def leave (place : Place) (bracket : Char) : Option Place :=
  if place.wanted = .next ∨ place.wanted = .first then
    match bracket, place.parts with
    | ']', .array items :: outer => behind (.array items.reverse) outer
    | '\x7d', .object fields :: outer => behind (.object fields.reverse) outer
    | _, _ => none
  else none

/-- Goes on to the next element or field. -/
def goOn : Place → Option Place
  | ⟨.next, .array items :: outer⟩ => some ⟨.value, .array items :: outer⟩
  | ⟨.next, .object fields :: outer⟩ => some ⟨.name, .object fields :: outer⟩
  | _ => none

/-- Reads a character that is a word of its own. -/
def mark (place : Place) (c : Char) : Option Place :=
  if c = '[' then place.enter (.array [])
  else if c = '\x7b' then place.enter (.object [])
  else if c = ',' then place.goOn
  else if c = ':' then
    if place.wanted = .colon then some ⟨.value, place.parts⟩ else none
  else place.leave c

end Place

/-- Where a reader is inside of a word. -/
inductive Scan where
  /-- Inside of none. -/
  | between
  /-- In a number, with its value so far. -/
  | number (value : Nat)
  /-- In the word for the absent value, with the letters that are to come. -/
  | letters (left : List Char)
  /-- In a text, with its characters so far, the last first. -/
  | text (chars : List Char)
  /-- Behind the backslash of an escape. -/
  | escape (chars : List Char)
  /-- In the number of a character, with its value so far and how many digits are to come. -/
  | code (chars : List Char) (value left : Nat)
  deriving DecidableEq, Repr

/-- A reader on its way through a document. -/
structure Reader where
  /-- Where it is inside of a word. -/
  scan : Scan
  /-- The place behind the last word it has read. -/
  place : Place
  deriving Repr

namespace Reader

/-- A reader in front of a document, which it takes for the one element of an array. -/
def start : Reader := ⟨.between, ⟨.value, [.array []]⟩⟩

/-- The character that an escape of two characters stands for. -/
def escaped? (c : Char) : Option Char :=
  if c = '"' ∨ c = '\\' ∨ c = '/' then some c
  else if c = 'n' then some '\n'
  else if c = 'r' then some '\r'
  else if c = 't' then some '\t'
  else if c = 'b' then some '\x08'
  else if c = 'f' then some '\x0c'
  else none

/-- Whether a character may stand between any two words. -/
def isSpace (c : Char) : Bool := c = ' ' || c = '\n' || c = '\r' || c = '\t'

/-- Reads the first character of a word, or one between two of them. -/
def begin (place : Place) (c : Char) : Option Reader :=
  if isSpace c then some ⟨.between, place⟩
  else if c = '"' then some ⟨.text [], place⟩
  else if c = 'n' then some ⟨.letters ['u', 'l', 'l'], place⟩
  else match Numeral.digit? 10 c with
    | some digit => some ⟨.number digit, place⟩
    | none => (place.mark c).map (⟨.between, ·⟩)

/-- Reads a character. -/
def step (reader : Reader) (c : Char) : Option Reader :=
  let place := reader.place
  match reader.scan with
  | .between => begin place c
  | .number value =>
    match Numeral.digit? 10 c with
    | some digit => some ⟨.number (10 * value + digit), place⟩
    | none => (place.value (.number value)).bind (begin · c)
  | .letters [] => none
  | .letters [letter] =>
    if c = letter then (place.value .null).map (⟨.between, ·⟩) else none
  | .letters (letter :: left) => if c = letter then some ⟨.letters left, place⟩ else none
  | .text chars =>
    if c = '"' then (place.text (String.ofList chars.reverse)).map (⟨.between, ·⟩)
    else if c = '\\' then some ⟨.escape chars, place⟩
    else if c.toNat < 0x20 then none
    else some ⟨.text (c :: chars), place⟩
  | .escape chars =>
    if c = 'u' then some ⟨.code chars 0 4, place⟩
    else (escaped? c).map fun meant => ⟨.text (meant :: chars), place⟩
  | .code chars value left =>
    match Numeral.digit? 16 c with
    | none => none
    | some digit =>
      let value := 16 * value + digit
      if 1 < left then some ⟨.code chars value (left - 1), place⟩
      else if value.isValidChar then some ⟨.text (Char.ofNat value :: chars), place⟩
      else none

/-- Reads characters one after another. -/
def run (reader : Reader) (chars : List Char) : Option Reader := chars.foldlM step reader

/-- The document, once it has been read to its end. -/
def document? : Reader → Option Json
  | ⟨.between, ⟨.next, [.array [document]]⟩⟩ => some document
  | _ => none

end Reader

/-- The characters of lines, each with the line feed that ends it. -/
def unlines (lines : List String) : List Char :=
  lines.flatMap fun line => line.toList ++ ['\n']

/-- Reads the lines of a document. -/
def read? (lines : List String) : Option Json :=
  (Reader.start.run (unlines lines)).bind Reader.document?

/-! ### Words -/

namespace Reader

variable {reader : Reader} {place : Place}

@[simp] theorem run_nil (reader : Reader) : reader.run [] = some reader := rfl

@[simp] theorem run_cons (reader : Reader) (c : Char) (chars : List Char) :
    reader.run (c :: chars) = (reader.step c).bind (·.run chars) := rfl

/-- **To read one run of characters and then another is to read both.** -/
theorem run_append (reader : Reader) (front rest : List Char) :
    reader.run (front ++ rest) = (reader.run front).bind (·.run rest) :=
  List.foldlM_append

/-- The characters that are words of their own. -/
def marks : List Char := ['[', ']', '\x7b', '\x7d', ',', ':']

theorem step_mark {c : Char} (h : c ∈ marks) (place : Place) :
    step ⟨.between, place⟩ c = (place.mark c).map (⟨.between, ·⟩) := by
  simp only [marks, List.mem_cons, List.not_mem_nil, or_false] at h
  rcases h with rfl | rfl | rfl | rfl | rfl | rfl <;> rfl

/-- A line feed between words does not count. -/
@[simp] theorem step_feed (place : Place) :
    step ⟨.between, place⟩ '\n' = some ⟨.between, place⟩ := rfl

/-- Nor do blanks. -/
theorem run_indent (place : Place) (depth : Nat) :
    run ⟨.between, place⟩ (indent depth).toList = some ⟨.between, place⟩ := by
  rw [indent, String.toList_ofList]
  induction 2 * depth with
  | zero => rfl
  | succ count ih => exact ih

/-- The digits of a number are read as its value. -/
theorem run_toDigits (place : Place) (n : Nat) :
    run ⟨.between, place⟩ (Nat.toDigits 10 n) = some ⟨.number n, place⟩ := by
  have hfirst : ∀ d < 10, isSpace (Nat.digitChar d) = false ∧ Nat.digitChar d ≠ '"' ∧
      Nat.digitChar d ≠ 'n' := by decide
  induction n using Nat.strongRecOn with
  | ind n ih =>
    rw [Nat.toDigits_eq_if (by decide)]
    split
    · rename_i hlt
      obtain ⟨hspace, hquote, hn⟩ := hfirst n hlt
      simp [step, begin, hspace, hquote, hn, Numeral.digit?_digitChar (by decide) hlt]
    · rename_i hge
      have hlast : n % 10 < 10 := Nat.mod_lt n (by decide)
      rw [run_append, ih (n / 10) (Nat.div_lt_self (by omega) (by decide))]
      simp [step, Numeral.digit?_digitChar (by decide) hlast, Nat.div_add_mod]

/-- A number ends where no digit follows. -/
theorem step_number {c : Char} (hc : Numeral.digit? 10 c = none) (value : Nat) {after : Place}
    (h : place.value (.number value) = some after) :
    step ⟨.number value, place⟩ c = step ⟨.between, after⟩ c := by
  simp [step, hc, h]

/-- The number of a character, where it has two digits at most. -/
theorem run_code (place : Place) (chars : List Char) {value : Nat} (h : value < 0x20) :
    run ⟨.text chars, place⟩ ('\\' :: 'u' :: Hex.ofNat value 4) =
      some ⟨.text (Char.ofNat value :: chars), place⟩ := by
  have hdigits : ∀ value < 0x20, Hex.ofNat value 4 =
      ['0', '0', Nat.digitChar (value / 16), Nat.digitChar (value % 16)] := by decide
  have hzero : Numeral.digit? 16 '0' = some 0 := by decide
  have hhigh := Numeral.digit?_digitChar (Nat.le_refl 16) (show value / 16 < 16 by omega)
  have hlow := Numeral.digit?_digitChar (Nat.le_refl 16) (Nat.mod_lt value (by decide))
  have hvalid : value.isValidChar := .inl (by omega)
  rw [hdigits value h]
  simp [step, hzero, hhigh, hlow, Nat.div_add_mod, hvalid]

/-- **What is written for a character is read as the character.** -/
theorem run_quoteChar (place : Place) (chars : List Char) (c : Char) :
    run ⟨.text chars, place⟩ (quoteChar c) = some ⟨.text (c :: chars), place⟩ := by
  unfold quoteChar
  -- seven characters have an escape of their own
  iterate 7
    split
    · subst c
      rfl
  split
  · rename_i hsmall
    rw [run_code place chars hsmall, Char.ofNat_toNat]
  · rename_i hquote hslash _ _ _ _ _ hlarge
    simp [step, hquote, hslash, hlarge]

/-- What is written for a text, up to its last quote. -/
theorem run_flatMap_quoteChar (place : Place) (content chars : List Char) :
    run ⟨.text chars, place⟩ (content.flatMap quoteChar) =
      some ⟨.text (content.reverse ++ chars), place⟩ := by
  induction content generalizing chars with
  | nil => rfl
  | cons c content ih =>
    rw [List.flatMap_cons, run_append, run_quoteChar]
    simpa using ih (c :: chars)

/-- **A text between its quotes is read as the text.** -/
theorem run_quote (place : Place) (content : String) :
    run ⟨.between, place⟩ (quote content).toList =
      (place.text content).map (⟨.between, ·⟩) := by
  rw [quote, String.toList_ofList, List.cons_append, run_cons]
  change run ⟨.text [], place⟩ _ = _
  rw [run_append, run_flatMap_quoteChar]
  simp [step]

end Reader

/-! ### Documents -/

/-- What holds of every value if it holds of an array or an object whose elements or fields it
holds of. -/
theorem induction {P : Json → Prop} (null : P .null) (number : ∀ value, P (.number value))
    (text : ∀ content, P (.text content))
    (array : ∀ items, (∀ item ∈ items, P item) → P (.array items))
    (object : ∀ fields, (∀ field ∈ fields, P field.2) → P (.object fields))
    (document : Json) : P document :=
  @Json.rec P (fun items => ∀ item ∈ items, P item) (fun fields => ∀ field ∈ fields, P field.2)
    (fun field => P field.2) null number text array object nofun
    (fun _ _ hitem hitems => List.forall_mem_cons.mpr ⟨hitem, hitems⟩) nofun
    (fun _ _ hfield hfields => List.forall_mem_cons.mpr ⟨hfield, hfields⟩) (fun _ _ h => h) document

/-- What is read of the lines that are written so far. -/
def readSoFar (written : Array String) : Option Reader := Reader.start.run (unlines written.toList)

/-- A line is read behind those before it. -/
theorem readSoFar_push (written : Array String) (front rest : String) :
    readSoFar (written.push (front ++ rest)) =
      ((readSoFar written).bind (·.run front.toList)).bind (·.run (rest.toList ++ ['\n'])) := by
  rw [readSoFar, readSoFar, Array.toList_push, unlines, unlines, List.flatMap_append,
    Reader.run_append, Option.bind_assoc]
  simp [Reader.run_append]

/-- **The lines of a value are read as the value**, where one is awaited: behind them, and behind
the comma if there is one, the reader is at the place behind the value. -/
def Reads (document : Json) : Prop :=
  ∀ (depth : Nat) (before after : String) (written : Array String) (place next : Place),
    (readSoFar written).bind (·.run before.toList) = some ⟨.between, place⟩ →
    place.value document = some next → after = "" ∨ after = "," →
    readSoFar (write depth before after written document) =
      Reader.run ⟨.between, next⟩ (after.toList ++ ['\n'])

variable {written : Array String} {before after : String} {place next : Place} {document : Json}
  {outer : List Part}

theorem Place.value_eq_some : place.value document = some next ↔
    place.awaits ∧ Place.behind document place.parts = some next := by
  rw [Place.value]
  split <;> simp_all

/-- A line with a word in it is read as the word. -/
theorem readSoFar_push_word
    (hbefore : (readSoFar written).bind (·.run before.toList) = some ⟨.between, place⟩)
    (word after : String) : readSoFar (written.push (before ++ word ++ after)) =
      (Reader.run ⟨.between, place⟩ word.toList).bind (·.run (after.toList ++ ['\n'])) := by
  have hword : (readSoFar written).bind (·.run (before ++ word).toList) =
      Reader.run ⟨.between, place⟩ word.toList := by
    simp [Reader.run_append, ← Option.bind_assoc, hbefore]
  rw [readSoFar_push, hword]

theorem reads_null : Reads .null := by
  intro depth before after written place next hbefore hvalue _
  have hword : Reader.run ⟨.between, place⟩ "null".toList = some ⟨.between, next⟩ := by
    simp [Reader.step, Reader.begin, Reader.isSpace, hvalue]
  rw [write, readSoFar_push_word hbefore, hword, Option.bind_some]

theorem reads_number (value : Nat) : Reads (.number value) := by
  intro depth before after written place next hbefore hvalue hafter
  have hword : Reader.run ⟨.between, place⟩ (toString value).toList =
      some ⟨.number value, place⟩ := by
    rw [Nat.toString_eq_repr, Nat.repr, String.toList_ofList]
    exact Reader.run_toDigits place value
  rw [write, readSoFar_push_word hbefore, hword]
  rcases hafter with rfl | rfl
  · have hend := Reader.step_number (c := '\n') (by decide) value hvalue
    simp [hend]
  · have hend := Reader.step_number (c := ',') (by decide) value hvalue
    simp [hend]

theorem reads_text (content : String) : Reads (.text content) := by
  intro depth before after written place next hbefore hvalue _
  have htext : place.text content = some next := by
    unfold Place.text
    split
    · cases hvalue
    · cases hvalue
    · exact hvalue
  rw [write, readSoFar_push_word hbefore, Reader.run_quote, htext]
  rfl

theorem toList_comma {α : Type} (later : α) (rest : List α) :
    (comma (later :: rest)).toList = [','] := by
  simp [comma]

/-- The elements of an array are read one after another, by induction over them. -/
theorem reads_items {items : List Json} (hreads : ∀ item ∈ items, Reads item) (hne : items ≠ [])
    (depth : Nat) {seen : List Json} (hwritten : readSoFar written = some ⟨.between, place⟩)
    (hawaits : place.awaits) (hparts : place.parts = .array seen :: outer) :
    readSoFar (writeItems depth written items) =
      some ⟨.between, ⟨.next, .array (items.reverse ++ seen) :: outer⟩⟩ := by
  induction items generalizing written place seen with
  | nil => exact absurd rfl hne
  | cons item rest ih =>
    have hindent : (readSoFar written).bind (·.run (indent depth).toList) =
        some ⟨.between, place⟩ := by
      rw [hwritten]
      exact Reader.run_indent place depth
    have hvalue : place.value item = some ⟨.next, .array (item :: seen) :: outer⟩ :=
      Place.value_eq_some.mpr ⟨hawaits, by rw [hparts]; rfl⟩
    have hitem := hreads item List.mem_cons_self depth (indent depth) (comma rest) written place _
      hindent hvalue
    rw [writeItems]
    cases rest with
    | nil => exact hitem (.inl rfl)
    | cons later rest =>
      have hcomma : readSoFar (write depth (indent depth) (comma (later :: rest)) written item) =
          some ⟨.between, ⟨.value, .array (item :: seen) :: outer⟩⟩ := by
        rw [hitem (.inr rfl), toList_comma]
        rfl
      have hrest := ih (fun item hmem => hreads item (List.mem_cons_of_mem _ hmem))
        (List.cons_ne_nil _ _) hcomma rfl rfl
      simpa using hrest

/-- The fields of an object are read one after another, by induction over them. -/
theorem reads_fields {fields : List (String × Json)} (hreads : ∀ field ∈ fields, Reads field.2)
    (hne : fields ≠ []) (depth : Nat) {seen : List (String × Json)}
    (hwritten : readSoFar written = some ⟨.between, place⟩)
    (hwanted : place.wanted = .first ∨ place.wanted = .name)
    (hparts : place.parts = .object seen :: outer) :
    readSoFar (writeFields depth written fields) =
      some ⟨.between, ⟨.next, .object (fields.reverse ++ seen) :: outer⟩⟩ := by
  induction fields generalizing written place seen with
  | nil => exact absurd rfl hne
  | cons field rest ih =>
    obtain ⟨name, value⟩ := field
    have htext : place.text name = some ⟨.colon, .field name :: .object seen :: outer⟩ := by
      obtain ⟨wanted, parts⟩ := place
      subst hparts
      rcases hwanted with rfl | rfl <;> rfl
    have hname : (readSoFar written).bind (·.run (indent depth ++ quote name ++ ": ").toList) =
        some ⟨.between, ⟨.value, .field name :: .object seen :: outer⟩⟩ := by
      rw [hwritten, Option.bind_some, String.toList_append, String.toList_append,
        Reader.run_append, Reader.run_append, Reader.run_indent, Option.bind_some,
        Reader.run_quote, htext]
      rfl
    have hfield := hreads (name, value) List.mem_cons_self depth _ (comma rest) written _
      ⟨.next, .object ((name, value) :: seen) :: outer⟩ hname rfl
    rw [writeFields]
    cases rest with
    | nil => exact hfield (.inl rfl)
    | cons later rest =>
      have hcomma : readSoFar (write depth (indent depth ++ quote name ++ ": ")
          (comma (later :: rest)) written value) =
            some ⟨.between, ⟨.name, .object ((name, value) :: seen) :: outer⟩⟩ := by
        rw [hfield (.inr rfl), toList_comma]
        rfl
      have hrest := ih (fun field hmem => hreads field (List.mem_cons_of_mem _ hmem))
        (List.cons_ne_nil _ _) hcomma (.inr rfl) rfl
      simpa using hrest

section Brackets

variable (opening closing : Char) (first : Part)

/-- **An empty array or object** is read in one line. -/
theorem reads_of_empty (hopening : opening ∈ Reader.marks) (hclosing : closing ∈ Reader.marks)
    (henter : ∀ place : Place, place.mark opening = place.enter first)
    (hleave : ∀ outer, Place.mark ⟨.first, first :: outer⟩ closing = Place.behind document outer)
    (hwrite : ∀ depth before after written, write depth before after written document =
      written.push (before ++ String.ofList [opening, closing] ++ after)) : Reads document := by
  intro depth before after written place next hbefore hvalue _
  obtain ⟨hawaits, hbehind⟩ := Place.value_eq_some.mp hvalue
  have hword : Reader.run ⟨.between, place⟩ [opening, closing] = some ⟨.between, next⟩ := by
    simp [Reader.step_mark hopening, Reader.step_mark hclosing, henter, Place.enter, hawaits,
      hleave, hbehind]
  rw [hwrite, readSoFar_push_word hbefore, String.toList_ofList, hword, Option.bind_some]

/-- **An array or object with something in it** is read from bracket to bracket, if what stands
between them is read as its elements or fields. -/
theorem reads_of_inner (last : Part) (inner : Nat → Array String → Array String)
    (hopening : opening ∈ Reader.marks) (hclosing : closing ∈ Reader.marks)
    (henter : ∀ place : Place, place.mark opening = place.enter first)
    (hleave : ∀ outer, Place.mark ⟨.next, last :: outer⟩ closing = Place.behind document outer)
    (hinner : ∀ depth written outer,
      readSoFar written = some ⟨.between, ⟨.first, first :: outer⟩⟩ →
        readSoFar (inner depth written) = some ⟨.between, ⟨.next, last :: outer⟩⟩)
    (hwrite : ∀ depth before after written, write depth before after written document =
      (inner (depth + 1) (written.push (before ++ String.ofList [opening]))).push
        (indent depth ++ String.ofList [closing] ++ after)) : Reads document := by
  intro depth before after written place next hbefore hvalue _
  obtain ⟨hawaits, hbehind⟩ := Place.value_eq_some.mp hvalue
  have hopen : readSoFar (written.push (before ++ String.ofList [opening])) =
      some ⟨.between, ⟨.first, first :: place.parts⟩⟩ := by
    rw [readSoFar_push, hbefore]
    simp [Reader.step_mark hopening, henter, Place.enter, hawaits]
  have hindent : (readSoFar (inner (depth + 1) (written.push (before ++ String.ofList [opening])))
      |>.bind (·.run (indent depth).toList)) = some ⟨.between, ⟨.next, last :: place.parts⟩⟩ := by
    rw [hinner _ _ _ hopen]
    exact Reader.run_indent _ depth
  rw [hwrite, readSoFar_push_word hindent]
  simp [Reader.step_mark hclosing, hleave, hbehind]

end Brackets

theorem reads_array {items : List Json} (hreads : ∀ item ∈ items, Reads item) :
    Reads (.array items) := by
  cases items with
  | nil =>
    exact reads_of_empty '[' ']' (.array []) (by simp [Reader.marks]) (by simp [Reader.marks])
      (fun _ => rfl) (fun _ => rfl) fun _ _ _ _ => rfl
  | cons item items =>
    refine reads_of_inner '[' ']' (.array []) (.array ((item :: items).reverse ++ []))
      (fun depth written => writeItems depth written (item :: items)) (by simp [Reader.marks])
      (by simp [Reader.marks]) (fun _ => rfl) (fun outer => ?_)
      (fun depth written outer h => reads_items hreads (List.cons_ne_nil _ _) depth h rfl rfl)
      fun _ _ _ _ => rfl
    change Place.behind (.array ((item :: items).reverse ++ []).reverse) outer = _
    rw [List.append_nil, List.reverse_reverse]

theorem reads_object {fields : List (String × Json)} (hreads : ∀ field ∈ fields, Reads field.2) :
    Reads (.object fields) := by
  cases fields with
  | nil =>
    exact reads_of_empty '\x7b' '\x7d' (.object []) (by simp [Reader.marks])
      (by simp [Reader.marks]) (fun _ => rfl) (fun _ => rfl) fun _ _ _ _ => rfl
  | cons field fields =>
    refine reads_of_inner '\x7b' '\x7d' (.object []) (.object ((field :: fields).reverse ++ []))
      (fun depth written => writeFields depth written (field :: fields)) (by simp [Reader.marks])
      (by simp [Reader.marks]) (fun _ => rfl) (fun outer => ?_)
      (fun depth written outer h =>
        reads_fields hreads (List.cons_ne_nil _ _) depth h (.inl rfl) rfl)
      fun _ _ _ _ => rfl
    change Place.behind (.object ((field :: fields).reverse ++ []).reverse) outer = _
    rw [List.append_nil, List.reverse_reverse]

/-- **The lines of every value are read as the value**, by induction over the value. -/
theorem reads (document : Json) : Reads document := by
  induction document using induction with
  | null => exact reads_null
  | number value => exact reads_number value
  | text content => exact reads_text content
  | array items hitems => exact reads_array hitems
  | object fields hfields => exact reads_object hfields

/-- **What is written for a document is read as the document.** -/
theorem read?_lines (document : Json) : read? document.lines = some document := by
  have hread := reads document 0 "" "" #[] ⟨.value, [.array []]⟩ ⟨.next, [.array [document]]⟩ rfl
    rfl (.inl rfl)
  rw [read?, lines, ← readSoFar, hread]
  rfl

/-- Different documents have different lines. -/
theorem lines_inj {document other : Json} : document.lines = other.lines ↔ document = other := by
  refine ⟨fun h => ?_, congrArg lines⟩
  have hread := read?_lines document
  rw [h, read?_lines other] at hread
  exact (Option.some.inj hread).symm

end ChunkStrings.Json
