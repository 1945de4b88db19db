import ChunkStrings.CommandLine.Outcome
import ChunkStrings.Proofs.JsonText
import ChunkStrings.Proofs.TableText

/-!
# Products that are read again

What can be learned from what a command has printed. As JSON, a listing is read as the layout and
the entries, all of them and nothing else (`Listing.read?_lines`), and an encoding as the layout,
the number of bytes and the bytes (`Encoding.read?_lines`). The one line of an encoding as text
is read as the bytes, too (`Hex.readPairs?_pairs`).

A listing as text is a table. Its rows are read as the entries up to the strings, of which blanks
may get lost where a line ends (`TextListing.read?_toLines`). In front of the strings stand words
only: numbers, one of two kinds, and the byte after the string or nothing at all
(`RecordEntry.Addressed.isWord_of_mem`). This is where the offset and the size of an entry have to
be machine words, for a column is not wide enough for all numbers there are.
-/

namespace ChunkStrings

/-! ### Pairs of digits -/

namespace Hex

/-- The first pair is read, and then those behind the blank. -/
theorem readPairs?_cons (high low next : Char) (rest : List Char) :
    readPairs? (high :: low :: ' ' :: next :: rest) =
      (byte? high low).bind fun byte => (readPairs? (next :: rest)).map (byte :: ·) := by
  rw [readPairs?]
  cases byte? high low <;> cases readPairs? (next :: rest) <;> rfl

/-- **Pairs of digits are read as the bytes.** -/
theorem readPairs?_pairs (bytes : List UInt8) : readPairs? (pairs bytes) = some bytes := by
  induction bytes with
  | nil => rfl
  | cons byte bytes ih =>
    cases bytes with
    | nil =>
      change (byte? _ _).map _ = _
      rw [byte?_ofByte]
      rfl
    | cons next bytes =>
      refine (readPairs?_cons _ _ _ _).trans ?_
      rw [byte?_ofByte]
      exact congrArg (Option.map (byte :: ·)) ih

end Hex

/-! ### Parts of a document -/

namespace Json

/-- The value of the first field of an object that has this name. -/
def field? (name : String) : Json → Option Json
  | object fields => fields.lookup name
  | _ => none

/-- A text. -/
def text? : Json → Option String
  | text value => some value
  | _ => none

/-- A text that may be missing. -/
def optionalText? : Json → Option (Option String)
  | null => some none
  | text value => some (some value)
  | _ => none

/-- A number. -/
def number? : Json → Option Nat
  | number value => some value
  | _ => none

/-- The elements of an array. -/
def items? : Json → Option (List Json)
  | array items => some items
  | _ => none

end Json

namespace CommandLine

/-! ### Products as JSON -/

/-- Reads an entry. -/
def RecordEntry.ofJson? (document : Json) : Option RecordEntry := do
  let offset ← (document.field? "offset").bind Json.text?
  let size ← (document.field? "size").bind Json.number?
  let kind ← (document.field? "kind").bind Json.text?
  let trailing ← (document.field? "trailing").bind Json.optionalText?
  let value ← (document.field? "value").bind Json.optionalText?
  return ⟨offset, size, kind, trailing, value⟩

/-- **An entry is read as the entry.** -/
theorem RecordEntry.ofJson?_toJson (entry : RecordEntry) : ofJson? entry.toJson = some entry := by
  obtain ⟨offset, size, kind, trailing, value⟩ := entry
  cases trailing <;> cases value <;> rfl

/-- A listing as it can be read. -/
structure Listing where
  /-- The name of the layout. -/
  codec : String
  /-- The entries, in their order. -/
  entries : List RecordEntry
  deriving DecidableEq, Repr

namespace Listing

/-- Reads a listing. -/
def ofJson? (document : Json) : Option Listing := do
  let codec ← (document.field? "codec").bind Json.text?
  let items ← (document.field? "records").bind Json.items?
  let entries ← items.mapM RecordEntry.ofJson?
  return ⟨codec, entries⟩

/-- Reads a listing from the lines that are printed. -/
def read? (lines : List String) : Option Listing := (Json.read? lines).bind ofJson?

theorem mapM_ofJson?_toJson (entries : List RecordEntry) :
    (entries.map RecordEntry.toJson).mapM RecordEntry.ofJson? = some entries := by
  induction entries with
  | nil => rfl
  | cons entry entries ih =>
    rw [List.map_cons, List.mapM_cons, RecordEntry.ofJson?_toJson, ih]
    rfl

/-- **What is printed of a listing is read as its layout and its entries.** -/
theorem read?_lines (layout : Layout) (entries : Array RecordEntry) :
    read? (Product.records layout entries).toJson.lines = some ⟨layout.name, entries.toList⟩ := by
  have hitems := mapM_ofJson?_toJson entries.toList
  have hread : ofJson? (Product.records layout entries).toJson =
      ((entries.toList.map RecordEntry.toJson).mapM RecordEntry.ofJson?).bind
        fun entries => some ⟨layout.name, entries⟩ := rfl
  rw [read?, Json.read?_lines, Option.bind_some, hread, hitems]
  rfl

end Listing

/-- An encoding as it can be read. -/
structure Encoding where
  /-- The name of the layout. -/
  codec : String
  /-- The number of bytes. -/
  size : Nat
  /-- The bytes. -/
  bytes : List UInt8
  deriving DecidableEq, Repr

namespace Encoding

/-- Reads an encoding. -/
def ofJson? (document : Json) : Option Encoding := do
  let codec ← (document.field? "codec").bind Json.text?
  let size ← (document.field? "size").bind Json.number?
  let pairs ← (document.field? "bytes").bind Json.text?
  let bytes ← Hex.readPairs? pairs.toList
  return ⟨codec, size, bytes⟩

/-- Reads an encoding from the lines that are printed. -/
def read? (lines : List String) : Option Encoding := (Json.read? lines).bind ofJson?

/-- **What is printed of an encoding is read as its layout and its bytes**, and their number. -/
theorem read?_lines (layout : Layout) (bytes : ByteArray) :
    read? (Product.encoding layout bytes).toJson.lines =
      some ⟨layout.name, bytes.size, bytes.data.toList⟩ := by
  have hread : ofJson? (Product.encoding layout bytes).toJson =
      (Hex.readPairs? (String.ofList (Hex.pairs bytes.data.toList)).toList).bind
        fun read => some ⟨layout.name, bytes.size, read⟩ := rfl
  rw [read?, Json.read?_lines, Option.bind_some, hread, String.toList_ofList,
    Hex.readPairs?_pairs]
  rfl

end Encoding

/-! ### Listings as text -/

/-- An entry as it can be read from the text of a listing. -/
structure TextRow where
  /-- The offset of the record. -/
  offset : String
  /-- The number of its bytes. -/
  size : Nat
  /-- Whether there is a string. -/
  kind : String
  /-- The byte stored after the string. -/
  trailing : Option String
  /-- The lines of the string. -/
  value : List (List Char)
  deriving DecidableEq, Repr

/-- Reads an entry from the words in front of its string, which are three, or four if there is a
byte after the string. -/
def TextRow.ofRow? (row : Columns.ReadRow) : Option TextRow :=
  match row.words with
  | [offset, size, kind] => (count? (String.ofList size)).map fun size =>
    ⟨String.ofList offset, size, String.ofList kind, none, row.last⟩
  | [offset, size, kind, trailing] => (count? (String.ofList size)).map fun size =>
    ⟨String.ofList offset, size, String.ofList kind, some (String.ofList trailing), row.last⟩
  | _ => none

/-- The text of a listing as it can be read. -/
structure TextListing where
  /-- The name of the layout. -/
  codec : String
  /-- The entries, in their order. -/
  rows : List TextRow
  deriving DecidableEq, Repr

/-- Reads the text of a listing: the name of the layout, an empty line and a table. -/
def TextListing.read? : List String → Option TextListing
  | first :: second :: table =>
    if second.isEmpty then do
      let codec ← "Codec: ".toList.isPrefixOf? first.toList
      let rows ← (Columns.read "Value" table).mapM TextRow.ofRow?
      return ⟨String.ofList codec, rows⟩
    else none
  | _ => none

/-- **What the text of a listing shows of an entry:** everything but its string, and the string
but for blanks. -/
structure TextRow.Shows (row : TextRow) (entry : RecordEntry) : Prop where
  /-- The offset is there. -/
  offset : row.offset = entry.offset
  /-- The number of bytes is there. -/
  size : row.size = entry.size
  /-- It can be told whether there is a string. -/
  kind : row.kind = entry.kind
  /-- The byte after the string is there. -/
  trailing : row.trailing = entry.trailing
  /-- All characters of the string are there, in their order, but for blanks. -/
  ink : Blank.ink row.value.flatten = Blank.ink (entry.value.getD "").toList
  /-- A string that is not wider than columns may be stands on one line, and only the blanks at its
  end are missing. -/
  narrow : (entry.value.getD "").toList.length ≤ Columns.widest →
    row.value = [Blank.trimEnd (entry.value.getD "").toList]
  /-- No line is wider than columns may be. -/
  broken : ∀ line ∈ row.value, line.length ≤ Columns.widest

namespace RecordEntry

/-- The entry of a record whose offset and size are machine words. -/
def Addressed (entry : RecordEntry) : Prop :=
  ∃ offset < Numeral.limit, ∃ size < Numeral.limit, ∃ constant, entry = ofRecord offset size constant

/-- The cells in front of the string. -/
def front (entry : RecordEntry) : List String :=
  [entry.offset, toString entry.size, entry.kind, entry.trailing.getD ""]

end RecordEntry

/-- A text that stands as a word in a column. -/
structure IsWord (cell : List Char) : Prop where
  /-- There is something to read. -/
  ne_nil : cell ≠ []
  /-- There is no blank in it. -/
  solid : Blank.Solid cell
  /-- It is not wider than columns may be. -/
  narrow : cell.length ≤ Columns.widest

/-- No digit of a number is a blank, nor is a zero in front of them. -/
theorem solid_leftpad {radix : Nat} (hradix : 1 < radix) (hle : radix ≤ 16) (n width : Nat) :
    Blank.Solid ((Nat.toDigits radix n).leftpad width '0') := by
  intro c hc
  obtain ⟨d, hd, rfl⟩ := Numeral.exists_of_mem_leftpad hradix hc
  exact not_blank_of_digit (Nat.lt_of_lt_of_le hd hle)

/-- A machine word has no more digits than bits. -/
theorem length_leftpad_le {radix n width : Nat} (hradix : 1 < radix) (hn : n < Numeral.limit)
    (hwidth : width ≤ 64) : ((Nat.toDigits radix n).leftpad width '0').length ≤ 64 := by
  have hpow : n < radix ^ 64 := Nat.lt_of_lt_of_le hn (Nat.pow_le_pow_left hradix 64)
  have hlength : (Nat.toDigits radix n).length ≤ 64 :=
    (Nat.length_toDigits_le_iff hradix (by decide)).mpr hpow
  rw [List.length_leftpad]
  exact Nat.max_le.mpr ⟨hwidth, hlength⟩

/-- With the mark of the radix in front, digits are a word. -/
theorem IsWord.hex {chars : List Char} (hsolid : Blank.Solid chars) (hlength : chars.length ≤ 64) :
    IsWord ('0' :: 'x' :: chars) := by
  refine ⟨List.cons_ne_nil _ _, ?_, ?_⟩
  · exact List.forall_mem_cons.mpr ⟨rfl, List.forall_mem_cons.mpr ⟨rfl, hsolid⟩⟩
  · rw [List.length_cons, List.length_cons, Columns.widest]
    omega

namespace RecordEntry.Addressed

variable {entry : RecordEntry}

theorem isWord_offset (h : entry.Addressed) : IsWord entry.offset.toList := by
  obtain ⟨offset, hoffset, size, -, constant, rfl⟩ := h
  rw [ofRecord, offsetText, String.toList_ofList]
  exact .hex (solid_leftpad (by decide) (by decide) _ _)
    (length_leftpad_le (by decide) hoffset (by decide))

theorem size_lt (h : entry.Addressed) : entry.size < Numeral.limit := by
  obtain ⟨offset, -, size, hsize, constant, rfl⟩ := h
  exact hsize

theorem isWord_size (h : entry.Addressed) : IsWord (toString entry.size).toList := by
  rw [toList_toString]
  refine ⟨fun hnil => Nat.toDigits_ne_nil (List.append_eq_nil_iff.mp hnil).2,
    solid_leftpad (by decide) (by decide) _ _, ?_⟩
  exact Nat.le_trans (length_leftpad_le (by decide) h.size_lt (by decide)) (by decide)

theorem isWord_kind (h : entry.Addressed) : IsWord entry.kind.toList := by
  obtain ⟨offset, -, size, -, constant, rfl⟩ := h
  change IsWord (if constant.isNull then "null" else "string").toList
  split <;> exact ⟨by decide, by simp [Blank.Solid, Blank.isBlank], by decide⟩

theorem isWord_trailing (h : entry.Addressed) {trailing : String}
    (htrailing : entry.trailing = some trailing) : IsWord trailing.toList := by
  obtain ⟨offset, -, size, -, constant, rfl⟩ := h
  obtain ⟨byte, -, rfl⟩ := Option.map_eq_some_iff.mp htrailing
  have hbyte := byte.toNat_lt
  rw [String.toList_ofList]
  refine .hex (fun c hc => ?_) (show 2 ≤ 64 by decide)
  rw [Hex.ofByte, List.mem_pair] at hc
  rcases hc with rfl | rfl
  · exact not_blank_of_digit (by omega)
  · exact not_blank_of_digit (by omega)

/-- **In front of a string stand words**, but where there is no byte after it. -/
theorem isWord_of_mem (h : entry.Addressed) {cell : List Char}
    (hmem : cell ∈ entry.front.map String.toList) : cell = [] ∨ IsWord cell := by
  simp only [front, List.map_cons, List.map_nil, List.mem_cons, List.not_mem_nil, or_false] at hmem
  rcases hmem with rfl | rfl | rfl | rfl
  · exact .inr h.isWord_offset
  · exact .inr h.isWord_size
  · exact .inr h.isWord_kind
  · cases htrailing : entry.trailing with
    | none => exact .inl rfl
    | some trailing => exact .inr (h.isWord_trailing htrailing)

theorem legible (h : entry.Addressed) : Columns.Legible (entry.front.map String.toList) where
  narrow cell hmem := by
    rcases h.isWord_of_mem hmem with rfl | hword
    · exact Nat.zero_le _
    · exact hword.narrow
  solid cell hmem := by
    rcases h.isWord_of_mem hmem with rfl | hword
    · exact nofun
    · exact hword.solid
  some := ⟨entry.offset.toList, List.mem_cons_self, h.isWord_offset.ne_nil⟩

/-- **The row of an entry is read as the entry.** -/
theorem ofRow?_ofCells (h : entry.Addressed) (last : List Char) :
    TextRow.ofRow? (.ofCells (entry.front.map String.toList) last) =
      some ⟨entry.offset, entry.size, entry.kind, entry.trailing, Columns.lastLines last⟩ := by
  have hoffset := h.isWord_offset.ne_nil
  have hsize := h.isWord_size.ne_nil
  have hkind := h.isWord_kind.ne_nil
  have hcount := count?_toString h.size_lt
  cases htrailing : entry.trailing with
  | none =>
    have hwords : (entry.front.map String.toList).filter (!·.isEmpty) =
        [entry.offset.toList, (toString entry.size).toList, entry.kind.toList] := by
      simp_all [front]
    rw [Columns.ReadRow.ofCells, hwords]
    simp only [TextRow.ofRow?, String.ofList_toList, hcount, Option.map_some]
  | some trailing =>
    have htrailing' := (h.isWord_trailing htrailing).ne_nil
    have hwords : (entry.front.map String.toList).filter (!·.isEmpty) =
        [entry.offset.toList, (toString entry.size).toList, entry.kind.toList,
          trailing.toList] := by
      simp_all [front]
    rw [Columns.ReadRow.ofCells, hwords]
    simp only [TextRow.ofRow?, String.ofList_toList, hcount, Option.map_some]

end RecordEntry.Addressed

namespace TextListing

variable {entries : List RecordEntry}

/-- The table of a listing is read row by row. -/
theorem read_lines_cells (h : ∀ entry ∈ entries, entry.Addressed) :
    Columns.read "Value" (Columns.lines RecordEntry.columns (entries.map RecordEntry.cells)) =
      entries.map fun entry => .ofCells (entry.front.map String.toList)
        (entry.value.getD "").toList := by
  have hread := @Columns.read_lines RecordEntry.columns.dropLast ⟨"Value", .left⟩ (by decide) rfl
    (by decide) (by decide) (by decide)
    (entries.map fun entry => (entry.front, entry.value.getD "")) (by
      intro row hmem
      obtain ⟨entry, hentry, rfl⟩ := List.mem_map.mp hmem
      exact ⟨rfl, (h entry hentry).legible⟩)
  rw [List.map_map, List.map_map] at hread
  exact hread

/-- What is read of the rows shows the entries. -/
theorem exists_mapM_ofRow? (h : ∀ entry ∈ entries, entry.Addressed) :
    ∃ rows, (entries.map fun entry => Columns.ReadRow.ofCells (entry.front.map String.toList)
        (entry.value.getD "").toList).mapM TextRow.ofRow? = some rows ∧
      List.Forall₂ TextRow.Shows rows entries := by
  induction entries with
  | nil => exact ⟨[], rfl, .nil⟩
  | cons entry entries ih =>
    obtain ⟨hentry, hentries⟩ := List.forall_mem_cons.mp h
    obtain ⟨rows, hread, hshows⟩ := ih hentries
    have hrow := hentry.ofRow?_ofCells (entry.value.getD "").toList
    have hshow : TextRow.Shows ⟨entry.offset, entry.size, entry.kind, entry.trailing,
        Columns.lastLines (entry.value.getD "").toList⟩ entry :=
      ⟨rfl, rfl, rfl, rfl, Columns.ink_lastLines _, Columns.lastLines_of_le_widest,
        fun _ => Columns.length_le_of_mem_lastLines⟩
    refine ⟨_ :: rows, ?_, .cons hshow hshows⟩
    rw [List.map_cons, List.mapM_cons, hrow, hread]
    rfl

/-- **The text of a listing is read as its layout and its entries**, their strings but for blanks
where a line ends. -/
theorem read?_toLines (layout : Layout) (h : ∀ entry ∈ entries, entry.Addressed) :
    ∃ rows, read? (Product.records layout entries.toArray).toLines = some ⟨layout.name, rows⟩ ∧
      List.Forall₂ TextRow.Shows rows entries := by
  obtain ⟨rows, hread, hshows⟩ := exists_mapM_ofRow? h
  have hcodec : "Codec: ".toList.isPrefixOf? ("Codec: " ++ layout.name).toList =
      some layout.name.toList := by
    cases layout <;> decide
  refine ⟨rows, ?_, hshows⟩
  rw [Product.toLines, read?, List.toList_toArray, hcodec, read_lines_cells h, hread]
  simp [String.ofList_toList]

end TextListing

end CommandLine

end ChunkStrings
