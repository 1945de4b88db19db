import ChunkStrings.CommandLine.Failure
import ChunkStrings.CommandLine.RecordEntry
import ChunkStrings.CommandLine.Request
import ChunkStrings.RecordReader
import ChunkStrings.Source

/-!
# Carrying out a command

A command first settles the format of the chunk: the generation tag, the byte order and the
width are checked in this order, and the layout is selected last. To decode is then to load the
file, to find the first offset, and to read one record after another; to encode is to write one
record. `Command.perform` gives the product of a command or the failure that ended it, and what
it logged on the way; nothing is printed before that is settled.
-/

namespace ChunkStrings.CommandLine

/-! ### Settings of a command -/

/-- The number that a text given by the user stands for. -/
def readNumber (text : String) : Except Failure Nat :=
  match Numeral.ofText text with
  | (_, .ok value) => .ok value
  | (radix, .error fault) => .error (.number text radix fault)

/-- The generation tag that a text stands for. -/
def readGeneration (text : String) : Except Failure UInt8 := do
  let value ← readNumber text
  if value < 256 then return UInt8.ofNat value
  else throw (.generationRange value)

/-- The byte order that the options ask for. -/
def FormatOptions.order (options : FormatOptions) : Except Failure ByteOrder :=
  match options.orderFlag with
  | some flag => (ByteOrder.ofFlag flag).mapError .header
  | none => .ok (if options.bigEndian then .big else .little)

/-- The format that the options describe. -/
def FormatOptions.resolve (options : FormatOptions) (traced : Bool) :
    Except Failure ChunkFormat := do
  let generation ← readGeneration options.generation
  let order ← options.order
  let format ← (ChunkFormat.ofHeader generation options.width.toNat).mapError .format
  return (format.withOrder order).withTracing traced

/-! ### Carrying out a command -/

/-- What a command produces. -/
inductive Product where
  /-- A listing of records of this layout. -/
  | records (layout : Layout) (entries : Array RecordEntry)
  /-- The bytes of a record of this layout. -/
  | encoding (layout : Layout) (bytes : ByteArray)
  deriving DecidableEq

/-- What became of a command. -/
structure Performance where
  /-- The lines it logged, most of them only of use to the curious. -/
  log : List String
  /-- Its product, or why there is none. -/
  result : Except Failure Product

/-- The log line about the format of the chunk. -/
def formatLine (format : ChunkFormat) : String :=
  "chunk format: generation 0x" ++ String.ofList (Hex.ofByte format.generation) ++
    s!", size_t {format.width.bytes}, {format.order.name} endian (flag {format.order.flag})"

/-- The lines of a log at the level that is shown. -/
def shownLines (log : Array LogLine) : List String :=
  (log.toList.filter fun line => line.level = .debug).map LogLine.message

/-- The greatest number of bytes that a table may take. Every smaller table is taken to find its
room: how much memory a machine really has is not part of the account. -/
def memoryLimit : Nat := 0x7ffffffffffffff8

/-- The number of bytes that a table takes for one record. -/
def entrySize : Nat := 96

/-- Reads so many records onto the entries of those before them. -/
def readEntries (reader : RecordReader) : (count : Nat) → Array RecordEntry → DecodeState →
    Except Failure (Array RecordEntry) × DecodeState
  | 0, entries, state => (.ok entries, state)
  | count + 1, entries, state =>
    let offset := state.cursor.pos
    match reader.read.run state with
    | .error fault state => (.error (.record offset fault), state)
    | .ok constant state =>
      let entry := RecordEntry.ofRecord offset (state.cursor.pos - offset) constant
      readEntries reader count (entries.push entry) state

/-- The cursor at the first record: the file is loaded before the offset is looked at. -/
def locate (path : String) (entry : DiskEntry) (offset : Option String) :
    Except Failure Cursor := do
  let source ← (Source.load entry).mapError (.load path)
  let start ← match offset with
    | some text => readNumber text
    | none => pure 0
  (source.cursorAt start).mapError (.position start)

/-- Reads records from a cursor on, into a table that is laid out for all of them at first. -/
def listRecords (reader : RecordReader) (cursor : Cursor) (count : Nat) :
    Except Failure (Array RecordEntry) × Array LogLine :=
  if entrySize * count ≤ memoryLimit then
    let (entries, state) := readEntries reader count #[] ⟨cursor, .empty, #[]⟩
    (entries, state.log)
  else (.error (.tableTooLarge count), #[])

/-- Lists records of a file. -/
def decodeFile (reader : RecordReader) (path : String) (entry : DiskEntry)
    (offset : Option String) (count : Nat) : Except Failure Product × Array LogLine :=
  match locate path entry offset with
  | .error failure => (.error failure, #[])
  | .ok cursor =>
    let (entries, log) := listRecords reader cursor count
    (entries.map (.records reader.layout), log)

/-- Encodes a text, or the absent string. -/
def encodeText (reader : RecordReader) (text : Option String) : Except Failure Product :=
  let constant := text.elim .null StringConst.ofText
  ((reader.layout.encode reader.format constant).mapError .encoding).map
    (.encoding reader.layout)

/-- The format options of a command. -/
def Command.options : Command → FormatOptions
  | .decode _ format _ _ => format
  | .encode format _ => format

/-- Carries out a command. -/
def Command.perform (command : Command) (traced : Bool) (files : String → DiskEntry) :
    Performance :=
  match command.options.resolve traced with
  | .error failure => ⟨[], .error failure⟩
  | .ok format =>
    match (RecordReader.ofFormat format).mapError Failure.generation with
    | .error failure => ⟨[formatLine format], .error failure⟩
    | .ok reader =>
      match command with
      | .decode path _ offset count =>
        let (result, log) := decodeFile reader path (files path) offset count
        ⟨formatLine format :: shownLines log, result⟩
      | .encode _ text => ⟨[formatLine format], encodeText reader text⟩

end ChunkStrings.CommandLine
