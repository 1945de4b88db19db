import ChunkStrings.Layout

/-!
# Reading record after record

A reader joins the format of a chunk with the layout that its generation selects, and reads
consecutive records. Reading several at once is a transaction: either all are there, or the
cursor is back where it was, though what was logged on the way stays logged.
-/

namespace ChunkStrings

/-- A format and the layout of its records. -/
structure RecordReader where
  /-- The layout of the records. -/
  layout : Layout
  /-- The format of the chunk. -/
  format : ChunkFormat
  deriving DecidableEq, Repr

namespace RecordReader

/-- The reader for chunks of this format. -/
def ofFormat (format : ChunkFormat) : Except Fault RecordReader :=
  (Layout.ofFormat format).map fun layout => ⟨layout, format⟩

/-- Reads the next record. -/
def read (reader : RecordReader) : Decode StringConst :=
  reader.layout.decodeTraced reader.format

/-- Reads so many records onto those read before. -/
def readOnto (reader : RecordReader) :
    (count : Nat) → (before : Array StringConst) → Decode (Array StringConst)
  | 0, before => return before
  | count + 1, before => do
    let constant ← reader.read
    reader.readOnto count (before.push constant)

/-- Reads so many records, or leaves the cursor where it is. -/
def readN (reader : RecordReader) (count : Nat) : Decode (Array StringConst) :=
  Decode.transaction (reader.readOnto count #[])

/-- Reads one record after another, at most so many, until no data is left or a record cannot be
read. The result lists what every read came to, with the fault of the last one if it failed. -/
def readUntil (reader : RecordReader) :
    (most : Nat) → DecodeState → List (Except Fault StringConst) × DecodeState
  | 0, state => ([], state)
  | most + 1, state =>
    if state.cursor.hasMore then
      match reader.read.run state with
      | .ok constant state =>
        let (results, state) := reader.readUntil most state
        (.ok constant :: results, state)
      | .error fault state => ([.error fault], state)
    else ([], state)

end RecordReader

end ChunkStrings
