import ChunkStrings.RecordReader

/-!
# Tables of records

Records written one after another into one buffer, together with the positions at which they
start. A constant that cannot be written adds no byte; its position is that of the next record.
-/

namespace ChunkStrings

/-- What writing one constant into a table came to. -/
structure TableEntry where
  /-- The length of the buffer before. -/
  start : Nat
  /-- The length of the buffer afterwards, or why nothing could be written. -/
  result : Except Fault Nat

/-- A buffer of records and how it came about. -/
structure RecordTable where
  /-- The records, one after another. -/
  data : ByteArray
  /-- One entry for every constant, in order. -/
  entries : Array TableEntry

namespace RecordTable

/-- A table without entries, in a buffer that may hold something in front of it. -/
def empty (front : ByteArray) : RecordTable := ⟨front, #[]⟩

/-- Adds a constant at the end of a table. -/
def add (layout : Layout) (format : ChunkFormat) (table : RecordTable)
    (constant : StringConst) : RecordTable :=
  match table with
  | ⟨data, entries⟩ =>
    let start := data.size
    match (layout.write format constant).run (.growing data) with
    | .ok _ sink => ⟨sink.written, entries.push ⟨start, .ok sink.written.size⟩⟩
    | .error fault sink => ⟨sink.written, entries.push ⟨start, .error fault⟩⟩

/-- Adds constants in order. -/
def addAll (layout : Layout) (format : ChunkFormat) (table : RecordTable)
    (constants : List StringConst) : RecordTable :=
  constants.foldl (add layout format) table

/-- The positions at which the entries start. -/
def starts (table : RecordTable) : List Nat :=
  table.entries.toList.map (·.start)

end RecordTable

end ChunkStrings
