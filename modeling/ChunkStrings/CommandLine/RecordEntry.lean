import ChunkStrings.StringConst
import ChunkStrings.Text.Columns
import ChunkStrings.Text.Json

/-!
# Entries of a listing

One line of what `decode` prints: where a record starts, how many bytes it takes, and the
constant it holds, each as the text it is shown as. Escaping keeps entries apart: two
constants have the same kind, trailing byte and value only if they are equal.
-/

namespace ChunkStrings.CommandLine

/-- A record, as it is shown. -/
structure RecordEntry where
  /-- The offset of the record. -/
  offset : String
  /-- The number of its bytes. -/
  size : Nat
  /-- Whether there is a string. -/
  kind : String
  /-- The byte stored after the string. -/
  trailing : Option String
  /-- The string, escaped. -/
  value : Option String
  deriving DecidableEq, Repr

namespace RecordEntry

/-- The text of an offset. -/
def offsetText (offset : Nat) : String :=
  String.ofList ('0' :: 'x' :: Hex.ofNat offset 6)

/-- The entry of a constant whose record starts at an offset and has so many bytes. -/
def ofRecord (offset size : Nat) (constant : StringConst) : RecordEntry where
  offset := offsetText offset
  size := size
  kind := if constant.isNull then "null" else "string"
  trailing := constant.trailing?.map fun byte => String.ofList ('0' :: 'x' :: Hex.ofByte byte)
  value := constant.content?.map Escape.text

/-- The columns of the listing. -/
def columns : List Column :=
  [⟨"Offset", .left⟩, ⟨"Size", .right⟩, ⟨"Kind", .left⟩, ⟨"Trailing", .left⟩, ⟨"Value", .left⟩]

/-- The cells of an entry, in the order of the columns. -/
def cells (entry : RecordEntry) : List String :=
  [entry.offset, toString entry.size, entry.kind, entry.trailing.getD "", entry.value.getD ""]

/-- A text that may be missing, as JSON. -/
def optionalJson : Option String → Json
  | none => .null
  | some text => .text text

/-- An entry as JSON. -/
def toJson (entry : RecordEntry) : Json :=
  .object
    [("offset", .text entry.offset), ("size", .number entry.size), ("kind", .text entry.kind),
      ("trailing", optionalJson entry.trailing), ("value", optionalJson entry.value)]

end RecordEntry

end ChunkStrings.CommandLine
