import ChunkStrings.Bytes
import ChunkStrings.Text.Escape

/-!
# Lines of the log

What decoding tells about itself on the side, as data: that a string was read, and that a
record announced its length in the long form. The wording is in `LogLine.message` alone.
-/

namespace ChunkStrings

/-- Something worth a line of the log. -/
inductive LogLine where
  /-- A string with this content was read. -/
  | parsed (content : ByteArray)
  /-- A record has a length field of its own, with this value. -/
  | extendedSize (size : Nat)
  deriving DecidableEq

namespace LogLine

/-- How detailed a line of the log is. -/
inductive Level where
  /-- Of interest to whoever looks into a chunk. -/
  | debug
  /-- Of interest to whoever looks into the decoder. -/
  | trace
  deriving DecidableEq, Repr

/-- The name of a level, as it is printed. -/
def Level.name : Level → String
  | debug => "DEBUG"
  | trace => "TRACE"

/-- The level of a line. -/
def level : LogLine → Level
  | parsed _ => .debug
  | extendedSize _ => .trace

/-- The wording of a line. -/
def message : LogLine → String
  | parsed content => "-- parsed <string> " ++ Escape.quoted content
  | extendedSize size => s!"extended string size {size}"

end LogLine

end ChunkStrings
