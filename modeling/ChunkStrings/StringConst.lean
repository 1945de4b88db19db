import ChunkStrings.Bytes
import ChunkStrings.Text.Escape
import ChunkStrings.Text.Lossy

/-!
# String constants

What a string record holds: no string at all, or a string of arbitrary bytes. A layout may
store a byte after the string; when it does, that byte is part of the constant, and two
constants that differ in nothing else are still different.
-/

namespace ChunkStrings

/-- A string constant of a chunk. -/
inductive StringConst where
  /-- No string. -/
  | null
  /-- A string and the byte stored after it, if the layout has one. -/
  | present (content : ByteArray) (trailing : Option UInt8)
  deriving DecidableEq

namespace StringConst

instance : Inhabited StringConst := ⟨null⟩

/-- The string of these bytes, with nothing after it. -/
def ofBytes (content : ByteArray) : StringConst := present content none

/-- The string of this text, with nothing after it. -/
def ofText (text : String) : StringConst := ofBytes text.toByteArray

/-- The constant whose bytes are stored with one more behind them; no byte at all stands for
the absent string. -/
def ofTerminated (bytes : ByteArray) : StringConst :=
  if h : 0 < bytes.size then
    present (bytes.extract 0 (bytes.size - 1)) (some bytes[bytes.size - 1])
  else null

/-- Whether there is no string. -/
def isNull : StringConst → Bool
  | null => true
  | present _ _ => false

/-- The bytes of the string, if there is one. -/
def content? : StringConst → Option ByteArray
  | null => none
  | present content _ => some content

/-- The byte stored after the string, if there is one. -/
def trailing? : StringConst → Option UInt8
  | null => none
  | present _ trailing => trailing

/-- The string read as text, with replacements for what is not UTF-8. -/
def lossy? (constant : StringConst) : Option String :=
  constant.content?.map Lossy.text

/-- The constant as it is shown to the user. -/
def display : StringConst → String
  | null => "null"
  | present content _ => Escape.quoted content

end StringConst

end ChunkStrings
