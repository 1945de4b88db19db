import ChunkStrings.LengthInt
import ChunkStrings.StringConst

/-!
# The modern layout

A length, then the bytes of the string. The length counts one byte more than there are, so
that zero is left to stand for the absent string.
-/

namespace ChunkStrings.Modern

/-- Reads a record, byte after byte once all of them are known to be there. The first count of
the length stands for no byte. -/
def decode (format : ChunkFormat) : Decode StringConst := do
  let length ← LengthInt.decode format
  if length.value = 0 then
    return .null
  Decode.ensure (length.value - 1)
  Decode.clear
  length.iterate fun index => do
    if 0 < index then
      let byte ← Decode.byte
      Decode.keep byte
  let bytes ← Decode.kept
  return .ofBytes bytes

/-- Writes a record. Nothing is written when the length does not fit. -/
def write (format : ChunkFormat) : StringConst → Emit Unit
  | .null => do
    let length ← liftExcept (LengthInt.ofLength 0 format)
    length.write format
  | .present content _ => do
    let length ← liftExcept (LengthInt.ofLength (content.size + 1) format)
    length.write format
    Emit.bytes content

/-- The number of bytes of a record. -/
def encodedSize (format : ChunkFormat) : StringConst → Nat
  | .null => format.width.bytes
  | .present content _ => format.width.bytes + content.size

end ChunkStrings.Modern
