import ChunkStrings.LengthInt
import ChunkStrings.StringConst

/-!
# The legacy layout

A length, then as many bytes: the string and one more behind it, which is kept but not looked
at. A length of zero stands for the absent string. What is written has a zero byte at the
end, whatever stood there when the string was read.
-/

namespace ChunkStrings.Legacy

/-- Reads a record, byte after byte once all of them are known to be there. -/
def decode (format : ChunkFormat) : Decode StringConst := do
  let length ← LengthInt.decode format
  Decode.ensure length.value
  Decode.clear
  length.iterate fun _ => do
    let byte ← Decode.byte
    Decode.keep byte
  let bytes ← Decode.kept
  return .ofTerminated bytes

/-- Writes a record. Nothing is written when the length does not fit. -/
def write (format : ChunkFormat) : StringConst → Emit Unit
  | .null => do
    let length ← liftExcept (LengthInt.ofLength 0 format)
    length.write format
  | .present content _ => do
    let length ← liftExcept (LengthInt.ofLength (content.size + 1) format)
    length.write format
    Emit.bytes content
    Emit.byte 0x00

/-- The number of bytes of a record. -/
def encodedSize (format : ChunkFormat) : StringConst → Nat
  | .null => format.width.bytes
  | .present content _ => format.width.bytes + content.size + 1

end ChunkStrings.Legacy
