import ChunkStrings.Keystream
import ChunkStrings.LengthInt
import ChunkStrings.StringConst

/-!
# The compact layout

A size byte, then as many bytes of the string, combined with their keystream. The size byte
zero stands for the absent string, and the greatest one, `Compact.extended`, says that a length
of its own follows.

The two directions do not fit together: the writer counts one byte more than it writes and
leaves the keystream out. What it writes is not what the reader reads.
-/

namespace ChunkStrings.Compact

/-- The size byte in front of a length. -/
def extended : UInt8 := 0xff

/-- Reads the number of bytes of the string, behind a size byte other than zero. -/
def decodeSize (format : ChunkFormat) (first : UInt8) : Decode Nat := do
  if first = extended then
    let length ← LengthInt.decode format
    Decode.note (.extendedSize length.value)
    return length.value
  else
    return first.toNat

/-- Reads a record. -/
def decode (format : ChunkFormat) : Decode StringConst := do
  let first ← Decode.byte
  if first = 0 then
    return .null
  let size ← decodeSize format first
  Decode.clear
  let stored ← Decode.take size
  Decode.keepAll stored
  Decode.changeKept Keystream.apply
  let bytes ← Decode.kept
  return .ofBytes bytes

/-- Writes a record. The length is checked before the first byte is written. -/
def write (format : ChunkFormat) : StringConst → Emit Unit
  | .null => Emit.byte 0x00
  | .present content _ => do
    let size := content.size + 1
    if size < extended.toNat then
      Emit.byte (UInt8.ofNat size)
    else
      let length ← liftExcept (LengthInt.ofLength size format)
      Emit.byte extended
      length.write format
    Emit.bytes content

/-- The number of bytes of a record. -/
def encodedSize (format : ChunkFormat) : StringConst → Nat
  | .null => 1
  | .present content _ =>
    if content.size + 1 < extended.toNat then 1 + content.size
    else 1 + format.width.bytes + content.size

end ChunkStrings.Compact
