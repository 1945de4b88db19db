import ChunkStrings.ByteOrder
import ChunkStrings.Sink
import ChunkStrings.Width

/-!
# Integers stored in a given number of bytes

Reading and writing of an unsigned integer whose width and byte order are data of the chunk,
not of the program. A read looks at any offset of any data, also past the end, where no byte
is available; a write asks for a width that holds the value. Reading is inverse to writing
since `ByteOrder.decode` is inverse to `ByteOrder.encode`.
-/

namespace ChunkStrings.StoredUInt

/-- Whether a value fits into so many bytes. -/
def fits (value width : Nat) : Bool := value < byteLimit width

/-- The bytes of the data from an offset on, as many as are asked for. -/
def window (data : ByteArray) (offset length : Nat) : Except Fault ByteArray :=
  let available := data.size - offset
  if length ≤ available then .ok (data.extract offset (offset + length))
  else .error (.truncated length available)

/-- The integer at an offset of the data, and the offset after it. -/
def readAt (data : ByteArray) (offset width : Nat) (order : ByteOrder) :
    Except Fault (Nat × Nat) := do
  let width ← Width.ofNat width
  let bytes ← window data offset width.bytes
  return (order.decode bytes.data.toList, offset + width.bytes)

/-- Writes a value as an integer of so many bytes. -/
def write (value width : Nat) (order : ByteOrder) : Emit Unit := do
  let width ← liftExcept (Width.ofNat width)
  if fits value width.bytes then
    Emit.bytes (order.encode width.bytes value).toByteArray
  else throw (.valueTooLarge value width.bytes)

end ChunkStrings.StoredUInt
