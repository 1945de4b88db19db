import ChunkStrings.ChunkFormat
import ChunkStrings.Decode

/-!
# Length integers

The lengths in front of variable records: an unsigned integer together with the width it is
stored in, which it fits by construction. A length is read with the width of the chunk and
written with its own, and `LengthInt.iterate` runs an action once for every unit of it.
-/

namespace ChunkStrings

/-- An unsigned integer that fits into its width. -/
structure LengthInt where
  /-- The value. -/
  value : Nat
  /-- The width that the value is stored in. -/
  width : Width
  /-- The width holds the value. -/
  fits : value < width.limit
  deriving DecidableEq, Repr

namespace LengthInt

/-- The length of this value and width. -/
def ofValue (value : Nat) (width : Width) : Except Fault LengthInt :=
  if h : value < width.limit then .ok ⟨value, width, h⟩
  else .error (.valueTooLarge value width.bytes)

/-- The length of this value, stored in so many bytes. -/
def ofParts (value width : Nat) : Except Fault LengthInt :=
  Width.ofNat width >>= ofValue value

/-- A length in the width of the chunk. -/
def ofLength (length : Nat) (format : ChunkFormat) : Except Fault LengthInt :=
  ofValue length format.width

/-- The length that as many bytes as the chunk's width stand for. -/
def ofBytes (format : ChunkFormat) (bytes : List UInt8)
    (h : bytes.length = format.width.bytes) : LengthInt where
  value := format.order.decode bytes
  width := format.width
  fits := by
    have := format.order.decode_lt bytes
    rwa [h] at this

/-- Reads a length in the width and byte order of the chunk. -/
def decode (format : ChunkFormat) : Decode LengthInt :=
  Decode.onCursor fun cursor =>
    if h : format.width.bytes ≤ cursor.remaining then
      let bytes := cursor.data.extract cursor.pos (cursor.pos + format.width.bytes)
      let length := ofBytes format bytes.data.toList (by
        have := cursor.pos_add_remaining
        rw [Array.length_toList]
        exact (ByteArray.size_extract).trans (by omega))
      .ok (length, cursor.advance format.width.bytes h)
    else .error (.truncated format.width.bytes cursor.remaining)

/-- Writes a length in its own width and the byte order of the chunk. -/
def write (length : LengthInt) (format : ChunkFormat) : Emit Unit :=
  StoredUInt.write length.value length.width.bytes format.order

/-! ### Doing something so many times -/

/-- Runs an action for `count` indexes from `index` on, in order. -/
@[specialize] def forIndexes {m : Type → Type} [Monad m] (action : Nat → m Unit) :
    (count index : Nat) → m Unit
  | 0, _ => pure ()
  | count + 1, index => do
    action index
    forIndexes action count (index + 1)

/-- Runs an action once for every index below the value, in order, until one fails. -/
@[inline] def iterate {m : Type → Type} [Monad m] (length : LengthInt)
    (action : Nat → m Unit) : m Unit :=
  forIndexes action length.value 0

end LengthInt

end ChunkStrings
