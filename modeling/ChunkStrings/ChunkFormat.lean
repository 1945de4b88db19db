import ChunkStrings.ByteOrder
import ChunkStrings.Width

/-!
# The declared format of a chunk

What the header of a chunk says about its string records: the generation, which selects their
layout, the width of the lengths in front of them, and the byte order of these. The generation
is kept as it is declared; whether a layout belongs to it is asked when one is needed.
-/

namespace ChunkStrings

/-- The format that a chunk declares. -/
structure ChunkFormat where
  /-- The generation tag of the chunk. -/
  generation : UInt8
  /-- How many bytes a length takes. -/
  width : Width
  /-- The order of these bytes. -/
  order : ByteOrder
  /-- Whether every string that is read is logged. -/
  traced : Bool
  deriving DecidableEq, Repr

namespace ChunkFormat

/-- The format of this generation with lengths of so many bytes, in the common byte order and
without tracing. -/
def ofHeader (generation : UInt8) (width : Nat) : Except Fault ChunkFormat :=
  (Width.ofNat width).map fun width => ⟨generation, width, .little, false⟩

/-- The same format with another byte order. -/
def withOrder (format : ChunkFormat) (order : ByteOrder) : ChunkFormat := { format with order }

/-- The same format with tracing switched on or off. -/
def withTracing (format : ChunkFormat) (traced : Bool) : ChunkFormat := { format with traced }

end ChunkFormat

end ChunkStrings
