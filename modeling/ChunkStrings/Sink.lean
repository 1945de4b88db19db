import ChunkStrings.Bytes
import ChunkStrings.Fault

/-!
# Sinks

The place that encoded bytes go to: a buffer that grows without end, or one with room for so
many bytes and no more. A write puts in what there is room for; when that is not everything,
it fails, and what was put in stays.

`Emit` is a computation that writes. It keeps the sink when it fails, so a later write can only
add to what an earlier one left.
-/

namespace ChunkStrings

/-- A buffer that takes bytes at its end. -/
structure Sink where
  /-- What the buffer holds. -/
  written : ByteArray
  /-- How many more bytes it takes, if there is an end to it. -/
  room : Option Nat
  deriving DecidableEq

/-- A computation that writes into a sink and may fail. -/
abbrev Emit (α : Type) := EStateM Fault Sink α

namespace Sink

/-- A buffer that grows, with something in it already. -/
def growing (written : ByteArray) : Sink := ⟨written, none⟩

/-- A buffer with something in it already, and room for so many bytes more. -/
def bounded (written : ByteArray) (room : Nat) : Sink := ⟨written, some room⟩

end Sink

namespace Emit

/-- Writes the bytes one after another, as far as there is room. -/
def bytes (bytes : ByteArray) : Emit Unit
  | ⟨written, none⟩ => .ok () ⟨written ++ bytes, none⟩
  | ⟨written, some room⟩ =>
    if bytes.size ≤ room then .ok () ⟨written ++ bytes, some (room - bytes.size)⟩
    else .error .sinkFull ⟨written ++ bytes.extract 0 room, some 0⟩

/-- Writes a single byte. -/
def byte (byte : UInt8) : Emit Unit :=
  bytes [byte].toByteArray

@[simp] theorem run_bytes_growing (bytes written : ByteArray) :
    (Emit.bytes bytes).run (.growing written) = .ok () (.growing (written ++ bytes)) := rfl

theorem run_bytes_of_le {bytes written : ByteArray} {room : Nat} (h : bytes.size ≤ room) :
    (Emit.bytes bytes).run (.bounded written room) =
      .ok () (.bounded (written ++ bytes) (room - bytes.size)) := by
  simp only [Emit.bytes, EStateM.run, Sink.bounded, h, if_true]

theorem run_bytes_of_lt {bytes written : ByteArray} {room : Nat} (h : room < bytes.size) :
    (Emit.bytes bytes).run (.bounded written room) =
      .error .sinkFull (.bounded (written ++ bytes.extract 0 room) 0) := by
  simp only [Emit.bytes, EStateM.run, Sink.bounded, Nat.not_le.mpr h, if_false]

end Emit

end ChunkStrings
