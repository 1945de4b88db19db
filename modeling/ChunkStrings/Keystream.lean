/-!
# The keystream of compact strings

Compact records store their bytes combined with a keystream that depends on their number only.
A counter starts at that number less one; each key is the low byte of the remainder of the
counter by 255, and is then added to the counter. The counter is a signed word of 32 bits, so
it wraps in long buffers, and the remainder of a negative counter is negative.

The first byte is stored as it is, every later one is combined with one key by exclusive or.
Doing so twice gives the bytes back.
-/

namespace ChunkStrings.Keystream

/-- The key that a counter stands for. -/
def key (counter : Int32) : UInt8 :=
  (counter % 255).toUInt32.toUInt8

/-- The counter after its key is used. -/
def advance (counter : Int32) : Int32 :=
  counter + (key counter).toUInt32.toInt32

/-- The counter at the start of a buffer of this many bytes. -/
def start (length : Nat) : Int32 :=
  Int32.ofNat length - 1

/-- Combines one byte of a buffer with a key. -/
@[inline] def combineAt (buffer : ByteArray) (index : Nat) (key : UInt8) : ByteArray :=
  if h : index < buffer.size then buffer.set index (buffer[index] ^^^ key) h else buffer

/-- Combines `count` bytes of a buffer with the keys of a counter, from an index on. -/
def applyFrom : (count index : Nat) → (counter : Int32) → (buffer : ByteArray) → ByteArray
  | 0, _, _, buffer => buffer
  | count + 1, index, counter, buffer =>
    applyFrom count (index + 1) (advance counter) (combineAt buffer index (key counter))

/-- Combines all bytes of a buffer but the first with its keystream. -/
def apply (buffer : ByteArray) : ByteArray :=
  applyFrom (buffer.size - 1) 1 (start buffer.size) buffer

theorem size_combineAt (buffer : ByteArray) (index : Nat) (key : UInt8) :
    (combineAt buffer index key).size = buffer.size := by
  unfold combineAt
  split
  · exact Array.size_set _
  · rfl

@[simp] theorem size_applyFrom (count index : Nat) (counter : Int32) (buffer : ByteArray) :
    (applyFrom count index counter buffer).size = buffer.size := by
  induction count generalizing index counter buffer with
  | zero => rfl
  | succ count ih => rw [applyFrom, ih, size_combineAt]

/-- A buffer keeps its length. -/
@[simp] theorem size_apply (buffer : ByteArray) : (apply buffer).size = buffer.size :=
  size_applyFrom _ _ _ _

end ChunkStrings.Keystream
