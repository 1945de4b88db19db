import ChunkStrings.StoredUInt

/-!
# Words

Integers of a size that the machine has a word for: 8, 16, 32 or 64 bits. A word is read by
shifting its bytes in one after another, the most significant one first, and agrees with the
integer of as many bytes (`StoredUInt.readAt`).
-/

namespace ChunkStrings

/-- The sizes of words. -/
inductive WordSize where
  /-- A word of 8 bits. -/
  | bits8
  /-- A word of 16 bits. -/
  | bits16
  /-- A word of 32 bits. -/
  | bits32
  /-- A word of 64 bits. -/
  | bits64
  deriving DecidableEq, Repr

/-- The number of bytes of a word. -/
def WordSize.bytes : WordSize → Nat
  | bits8 => 1
  | bits16 => 2
  | bits32 => 4
  | bits64 => 8

/-- A word of this size. -/
abbrev Word (size : WordSize) := BitVec (8 * size.bytes)

namespace Word

/-- Moves a word up by one byte and puts a byte into the gap. -/
def shiftIn {size : WordSize} (word : Word size) (byte : UInt8) : Word size :=
  (word <<< 8) ||| BitVec.ofNat _ byte.toNat

/-- The word that a run of bytes stands for. -/
def ofBytes (size : WordSize) : ByteOrder → List UInt8 → Word size
  | .little, bytes => bytes.foldr (fun byte word => shiftIn word byte) 0
  | .big, bytes => bytes.foldl shiftIn 0

/-- The word at an offset of the data, and the offset after it. -/
def readAt (size : WordSize) (data : ByteArray) (offset : Nat) (order : ByteOrder) :
    Except Fault (Word size × Nat) := do
  let bytes ← StoredUInt.window data offset size.bytes
  return (ofBytes size order bytes.data.toList, offset + size.bytes)

/-! ### The value of a word -/

/-- Nothing is lost at the top of a word that has room for one more byte. -/
theorem toNat_shiftIn {size : WordSize} {word : Word size} (byte : UInt8)
    (h : 256 * word.toNat + byte.toNat < byteLimit size.bytes) :
    (shiftIn word byte).toNat = byte.toNat + 256 * word.toNat := by
  have hbyte := UInt8.toNat_lt byte
  have hlimit : byteLimit size.bytes = 2 ^ (8 * size.bytes) := by
    cases size <;> decide
  have hle : 2 ^ 8 ≤ 2 ^ (8 * size.bytes) := by
    cases size <;> decide
  have hlow : byte.toNat % 2 ^ (8 * size.bytes) = byte.toNat := Nat.mod_eq_of_lt (by omega)
  have hhigh : (word.toNat <<< 8) % 2 ^ (8 * size.bytes) = word.toNat <<< 8 :=
    Nat.mod_eq_of_lt (by rw [Nat.shiftLeft_eq]; omega)
  rw [shiftIn, BitVec.toNat_or, BitVec.toNat_shiftLeft, BitVec.toNat_ofNat, hhigh, hlow,
    ← Nat.shiftLeft_add_eq_or_of_lt hbyte, Nat.shiftLeft_eq]
  omega

/-- Bytes that are shifted in one after another are the digits of the word. -/
theorem toNat_foldr_shiftIn {size : WordSize} {bytes : List UInt8}
    (h : bytes.length ≤ size.bytes) :
    (bytes.foldr (fun byte word => shiftIn word byte) (0 : Word size)).toNat =
      ofByteDigits bytes := by
  induction bytes with
  | nil => simp [ofByteDigits]
  | cons byte bytes ih =>
    have hrest := ih (Nat.le_of_succ_le h)
    have hlt := ofByteDigits_lt (byte :: bytes)
    rw [ofByteDigits] at hlt ⊢
    rw [List.foldr_cons, toNat_shiftIn, hrest]
    rw [hrest, Nat.add_comm]
    exact Nat.lt_of_lt_of_le hlt (byteLimit_mono h)

/-- **A word is the integer of its bytes**, as far as they fit into it. -/
theorem toNat_ofBytes {size : WordSize} {bytes : List UInt8} (order : ByteOrder)
    (h : bytes.length ≤ size.bytes) :
    (ofBytes size order bytes).toNat = order.decode bytes := by
  cases order with
  | little => exact toNat_foldr_shiftIn h
  | big =>
    rw [ofBytes, List.foldl_eq_foldr_reverse]
    exact toNat_foldr_shiftIn (by rwa [List.length_reverse])

end Word

end ChunkStrings
