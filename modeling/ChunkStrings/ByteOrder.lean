import ChunkStrings.Bytes
import ChunkStrings.Fault

/-!
# Byte order

A chunk stores its integers with the least significant byte first or last, as a flag of its
header tells. `ByteOrder.encode` writes a number in a given count of bytes and
`ByteOrder.decode` reads any run of bytes as a number; the two are inverse to each other on
numbers that fit (`ByteOrder.decode_encode`) and on all runs of bytes
(`ByteOrder.encode_decode`).
-/

namespace ChunkStrings

/-- The order of the bytes of a stored integer. -/
inductive ByteOrder where
  /-- Least significant byte first. -/
  | little
  /-- Most significant byte first. -/
  | big
  deriving DecidableEq, Repr, Inhabited

namespace ByteOrder

/-! ### The flag of the chunk header -/

/-- The order that a header flag declares. -/
def ofFlag : UInt8 → Except Fault ByteOrder
  | 0 => .ok big
  | 1 => .ok little
  | flag => .error (.unknownOrderFlag flag)

/-- The flag that declares this order. -/
def flag : ByteOrder → UInt8
  | little => 1
  | big => 0

/-- The name of the order, as it is printed. -/
def name : ByteOrder → String
  | little => "little"
  | big => "big"

/-- Both orders, the common one first. -/
def all : List ByteOrder := [little, big]

theorem ofFlag_flag (order : ByteOrder) : ofFlag order.flag = .ok order := by
  cases order <;> rfl

/-! ### Numbers as bytes -/

/-- A number as `width` bytes; digits beyond the width are lost. -/
def encode : ByteOrder → (width value : Nat) → List UInt8
  | little, width, value => byteDigits width value
  | big, width, value => (byteDigits width value).reverse

/-- The number that a run of bytes stands for. -/
def decode : ByteOrder → List UInt8 → Nat
  | little, bytes => ofByteDigits bytes
  | big, bytes => ofByteDigits bytes.reverse

@[simp] theorem length_encode (order : ByteOrder) (width value : Nat) :
    (order.encode width value).length = width := by
  cases order <;> simp [encode]

/-- **A number that fits its width is read back as written.** -/
theorem decode_encode (order : ByteOrder) {width value : Nat} (h : value < byteLimit width) :
    order.decode (order.encode width value) = value := by
  cases order <;>
    simp [encode, decode, ofByteDigits_byteDigits, Nat.mod_eq_of_lt h]

/-- **Every run of bytes is what its number is written as**, so a stored integer has one
spelling per width. -/
theorem encode_decode (order : ByteOrder) (bytes : List UInt8) :
    order.encode bytes.length (order.decode bytes) = bytes := by
  cases order with
  | little => exact byteDigits_ofByteDigits bytes
  | big =>
    have h := byteDigits_ofByteDigits bytes.reverse
    rw [List.length_reverse] at h
    simp [encode, decode, h]

/-- A number read from `n` bytes fits into `n` bytes. -/
theorem decode_lt (order : ByteOrder) (bytes : List UInt8) :
    order.decode bytes < byteLimit bytes.length := by
  cases order with
  | little => exact ofByteDigits_lt bytes
  | big => simpa [decode] using ofByteDigits_lt bytes.reverse

end ByteOrder

end ChunkStrings
