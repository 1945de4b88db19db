/-!
# Bytes as digits

A run of bytes spells a number to the base 256. `byteDigits` gives the digits of a number, the
least significant one first and as many as are asked for, and `ofByteDigits` the number that
digits spell; numbers below `byteLimit` are told apart by so many digits, and no others.
-/

namespace ChunkStrings

/-- Byte arrays are equal when they hold the same bytes, and this is how it is decided. -/
instance decidableEqBytes : DecidableEq ByteArray := ByteArray.instDecidableEq

/-- The first number that so many digits are too few for. -/
def byteLimit : (width : Nat) → Nat
  | 0 => 1
  | width + 1 => 256 * byteLimit width

/-- The `width` low digits of a number to the base 256, least significant first. -/
def byteDigits : (width value : Nat) → List UInt8
  | 0, _ => []
  | width + 1, value => UInt8.ofNat (value % 256) :: byteDigits width (value / 256)

/-- The number with these digits to the base 256, least significant first. -/
def ofByteDigits : List UInt8 → Nat
  | [] => 0
  | digit :: digits => digit.toNat + 256 * ofByteDigits digits

/-- Zero fits into any number of digits, even into none. -/
theorem byteLimit_pos (width : Nat) : 0 < byteLimit width := by
  induction width with
  | zero => exact Nat.one_pos
  | succ width ih => exact Nat.mul_pos (by decide) ih

/-- More digits are good for more numbers. -/
theorem byteLimit_mono {m n : Nat} (h : m ≤ n) : byteLimit m ≤ byteLimit n := by
  induction h with
  | refl => exact Nat.le_refl _
  | step _ ih => exact Nat.le_trans ih (Nat.le_mul_of_pos_left _ (by decide))

@[simp] theorem length_byteDigits (width value : Nat) :
    (byteDigits width value).length = width := by
  induction width generalizing value with
  | zero => rfl
  | succ width ih => simp [byteDigits, ih]

/-- As many digits as the width tell the remainder by the place value above them. -/
theorem ofByteDigits_byteDigits (width value : Nat) :
    ofByteDigits (byteDigits width value) = value % byteLimit width := by
  induction width generalizing value with
  | zero => simp [byteDigits, ofByteDigits, byteLimit, Nat.mod_one]
  | succ width ih =>
    have h : (UInt8.ofNat (value % 256)).toNat = value % 256 := by
      simp
    rw [byteDigits, ofByteDigits, ih, h, byteLimit, Nat.mod_mul]

/-- Digits are determined by the number they spell. -/
theorem byteDigits_ofByteDigits (digits : List UInt8) :
    byteDigits digits.length (ofByteDigits digits) = digits := by
  induction digits with
  | nil => rfl
  | cons digit digits ih =>
    have hlt := UInt8.toNat_lt digit
    have hmod : (digit.toNat + 256 * ofByteDigits digits) % 256 = digit.toNat := by omega
    have hdiv : (digit.toNat + 256 * ofByteDigits digits) / 256 = ofByteDigits digits := by
      omega
    simp [byteDigits, ofByteDigits, hmod, hdiv, ih]

/-- A number of `n` digits is below the place value of the digit after them. -/
theorem ofByteDigits_lt (digits : List UInt8) :
    ofByteDigits digits < byteLimit digits.length := by
  induction digits with
  | nil => exact Nat.one_pos
  | cons digit digits ih =>
    have hlt := UInt8.toNat_lt digit
    rw [ofByteDigits, List.length_cons, byteLimit]
    omega

end ChunkStrings
