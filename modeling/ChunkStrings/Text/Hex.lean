/-!
# Hexadecimal text

Bytes and numbers as hexadecimal digits, in the three forms the library prints: the two
digits of a byte (`Hex.ofByte`), the digits of a number padded to a least length
(`Hex.ofNat`), and a run of bytes as pairs parted by single blanks (`Hex.pairs`). All
digits are lower case; `Hex.upperByte` is the one exception, for generation tags.

The pairs of `Hex.pairs` read back (`Hex.readPairs?`): nothing but two digits and a blank
between neighbours is accepted.
-/

namespace ChunkStrings.Hex

/-! ### Bytes -/

/-- The two lower-case digits of a byte. -/
def ofByte (byte : UInt8) : List Char :=
  [Nat.digitChar (byte.toNat / 16), Nat.digitChar (byte.toNat % 16)]

/-- The two upper-case digits of a byte. -/
def upperByte (byte : UInt8) : List Char :=
  (ofByte byte).map Char.toUpper

/-- The bytes one after another, two digits each. -/
def compact (bytes : List UInt8) : List Char :=
  bytes.flatMap ofByte

/-- The bytes as pairs of digits with one blank between neighbours. -/
def pairs (bytes : List UInt8) : List Char :=
  (bytes.flatMap fun byte => ' ' :: ofByte byte).tail

/-! ### Numbers -/

/-- The digits of a number, filled up with leading zeros to `width` of them. -/
def ofNat (n : Nat) (width : Nat := 1) : List Char :=
  (Nat.toDigits 16 n).leftpad width '0'

/-! ### Reading back -/

/-- The value of a lower-case digit. -/
def digit? (c : Char) : Option Nat :=
  if '0' ≤ c ∧ c ≤ '9' then some (c.toNat - '0'.toNat)
  else if 'a' ≤ c ∧ c ≤ 'f' then some (c.toNat - 'a'.toNat + 10)
  else none

/-- The byte with these two digits. -/
def byte? (high low : Char) : Option UInt8 :=
  match digit? high, digit? low with
  | some h, some l => some (UInt8.ofNat (16 * h + l))
  | _, _ => none

/-- Reads what `compact` writes: an even number of lower-case digits. -/
def readCompact? : List Char → Option (List UInt8)
  | [] => some []
  | high :: low :: rest =>
    match byte? high low, readCompact? rest with
    | some byte, some bytes => some (byte :: bytes)
    | _, _ => none
  | _ => none

/-- Reads what `pairs` writes: pairs of lower-case digits, one blank between neighbours. -/
def readPairs? : List Char → Option (List UInt8)
  | [] => some []
  | [high, low] => (byte? high low).map fun byte => [byte]
  | high :: low :: ' ' :: next :: rest =>
    match byte? high low, readPairs? (next :: rest) with
    | some byte, some bytes => some (byte :: bytes)
    | _, _ => none
  | _ => none

end ChunkStrings.Hex
