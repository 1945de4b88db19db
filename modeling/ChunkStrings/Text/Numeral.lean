import ChunkStrings.Text.Blank

/-!
# Numerals for positions and counts

A numeral is an optional plus sign and at least one digit of the radix; its value is below
`Numeral.limit`, the number of positions that can be addressed. A reader that meets several
mistakes reports the first in reading order: a character that is no digit, or the digit that
takes the value past the limit.

`Numeral.ofChars` reads a numeral of a given radix, `Numeral.ofText` one that shows its
radix: `0x` or `0X` in front means sixteen, and blanks around it do not count.
-/

namespace ChunkStrings.Numeral

/-- Why a text is not a numeral. -/
inductive Fault where
  /-- There is no character to read. -/
  | empty
  /-- A character is not a digit of the radix, or a sign stands alone. -/
  | badDigit
  /-- The value is not below the limit. -/
  | tooLarge
  deriving DecidableEq, Repr

/-- The wording of a fault. -/
def Fault.message : Fault → String
  | empty => "cannot parse integer from empty string"
  | badDigit => "invalid digit found in string"
  | tooLarge => "number too large to fit in target type"

/-- The first value that is too large. -/
def limit : Nat := 0x10000000000000000

/-- The value of a character as a digit. Letters count on from nine, in either case. -/
def digit? (radix : Nat) (c : Char) : Option Nat :=
  let value? :=
    if '0' ≤ c ∧ c ≤ '9' then some (c.toNat - '0'.toNat)
    else if 'a' ≤ c ∧ c ≤ 'z' then some (c.toNat - 'a'.toNat + 10)
    else if 'A' ≤ c ∧ c ≤ 'Z' then some (c.toNat - 'A'.toNat + 10)
    else none
  value?.filter (· < radix)

/-- Reads digits onto the value of those before them. -/
def digits (radix : Nat) : (value : Nat) → List Char → Except Fault Nat
  | value, [] => .ok value
  | value, c :: chars =>
    match digit? radix c with
    | none => .error .badDigit
    | some digit =>
      if radix * value + digit < limit then digits radix (radix * value + digit) chars
      else .error .tooLarge

/-- Reads an optional plus sign and digits. -/
def ofChars (radix : Nat) : List Char → Except Fault Nat
  | [] => .error .empty
  | ['+'] => .error .badDigit
  | '+' :: chars => digits radix 0 chars
  | chars => digits radix 0 chars

/-- The radix that a text announces, and the characters that spell the number. -/
def body : List Char → Nat × List Char
  | '0' :: 'x' :: chars => (16, chars)
  | '0' :: 'X' :: chars => (16, chars)
  | chars => (10, chars)

/-- The radix of a text and the result of reading it, blanks at its ends aside. -/
def ofText (text : String) : Nat × Except Fault Nat :=
  let (radix, chars) := body (Blank.trim text.toList)
  (radix, ofChars radix chars)

end ChunkStrings.Numeral
