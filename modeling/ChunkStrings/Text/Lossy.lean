/-!
# Bytes as text, with replacements

Bytes that are meant as UTF-8 but need not be are read as text by putting U+FFFD in the place
of whatever is ill-formed. One replacement stands for each *maximal subpart*: the longest run
of bytes that some well-formed sequence begins with, or else a single byte.

`Lossy.sequence` reads one sequence. The lead byte fixes how many bytes follow and in which
range the first of these lies (`Lossy.shape?`), which rules out overlong forms, surrogates and
everything above U+10FFFF, so what it accepts is exactly the well-formed sequences.
-/

namespace ChunkStrings.Lossy

/-- The character that stands for an ill-formed sequence. -/
def replacement : Char := '\uFFFD'

/-- What a lead byte announces. -/
structure Shape where
  /-- The bits of the code point that the lead byte holds. -/
  high : Nat
  /-- How many bytes follow the lead byte. -/
  follow : Nat
  /-- The least value of the byte after the lead byte. -/
  least : UInt8
  /-- The greatest value of the byte after the lead byte. -/
  greatest : UInt8

/-- The sequences that a byte may lead, if any. -/
def shape? (lead : UInt8) : Option Shape :=
  let byte := lead.toNat
  if byte < 0x80 then some ⟨byte, 0, 0x80, 0xbf⟩
  else if byte < 0xc2 then none
  else if byte < 0xe0 then some ⟨byte - 0xc0, 1, 0x80, 0xbf⟩
  else if byte = 0xe0 then some ⟨0, 2, 0xa0, 0xbf⟩
  else if byte = 0xed then some ⟨0x0d, 2, 0x80, 0x9f⟩
  else if byte < 0xf0 then some ⟨byte - 0xe0, 2, 0x80, 0xbf⟩
  else if byte = 0xf0 then some ⟨0, 3, 0x90, 0xbf⟩
  else if byte < 0xf4 then some ⟨byte - 0xf0, 3, 0x80, 0xbf⟩
  else if byte = 0xf4 then some ⟨4, 3, 0x80, 0x8f⟩
  else none

/-- Reads the bytes that follow a lead byte, as far as each lies in its range. The code point is
missing when one of them does not; the bytes not read are returned with it. -/
def following : (count : Nat) → (least greatest : UInt8) → (code : Nat) → List UInt8 →
    Option Nat × List UInt8
  | 0, _, _, code, bytes => (some code, bytes)
  | _ + 1, _, _, _, [] => (none, [])
  | count + 1, least, greatest, code, byte :: bytes =>
    if least ≤ byte ∧ byte ≤ greatest then
      following count 0x80 0xbf (64 * code + byte.toNat % 64) bytes
    else (none, byte :: bytes)

/-- Reads one sequence: its character, or the replacement for its maximal subpart, and the bytes
after it. -/
def sequence (lead : UInt8) (bytes : List UInt8) : Char × List UInt8 :=
  match shape? lead with
  | none => (replacement, bytes)
  | some shape =>
    match following shape.follow shape.least shape.greatest shape.high bytes with
    | (some code, rest) => (Char.ofNat code, rest)
    | (none, rest) => (replacement, rest)

theorem length_following_le (count : Nat) (least greatest : UInt8) (code : Nat)
    (bytes : List UInt8) :
    (following count least greatest code bytes).2.length ≤ bytes.length := by
  fun_induction following count least greatest code bytes with
  | case1 => exact Nat.le_refl _
  | case2 => exact Nat.le_refl _
  | case3 _ _ _ _ byte bytes _ ih => exact Nat.le_succ_of_le ih
  | case4 => exact Nat.le_refl _

/-- A sequence takes nothing back: what is left is no longer than what came after the lead. -/
theorem length_sequence_le (lead : UInt8) (bytes : List UInt8) :
    (sequence lead bytes).2.length ≤ bytes.length := by
  unfold sequence
  split
  · exact Nat.le_refl _
  · rename_i shape _
    have h := length_following_le shape.follow shape.least shape.greatest shape.high bytes
    split <;> rename_i heq <;> rw [heq] at h <;> exact h

/-- Appends the text of the bytes to a text that is already there. -/
def append (written : String) : List UInt8 → String
  | [] => written
  | lead :: bytes => append (written.push (sequence lead bytes).1) (sequence lead bytes).2
termination_by bytes => bytes.length
decreasing_by exact Nat.lt_succ_of_le (length_sequence_le lead bytes)

/-- The bytes as text. -/
def text (bytes : ByteArray) : String :=
  append "" bytes.data.toList

end ChunkStrings.Lossy
