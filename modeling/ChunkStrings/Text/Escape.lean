import ChunkStrings.Text.Hex

/-!
# Escaped text

String constants hold arbitrary bytes, and the library shows them as printable ASCII. Tab,
carriage return, line feed, both quotes and the backslash have an escape of two characters,
the other printable bytes stand for themselves, and all the rest are written as a backslash,
an `x` and two lower-case digits. A text shown this way fits on one line, and no quote in it
stands without its backslash.
-/

namespace ChunkStrings.Escape

/-- A byte as it is shown. -/
def ofByte (byte : UInt8) : List Char :=
  if byte = 0x09 then ['\\', 't']
  else if byte = 0x0a then ['\\', 'n']
  else if byte = 0x0d then ['\\', 'r']
  else if byte = 0x22 then ['\\', '"']
  else if byte = 0x27 then ['\\', '\'']
  else if byte = 0x5c then ['\\', '\\']
  else if 0x20 ≤ byte ∧ byte ≤ 0x7e then [Char.ofNat byte.toNat]
  else '\\' :: 'x' :: Hex.ofByte byte

/-- A run of bytes as it is shown, byte after byte. -/
def ofBytes (bytes : List UInt8) : List Char :=
  bytes.flatMap ofByte

/-- The shown form of a byte array as a text. -/
def text (bytes : ByteArray) : String :=
  String.ofList (ofBytes bytes.data.toList)

/-- The shown form of a byte array between double quotes. -/
def quoted (bytes : ByteArray) : String :=
  String.ofList ('"' :: ofBytes bytes.data.toList ++ ['"'])

@[simp] theorem ofBytes_nil : ofBytes [] = [] := rfl

@[simp] theorem ofBytes_cons (byte : UInt8) (bytes : List UInt8) :
    ofBytes (byte :: bytes) = ofByte byte ++ ofBytes bytes := rfl

/-- No byte is shown as nothing. -/
theorem ofByte_ne_nil (byte : UInt8) : ofByte byte ≠ [] := by
  unfold ofByte
  repeat' split
  all_goals simp

end ChunkStrings.Escape
