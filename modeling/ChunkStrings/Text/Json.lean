import ChunkStrings.Text.Hex

/-!
# JSON documents

The values that results are made of, and their text over several lines: every element and
every field stands on a line of its own, two blanks further in than what holds it. An empty
array or object stays on one line.
-/

namespace ChunkStrings

/-- A JSON value. Fields of an object keep the order they are given in. -/
inductive Json where
  /-- The absent value. -/
  | null
  /-- A natural number. -/
  | number (value : Nat)
  /-- A text. -/
  | text (value : String)
  /-- A sequence of values. -/
  | array (items : List Json)
  /-- Named values. -/
  | object (fields : List (String × Json))
  deriving Repr

namespace Json

/-- A character as it stands inside a JSON text. -/
def quoteChar (c : Char) : List Char :=
  if c = '"' then ['\\', '"']
  else if c = '\\' then ['\\', '\\']
  else if c = '\n' then ['\\', 'n']
  else if c = '\r' then ['\\', 'r']
  else if c = '\t' then ['\\', 't']
  else if c = '\x08' then ['\\', 'b']
  else if c = '\x0c' then ['\\', 'f']
  else if c.toNat < 0x20 then '\\' :: 'u' :: Hex.ofNat c.toNat 4
  else [c]

/-- A text between its quotes. -/
def quote (value : String) : String :=
  String.ofList ('"' :: value.toList.flatMap quoteChar ++ ['"'])

/-- The blanks in front of a line at this depth. -/
def indent (depth : Nat) : String :=
  String.ofList (List.replicate (2 * depth) ' ')

/-- What parts an element from the next one, given those that come after it. -/
def comma {α : Type} (later : List α) : String :=
  if later.isEmpty then "" else ","

mutual

/-- Adds the lines of a value to those already written, with what stands before it on its first
line and after it on its last. -/
def write (depth : Nat) (before after : String) (written : Array String) : Json → Array String
  | null => written.push (before ++ "null" ++ after)
  | number value => written.push (before ++ toString value ++ after)
  | text value => written.push (before ++ quote value ++ after)
  | array [] => written.push (before ++ "[]" ++ after)
  | array items =>
    (writeItems (depth + 1) (written.push (before ++ "[")) items).push
      (indent depth ++ "]" ++ after)
  | object [] => written.push (before ++ "\x7b\x7d" ++ after)
  | object fields =>
    (writeFields (depth + 1) (written.push (before ++ "\x7b")) fields).push
      (indent depth ++ "\x7d" ++ after)

/-- Adds the lines of the elements of an array. -/
def writeItems (depth : Nat) (written : Array String) : List Json → Array String
  | [] => written
  | item :: items =>
    writeItems depth (write depth (indent depth) (comma items) written item) items

/-- Adds the lines of the fields of an object. -/
def writeFields (depth : Nat) (written : Array String) : List (String × Json) → Array String
  | [] => written
  | (name, value) :: fields =>
    writeFields depth
      (write depth (indent depth ++ quote name ++ ": ") (comma fields) written value) fields

end

/-- The lines of a document. -/
def lines (document : Json) : List String :=
  (write 0 "" "" #[] document).toList

end Json

end ChunkStrings
