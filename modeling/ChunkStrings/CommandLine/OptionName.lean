import ChunkStrings.Text.Numeral

/-!
# The options of the command line

Which options there are, how they are written, where they may stand, and what the values of
those look like that take a number.
-/

namespace ChunkStrings.CommandLine

/-! ### Names and places -/

/-- The options there are. -/
inductive OptionName where
  /-- Print results as JSON. -/
  | json
  /-- Log what is done. -/
  | verbose
  /-- Tell how the program is used. -/
  | help
  /-- Tell the version of the program. -/
  | version
  /-- The generation tag. -/
  | generation
  /-- The width of lengths. -/
  | width
  /-- The most significant byte comes first. -/
  | bigEndian
  /-- The byte order flag. -/
  | orderFlag
  /-- The offset of the first record. -/
  | offset
  /-- The number of records. -/
  | count
  /-- Encode the absent string. -/
  | null
  deriving DecidableEq, Repr

/-- The places where options stand: before the command, or after its name. -/
inductive Level where
  /-- Before the name of the command. -/
  | top
  /-- After `decode`. -/
  | decode
  /-- After `encode`. -/
  | encode
  deriving DecidableEq, Repr

namespace OptionName

/-- The long name, without its dashes. -/
def long : OptionName → String
  | json => "json"
  | verbose => "verbose"
  | help => "help"
  | version => "version"
  | generation => "generation"
  | width => "size-t"
  | bigEndian => "big-endian"
  | orderFlag => "endian-flag"
  | offset => "offset"
  | count => "count"
  | null => "null"

/-- The letter, if there is one. -/
def letter? : OptionName → Option Char
  | verbose => some 'v'
  | help => some 'h'
  | version => some 'V'
  | generation => some 'g'
  | count => some 'n'
  | _ => none

/-- Whether the option takes a value. -/
def takesValue : OptionName → Bool
  | generation | width | orderFlag | offset | count => true
  | _ => false

end OptionName

/-- The options that may stand at a place. -/
def Level.options : Level → List OptionName
  | top => [.json, .verbose, .help, .version]
  | decode => [.json, .verbose, .help, .generation, .width, .bigEndian, .orderFlag, .offset,
      .count]
  | encode => [.json, .verbose, .help, .generation, .width, .bigEndian, .orderFlag, .null]

/-- The option with this long name. -/
def Level.byName? (level : Level) (name : String) : Option OptionName :=
  level.options.find? (·.long == name)

/-- The option with this letter. -/
def Level.byLetter? (level : Level) (letter : Char) : Option OptionName :=
  level.options.find? (·.letter? == some letter)

/-! ### Values of options -/

/-- Reads the value of an option that takes a byte: digits after an optional sign, of which the
minus sign is of use for zero only. -/
def byte? (text : String) : Option UInt8 :=
  let (negative, digits) := match text.toList with
    | '-' :: digits => (true, digits)
    | '+' :: digits => (false, digits)
    | digits => (false, digits)
  if digits.isEmpty then none
  else match Numeral.digits 10 0 digits with
    | .ok value =>
      if value ≤ (if negative then 0 else 255) then some (UInt8.ofNat value) else none
    | .error _ => none

/-- Reads the value of an option that takes a count. -/
def count? (text : String) : Option Nat :=
  (Numeral.ofChars 10 text.toList).toOption

end ChunkStrings.CommandLine
