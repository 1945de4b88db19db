/-!
# What an invocation asks for

The commands of the program with their options, as they are given: the texts of numbers are not
yet looked at, since a number that cannot be read is a failure of the command and not a misuse
of the command line. `UsageFault` lists what counts as misuse.
-/

namespace ChunkStrings.CommandLine

/-- Options that belong to no command. -/
structure Settings where
  /-- Print results as JSON. -/
  json : Bool
  /-- Log what is done. -/
  verbose : Bool
  deriving DecidableEq, Repr

/-- The format of a chunk, as it is given. -/
structure FormatOptions where
  /-- The generation tag, still as a text. -/
  generation : String
  /-- The width of lengths. -/
  width : UInt8
  /-- Whether the most significant byte comes first. -/
  bigEndian : Bool
  /-- The byte order flag of the header. -/
  orderFlag : Option UInt8
  deriving DecidableEq, Repr

/-- A command and its options. -/
inductive Command where
  /-- Decode `count` records of the file at `path`, from `offset` on. -/
  | decode (path : String) (format : FormatOptions) (offset : Option String) (count : Nat)
  /-- Encode a text, or the absent string. -/
  | encode (format : FormatOptions) (text : Option String)
  deriving DecidableEq, Repr

/-- What an invocation asks for. -/
inductive Request where
  /-- The version of the program. -/
  | version
  /-- How the program is used. -/
  | help
  /-- To carry out a command. -/
  | run (settings : Settings) (command : Command)
  deriving DecidableEq, Repr

/-- What is wrong with the arguments. -/
inductive UsageFault where
  /-- No command, or none of this name. -/
  | noCommand
  /-- There is no such option here. -/
  | unknownOption (name : String)
  /-- The option is given more than once. -/
  | repeated (name : String)
  /-- The option takes a value, and there is none. -/
  | valueMissing (name : String)
  /-- The option takes no value. -/
  | valueUnwanted (name : String)
  /-- The value is not one that the option takes. -/
  | valueRefused (name : String)
  /-- A word too much. -/
  | unexpectedWord (word : String)
  /-- Something that is needed is not given. -/
  | required (name : String)
  /-- Two things that exclude each other are given. -/
  | conflict (name other : String)
  deriving DecidableEq, Repr

/-- The wording of a usage fault. -/
def UsageFault.message : UsageFault → String
  | noCommand => "a command is needed: decode, encode or help"
  | unknownOption name => "unknown option: " ++ name
  | repeated name => "given more than once: " ++ name
  | valueMissing name => "a value is needed for " ++ name
  | valueUnwanted name => "no value is taken by " ++ name
  | valueRefused name => "invalid value for " ++ name
  | unexpectedWord word => "unexpected argument: " ++ word
  | required name => "required, but not given: " ++ name
  | conflict name other => "cannot be given together: " ++ name ++ " and " ++ other

end ChunkStrings.CommandLine
