import ChunkStrings.CommandLine.OptionName
import ChunkStrings.CommandLine.Request

/-!
# Arguments of the command line

The grammar of an invocation. Two options may stand before or after the name of the command
(`--json`, `--verbose`), the others belong to one command each. Every option has a long name,
which takes its value after an equals sign or as the next argument, and some have a letter:
letters may be joined, and the last of them may have its value attached. Two dashes end the
options, and a single dash is a word.

Arguments are read from left to right and the first mistake ends the reading. So does a demand
for help or for the version, which is granted only if nothing in front of it is wrong.
`Request.ofArguments` is the whole of it.
-/

namespace ChunkStrings.CommandLine

/-! ### Reading the arguments of one place -/

/-- What has been read so far. -/
structure Collected where
  /-- `--json` -/
  json : Bool
  /-- `--verbose` -/
  verbose : Bool
  /-- `--generation` -/
  generation : Option String
  /-- `--size-t` -/
  width : Option UInt8
  /-- `--big-endian` -/
  bigEndian : Bool
  /-- `--endian-flag` -/
  orderFlag : Option UInt8
  /-- `--offset` -/
  offset : Option String
  /-- `--count` -/
  count : Option Nat
  /-- `--null` -/
  null : Bool
  /-- The word that is no option. -/
  word : Option String

/-- Nothing has been read. -/
def Collected.empty : Collected :=
  ⟨false, false, none, none, false, none, none, none, false, none⟩

/-- Why the reading of arguments ends before their end. -/
inductive Ending where
  /-- Help is asked for. -/
  | help
  /-- The version is asked for. -/
  | version
  /-- Something is wrong. -/
  | fault (fault : UsageFault)

/-- Sets what is not set yet. -/
def setOnce {α : Type} (name : OptionName) (old : Option α) (new : α) :
    Except Ending (Option α) :=
  match old with
  | none => .ok (some new)
  | some _ => .error (.fault (.repeated name.long))

/-- Switches on what is not switched on yet. -/
def switchOnce (name : OptionName) (old : Bool) : Except Ending Bool :=
  if old then .error (.fault (.repeated name.long)) else .ok true

/-- The value of an option, or the fault that it is none. -/
def accept {α : Type} (name : OptionName) (value : Option α) : Except Ending α :=
  match value with
  | some value => .ok value
  | none => .error (.fault (.valueRefused name.long))

/-- Adds an option; the value counts for those only that take one. -/
def Collected.add (collected : Collected) (name : OptionName) (value : String) :
    Except Ending Collected :=
  match name with
  | .help => .error .help
  | .version => .error .version
  | .json => do
    return { collected with json := ← switchOnce name collected.json }
  | .verbose => do
    return { collected with verbose := ← switchOnce name collected.verbose }
  | .bigEndian => do
    return { collected with bigEndian := ← switchOnce name collected.bigEndian }
  | .null => do
    return { collected with null := ← switchOnce name collected.null }
  | .generation => do
    return { collected with generation := ← setOnce name collected.generation value }
  | .offset => do
    return { collected with offset := ← setOnce name collected.offset value }
  | .width => do
    let value ← accept name (byte? value)
    return { collected with width := ← setOnce name collected.width value }
  | .orderFlag => do
    let value ← accept name (byte? value)
    return { collected with orderFlag := ← setOnce name collected.orderFlag value }
  | .count => do
    let value ← accept name (count? value)
    return { collected with count := ← setOnce name collected.count value }

/-- Adds a word that is no option. The path of a file is not empty. -/
def Collected.addWord (collected : Collected) (level : Level) (word : String) :
    Except Ending Collected :=
  match level, collected.word with
  | .top, _ => .error (.fault .noCommand)
  | _, some _ => .error (.fault (.unexpectedWord word))
  | .decode, none =>
    if word.isEmpty then .error (.fault (.valueRefused "FILE"))
    else .ok { collected with word := some word }
  | .encode, none => .ok { collected with word := some word }

/-- Adds words none of which is an option. -/
def Collected.addWords (collected : Collected) (level : Level) (words : List String) :
    Except Ending Collected :=
  words.foldlM (fun collected word => collected.addWord level word) collected

/-- Reads joined letters. The last of them may be an option whose value is still to come. -/
def readLetters (level : Level) (collected : Collected) :
    List Char → Except Ending (Collected × Option OptionName)
  | [] => .ok (collected, none)
  | letter :: letters =>
    match level.byLetter? letter with
    | none => .error (.fault (.unknownOption (String.singleton letter)))
    | some name =>
      if name.takesValue then
        match letters with
        | [] => .ok (collected, some name)
        | '=' :: value => do
          return (← collected.add name (String.ofList value), none)
        | value => do
          return (← collected.add name (String.ofList value), none)
      else do
        readLetters level (← collected.add name "") letters

/-- Reads a long name and the value that may be attached to it. -/
def readLong (level : Level) (collected : Collected) (text : List Char) :
    Except Ending (Collected × Option OptionName) :=
  let name := String.ofList (text.takeWhile (· != '='))
  let attached := text.dropWhile (· != '=')
  match level.byName? name, attached with
  | none, _ => .error (.fault (.unknownOption name))
  | some name, [] =>
    if name.takesValue then .ok (collected, some name)
    else do return (← collected.add name "", none)
  | some name, _ :: value =>
    if name.takesValue then do return (← collected.add name (String.ofList value), none)
    else .error (.fault (.valueUnwanted name.long))

/-- What an argument looks like. -/
inductive Shape where
  /-- Two dashes and nothing else. -/
  | separator
  /-- Two dashes and a name. -/
  | long (text : List Char)
  /-- A dash and letters. -/
  | letters (text : List Char)
  /-- Anything else. -/
  | word
  deriving DecidableEq, Repr

/-- The look of an argument. -/
def Shape.ofArgument (argument : String) : Shape :=
  match argument.toList with
  | ['-', '-'] => separator
  | '-' :: '-' :: text => long text
  | ['-'] => word
  | '-' :: text => letters text
  | _ => word

/-- The commands by name. -/
inductive CommandName where
  /-- Decode records. -/
  | decode
  /-- Encode a string. -/
  | encode
  /-- Tell how the program is used. -/
  | help
  deriving DecidableEq, Repr

/-- The command of this name. -/
def CommandName.ofWord? : String → Option CommandName
  | "decode" => some .decode
  | "encode" => some .encode
  | "help" => some .help
  | _ => none

/-- Reads an argument that is made of options. -/
def readOption (level : Level) (collected : Collected) :
    Shape → Except Ending (Collected × Option OptionName)
  | .long text => readLong level collected text
  | .letters text => readLetters level collected text
  | _ => .ok (collected, none)

/-- Reads the arguments of one place. Before the command, the first word has to be the name of
one, and the arguments after it are left for the command. An option whose value is not attached
to it takes the next argument, which has to be a word. -/
def readArguments (level : Level) (collected : Collected) :
    List String → Except Ending (Collected × Option (CommandName × List String))
  | [] => .ok (collected, none)
  | argument :: arguments =>
    match Shape.ofArgument argument with
    | .separator => do
      return (← collected.addWords level arguments, none)
    | .word =>
      match level, CommandName.ofWord? argument with
      | .top, some name => .ok (collected, some (name, arguments))
      | _, _ => do
        readArguments level (← collected.addWord level argument) arguments
    | shape => do
      let (collected, pending) ← readOption level collected shape
      match pending with
      | none => readArguments level collected arguments
      | some name =>
        match arguments with
        | [] => throw (.fault (.valueMissing name.long))
        | value :: arguments =>
          if Shape.ofArgument value = .word then
            readArguments level (← collected.add name value) arguments
          else throw (.fault (.valueMissing name.long))

/-! ### From arguments to a request -/

/-- What has to be given. -/
def need {α : Type} (name : String) (value : Option α) : Except Ending α :=
  match value with
  | some value => .ok value
  | none => .error (.fault (.required name))

/-- The format that has been collected. -/
def Collected.format (collected : Collected) : Except Ending FormatOptions := do
  let generation ← need OptionName.generation.long collected.generation
  if collected.bigEndian && collected.orderFlag.isSome then
    throw (.fault (.conflict OptionName.bigEndian.long OptionName.orderFlag.long))
  return ⟨generation, collected.width.getD 8, collected.bigEndian, collected.orderFlag⟩

/-- The decoding that has been collected. -/
def Collected.decode (collected : Collected) : Except Ending Command := do
  let path ← need "FILE" collected.word
  let format ← collected.format
  return .decode path format collected.offset (collected.count.getD 1)

/-- The encoding that has been collected. -/
def Collected.encode (collected : Collected) : Except Ending Command := do
  let format ← collected.format
  match collected.null, collected.word with
  | true, none => return .encode format none
  | false, some text => return .encode format (some text)
  | true, some _ => throw (.fault (.conflict OptionName.null.long "TEXT"))
  | false, none => throw (.fault (.required "TEXT"))

/-- What is asked for behind the name of a command. -/
def readCommand (before : Collected) (name : CommandName) (arguments : List String) :
    Except Ending Request :=
  match name with
  | .decode => do
    let (collected, _) ← readArguments .decode .empty arguments
    return .run (settings collected) (← collected.decode)
  | .encode => do
    let (collected, _) ← readArguments .encode .empty arguments
    return .run (settings collected) (← collected.encode)
  | .help =>
    match arguments with
    | [] => .ok .help
    | [word] => match CommandName.ofWord? word with
      | some _ => .ok .help
      | none => .error (.fault .noCommand)
    | _ => .error (.fault .noCommand)
where
  /-- An option that belongs to no command counts in either place. -/
  settings (collected : Collected) : Settings :=
    ⟨before.json || collected.json, before.verbose || collected.verbose⟩

/-- What is asked for by a whole command line. -/
def Request.read (arguments : List String) : Except Ending Request := do
  match ← readArguments .top .empty arguments with
  | (before, some (name, arguments)) => readCommand before name arguments
  | (_, none) => throw (.fault .noCommand)

/-- What an invocation with these arguments asks for. -/
def Request.ofArguments (arguments : List String) : Except UsageFault Request :=
  match read arguments with
  | .ok request => .ok request
  | .error .help => .ok .help
  | .error .version => .ok .version
  | .error (.fault fault) => .error fault

end ChunkStrings.CommandLine
