import ChunkStrings.CommandLine.Arguments
import ChunkStrings.CommandLine.Performance

/-!
# What the user sees

The outcome of an invocation: its exit status and what it prints. A product is printed as text
or as JSON, a failure with its causes, and the log only if it is asked for and does not get in
the way of JSON. `run` is the program as a function of its arguments and of the files there
are.
-/

namespace ChunkStrings.CommandLine

/-! ### Printing a product -/

/-- What the user sees of an invocation. -/
structure Outcome where
  /-- The exit status. -/
  exit : Nat
  /-- The lines of the standard output. -/
  stdout : List String
  /-- The lines of the standard error output. -/
  stderr : List String
  deriving DecidableEq, Repr

/-- A product as JSON. -/
def Product.toJson : Product → Json
  | records layout entries =>
    .object [("codec", .text layout.name),
      ("records", .array (entries.toList.map RecordEntry.toJson))]
  | encoding layout bytes =>
    .object [("codec", .text layout.name), ("size", .number bytes.size),
      ("bytes", .text (String.ofList (Hex.pairs bytes.data.toList)))]

/-- A product as text. -/
def Product.toLines : Product → List String
  | records layout entries =>
    ("Codec: " ++ layout.name) :: "" ::
      Columns.lines RecordEntry.columns (entries.toList.map RecordEntry.cells)
  | encoding _ bytes => [String.ofList (Hex.pairs bytes.data.toList)]

/-- The lines of the log, if they are to be shown. -/
def logLines (settings : Settings) (log : List String) : List String :=
  if settings.verbose && !settings.json then log.map ("[DEBUG] " ++ ·) else []

/-- What the user sees of a command. -/
def outcome (settings : Settings) (performance : Performance) : Outcome :=
  let log := logLines settings performance.log
  match performance.result with
  | .ok product =>
    ⟨0, if settings.json then product.toJson.lines else product.toLines, log⟩
  | .error failure => ⟨failure.exit, [], log ++ failure.lines⟩

/-- The line about the version of the program. -/
def versionLine : String := "luascope 0.1.0"

/-- The lines that tell how the program is used. -/
def helpLines : List String :=
  ["luascope - inspect string constants of compiled Lua chunks",
    "",
    "Usage: luascope [OPTIONS] <COMMAND>",
    "",
    "Commands:",
    "  decode FILE    Decode consecutive string records from a file",
    "  encode [TEXT]  Encode a string record and print it as hex",
    "  help           Print this help",
    "",
    "Options:",
    "      --json     Emit output as JSON instead of human-readable text",
    "  -v, --verbose  Enable verbose logging output",
    "  -h, --help     Print help",
    "  -V, --version  Print version",
    "",
    "Options of both commands:",
    "  -g, --generation TAG    Generation tag of the chunk (hex like 0x53 or decimal)",
    "      --size-t N          Width of the chunk's size_t in bytes, 8 if not given",
    "      --big-endian        Chunk stores integers big-endian",
    "      --endian-flag FLAG  Endianness flag byte of the header (1 little, 0 big)",
    "",
    "Options of decode:",
    "      --offset OFFSET     Offset of the first record (hex like 0x1a or decimal)",
    "  -n, --count COUNT       Number of records to decode, 1 if not given",
    "",
    "Options of encode:",
    "      --null              Encode a null string instead of TEXT"]

/-- What the user sees of a request. -/
def Request.outcome (request : Request) (files : String → DiskEntry) : Outcome :=
  match request with
  | .version => ⟨0, [versionLine], []⟩
  | .help => ⟨0, helpLines, []⟩
  | .run settings command =>
    CommandLine.outcome settings (command.perform settings.verbose files)

/-- The program: what the user sees of an invocation with these arguments, where these files
are. -/
def run (arguments : List String) (files : String → DiskEntry) : Outcome :=
  match Request.ofArguments arguments with
  | .ok request => request.outcome files
  | .error fault => ⟨2, [], ["error: " ++ fault.message]⟩

end ChunkStrings.CommandLine
