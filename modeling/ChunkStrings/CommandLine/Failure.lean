import ChunkStrings.Fault
import ChunkStrings.Text.Numeral

/-!
# Why a command fails

A command that is understood can still fail, and then says what it was about to do and, below
that, the chain of causes. `Failure` has one constructor for each such step; the wording is in
`Failure.message` and `Failure.causes`, and `Failure.lines` is what the user sees. Only running out
of memory is reported otherwise: it is not a refusal but a breakdown, and what the user sees is the
report of the runtime, `Failure.breakdownLines`.
-/

namespace ChunkStrings.CommandLine

/-- The step of a command that failed. -/
inductive Failure where
  /-- A text that should be a number is none. -/
  | number (text : String) (radix : Nat) (fault : Numeral.Fault)
  /-- A number is no generation tag, since tags are bytes. -/
  | generationRange (value : Nat)
  /-- The byte order flag is refused. -/
  | header (fault : Fault)
  /-- The width of lengths is refused. -/
  | format (fault : Fault)
  /-- No layout belongs to the generation. -/
  | generation (fault : Fault)
  /-- The file cannot be read. -/
  | load (path : String) (fault : Fault)
  /-- The first offset lies behind the data. -/
  | position (offset : Nat) (fault : Fault)
  /-- The record at an offset cannot be read. -/
  | record (offset : Nat) (fault : Fault)
  /-- The string cannot be written. -/
  | encoding (fault : Fault)
  /-- No memory can hold a table of so many records. -/
  | tableTooLarge (count : Nat)
  deriving DecidableEq, Repr

namespace Failure

/-- Where a byte order flag is found to be none, for those who look into the library. -/
def flagPlace : String := "src/file/io.rs:70"

/-- The causes that a fault brings in: its own wording, and that of the system behind it. -/
def faultCauses : Fault → List String
  | fault@(.unknownOrderFlag _) => ["Malformed - " ++ flagPlace ++ ": " ++ fault.message]
  | fault@.sinkFull => [fault.message, fault.message]
  | fault@.fileNotFound => [fault.message, fault.message]
  | fault@.fileNameTooLong => [fault.message, fault.message]
  | fault => [fault.message]

/-- What the command was about to do; where it does not say, the fault itself. -/
def message : Failure → String
  | number text radix _ =>
    if radix = 16 then "invalid hex number: " ++ text else "invalid number: " ++ text
  | generationRange value => s!"generation tag out of range: {value}"
  | header _ => "invalid chunk header"
  | format _ => "invalid chunk format"
  | generation fault => fault.message
  | load path _ => "failed to load chunk: " ++ path
  | position offset _ =>
    "offset 0x" ++ String.ofList (Hex.ofNat offset) ++ " is past the end of the file"
  | record offset _ =>
    "failed to decode string record at 0x" ++ String.ofList (Hex.ofNat offset)
  | encoding fault => fault.message
  | tableTooLarge _ => "capacity overflow"

/-- The chain of causes, the nearest first. -/
def causes : Failure → List String
  | number _ _ fault => [fault.message]
  | generationRange _ => [Numeral.Fault.tooLarge.message]
  | header fault => faultCauses fault
  | format fault => faultCauses fault
  | load _ fault => faultCauses fault
  | position _ fault => faultCauses fault
  | record _ fault => faultCauses fault
  | generation _ | encoding _ | tableTooLarge _ => []

/-- The exit status: running out of memory is not a refusal, but a breakdown. -/
def exit : Failure → Nat
  | tableTooLarge _ => 101
  | _ => 1

/-- The causes below their heading; several are numbered from zero. -/
def causeLines : List String → List String
  | [] => []
  | [cause] => ["", "Caused by:", "    " ++ cause]
  | causes => "" :: "Caused by:" ::
      causes.mapIdx fun index cause => "    " ++ toString index ++ ": " ++ cause

/-- The characters of a line, without the carriage return that ends it together with the line
feed behind it. -/
def withoutReturn (line : List Char) : List Char :=
  if line.getLast? = some '\r' then line.dropLast else line

/-- The lines of a text. A line ends in a line feed, or in a carriage return and a line feed, and
the last one does as well, for it is printed as a line. -/
def textLines (text : String) : List String :=
  (text.toList.splitOn '\n').map (String.ofList ∘ withoutReturn)

/-- The number that the system has given the thread of the program. It may be another one at every
start; this is the one of a process that is started in a container of its own. -/
def threadNumber : Nat := 4

/-- The report of a breakdown: which thread it came to, and where in the runtime, then the reason,
and how more could be learned about it. -/
def breakdownLines (reason : String) : List String :=
  ["",
    "thread 'main' (" ++ toString threadNumber ++ ") panicked at " ++
      "/rustc/b940084d7eb6a299eb4bfeb8e34901bc051e7ac4/library/alloc/src/raw_vec/mod.rs:28:5:",
    reason,
    "note: run with `RUST_BACKTRACE=1` environment variable to display a backtrace"]

/-- The lines that the user sees. What the user has typed may bring line feeds of its own. -/
def lines : Failure → List String
  | tableTooLarge count => breakdownLines (tableTooLarge count).message
  | failure => textLines ("Error: " ++ failure.message) ++ causeLines failure.causes

end Failure

end ChunkStrings.CommandLine
