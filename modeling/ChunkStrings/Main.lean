import ChunkStrings.CommandLine.Outcome

/-!
# The program

The outer layer: it reads the file that a request names, lets `CommandLine.run` decide
everything, and prints what that says.
-/

namespace ChunkStrings

/-- What stands behind a file name on this machine. -/
def readEntry (path : String) : IO DiskEntry := do
  try
    return .file (← IO.FS.readBinFile path)
  catch
    | .noFileOrDirectory .. => return .missing
    | .invalidArgument .. => return .nameTooLong
    | _ => return .directory

/-- What stands behind the file names that these arguments ask for. -/
def readFiles (arguments : List String) : IO (String → DiskEntry) := do
  match CommandLine.Request.ofArguments arguments with
  | .ok (.run _ (.decode path _ _ _)) =>
    let entry ← readEntry path
    return fun _ => entry
  | _ => return fun _ => .missing

end ChunkStrings

/-- Runs the program and tells its exit status. -/
def main (arguments : List String) : IO UInt32 := do
  let files ← ChunkStrings.readFiles arguments
  let outcome := ChunkStrings.CommandLine.run arguments files
  for line in outcome.stdout do
    IO.println line
  for line in outcome.stderr do
    IO.eprintln line
  return outcome.exit.toUInt32
