import ChunkStrings.Text.Hex

/-!
# Why an operation fails

Every operation of the library that can fail does so with a `Fault`, one constructor per
cause. A fault carries the numbers that tell what was asked for and what was there; its
wording lives in `Fault.message` alone.
-/

namespace ChunkStrings

/-- **The causes of failure.** Framing faults come first (a record asks for bytes that are
not there, a length does not fit), then faults of the declared format, then faults of the
input and of the place the output goes to. -/
inductive Fault where
  /-- A framing rule asked for `needed` bytes where only `available` were left. -/
  | truncated (needed available : Nat)
  /-- A length does not fit into an integer of `width` bytes. -/
  | valueTooLarge (value width : Nat)
  /-- The chunk declares a generation tag that no layout belongs to. -/
  | unknownGeneration (tag : UInt8)
  /-- The chunk declares a length integer that is not of 1 to 8 bytes. -/
  | unsupportedWidth (width : Nat)
  /-- A position outside of the data was asked for. -/
  | outOfBounds
  /-- The chunk declares a byte order flag that is neither 0 nor 1. -/
  | unknownOrderFlag (flag : UInt8)
  /-- The input holds no byte at all. -/
  | emptyInput
  /-- The sink took some of the bytes, but not all. -/
  | sinkFull
  /-- There is no file of that name. -/
  | fileNotFound
  /-- The name is longer than that of any file can be. -/
  | fileNameTooLong
  /-- The file exists, but its bytes cannot be mapped. -/
  | fileNotMappable
  /-- The caller's own action gave up, for its own reason. -/
  | aborted (reason : String)
  deriving DecidableEq, Repr

/-- What operations come to, results or faults, can be compared. -/
instance decidableEqExcept {ε α : Type} [DecidableEq ε] [DecidableEq α] :
    DecidableEq (Except ε α)
  | .ok a, .ok b => decidable_of_iff (a = b) ⟨congrArg _, Except.ok.inj⟩
  | .error e, .error f => decidable_of_iff (e = f) ⟨congrArg _, Except.error.inj⟩
  | .ok _, .error _ => isFalse nofun
  | .error _, .ok _ => isFalse nofun

namespace Fault

/-- The wording of a fault, as it is shown to the user. -/
def message : Fault → String
  | truncated needed available =>
    s!"Truncated input - needed {needed} bytes, {available} available"
  | valueTooLarge value width =>
    s!"Value {value} does not fit into a {width} byte length integer"
  | unknownGeneration tag =>
    "Unsupported string format generation - 0x" ++ String.ofList (Hex.upperByte tag)
  | unsupportedWidth width => s!"Unsupported length integer width - {width} bytes"
  | outOfBounds => "Out of Bound read would have occurred!"
  | unknownOrderFlag flag => s!"Invalid endianness flag - {flag}"
  | emptyInput => "Provided input was empty"
  | sinkFull => "failed to write whole buffer"
  | fileNotFound => "No such file or directory (os error 2)"
  | fileNameTooLong => "File name too long (os error 36)"
  | fileNotMappable => "No such device (os error 19)"
  | aborted reason => reason

end Fault

end ChunkStrings
