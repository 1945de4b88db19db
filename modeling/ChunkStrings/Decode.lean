import ChunkStrings.Cursor
import ChunkStrings.LogLine
import ChunkStrings.Word

/-!
# Computations that read

A `Decode` computation reads bytes at a cursor. Its state is the cursor, a scratch buffer that
one record after another is gathered in, and the lines of the log; a computation that fails
keeps its state, so that what it logged is not lost.

A single read that fails does not move the cursor. A computation made of several reads may
fail between two of them, and `Decode.transaction` is what puts the cursor back then.
-/

namespace ChunkStrings

/-- What a reading computation works on. -/
structure DecodeState where
  /-- The position to read at. -/
  cursor : Cursor
  /-- The bytes gathered so far, of the record that is being read or of an earlier one. -/
  scratch : ByteArray
  /-- The lines logged so far. -/
  log : Array LogLine
  deriving DecidableEq

/-- A computation that reads bytes and may fail. -/
abbrev Decode (α : Type) := EStateM Fault DecodeState α

/-- The state at the start of the data, with nothing gathered and nothing logged. -/
def DecodeState.start (data : ByteArray) : DecodeState := ⟨.start data, .empty, #[]⟩

namespace Decode

/-! ### Moving and reading -/

/-- Lets a step of the cursor be a step of the computation. -/
@[inline] def onCursor {α : Type} (step : Cursor → Except Fault (α × Cursor)) : Decode α :=
  fun state =>
    match step state.cursor with
    | .ok (result, cursor) => .ok result { state with cursor }
    | .error fault => .error fault state

/-- Moves to a position. -/
def seek (pos : Nat) : Decode Unit :=
  onCursor fun cursor => (cursor.seek pos).map fun cursor => ((), cursor)

/-- Checks that so many bytes are left. -/
def ensure (needed : Nat) : Decode Unit :=
  onCursor fun cursor => (cursor.ensure needed).map fun _ => ((), cursor)

/-- Reads so many bytes. -/
def take (count : Nat) : Decode ByteArray :=
  onCursor (·.take count)

/-- Reads one byte. -/
def byte : Decode UInt8 :=
  onCursor (·.next)

/-- Reads an integer of so many bytes. -/
def uint (width : Nat) (order : ByteOrder) : Decode Nat := do
  let width ← liftExcept (Width.ofNat width)
  let bytes ← take width.bytes
  return order.decode bytes.data.toList

/-- Reads a word. -/
def word (size : WordSize) (order : ByteOrder) : Decode (Word size) := do
  let bytes ← take size.bytes
  return Word.ofBytes size order bytes.data.toList

/-! ### The scratch buffer -/

/-- Empties the scratch buffer. -/
def clear : Decode Unit
  | ⟨cursor, _, log⟩ => .ok () ⟨cursor, .empty, log⟩

/-- Adds a byte to the scratch buffer. -/
def keep (byte : UInt8) : Decode Unit
  | ⟨cursor, scratch, log⟩ => .ok () ⟨cursor, scratch.push byte, log⟩

/-- Adds a run of bytes to the scratch buffer. -/
def keepAll (bytes : ByteArray) : Decode Unit
  | ⟨cursor, scratch, log⟩ => .ok () ⟨cursor, scratch ++ bytes, log⟩

/-- Replaces what the scratch buffer holds. -/
def changeKept (change : ByteArray → ByteArray) : Decode Unit
  | ⟨cursor, scratch, log⟩ => .ok () ⟨cursor, change scratch, log⟩

/-- What the scratch buffer holds. -/
def kept : Decode ByteArray
  | ⟨cursor, scratch, log⟩ => .ok scratch ⟨cursor, scratch, log⟩

/-! ### Logging and going back -/

/-- Adds a line to the log. -/
def note (line : LogLine) : Decode Unit
  | ⟨cursor, scratch, log⟩ => .ok () ⟨cursor, scratch, log.push line⟩

/-- Runs a computation, and puts the cursor back to where it was if the computation fails. -/
def transaction {α : Type} (action : Decode α) : Decode α := fun state =>
  match action.run state with
  | .ok result after => .ok result after
  | .error fault ⟨_, scratch, log⟩ => .error fault ⟨state.cursor, scratch, log⟩

/-! ### What each step does -/

theorem run_seek_of_le {state : DecodeState} {pos : Nat} (h : pos ≤ state.cursor.data.size) :
    (seek pos).run state = .ok () { state with cursor := ⟨state.cursor.data, pos, h⟩ } := by
  simp only [seek, onCursor, Cursor.seek, EStateM.run, h, dif_pos, Except.map]

theorem run_seek_of_lt {state : DecodeState} {pos : Nat} (h : state.cursor.data.size < pos) :
    (seek pos).run state = .error .outOfBounds state := by
  simp only [seek, onCursor, Cursor.seek, EStateM.run, Nat.not_le.mpr h, dif_neg,
    not_false_eq_true, Except.map]

theorem run_ensure_of_le {state : DecodeState} {needed : Nat}
    (h : needed ≤ state.cursor.remaining) : (ensure needed).run state = .ok () state := by
  simp only [ensure, onCursor, Cursor.ensure, EStateM.run, h, if_true, Except.map]

theorem run_ensure_of_lt {state : DecodeState} {needed : Nat}
    (h : state.cursor.remaining < needed) :
    (ensure needed).run state = .error (.truncated needed state.cursor.remaining) state := by
  simp only [ensure, onCursor, Cursor.ensure, EStateM.run, Nat.not_le.mpr h, if_false,
    Except.map]

theorem run_take_of_le {state : DecodeState} {count : Nat} (h : count ≤ state.cursor.remaining) :
    (take count).run state =
      .ok (state.cursor.data.extract state.cursor.pos (state.cursor.pos + count))
        { state with cursor := state.cursor.advance count h } := by
  simp only [take, onCursor, Cursor.take, EStateM.run, h, dif_pos]

theorem run_take_of_lt {state : DecodeState} {count : Nat} (h : state.cursor.remaining < count) :
    (take count).run state = .error (.truncated count state.cursor.remaining) state := by
  simp only [take, onCursor, Cursor.take, EStateM.run, Nat.not_le.mpr h, dif_neg,
    not_false_eq_true]

theorem run_byte_of_lt {state : DecodeState} (h : state.cursor.pos < state.cursor.data.size) :
    byte.run state = .ok state.cursor.data[state.cursor.pos]
      { state with cursor := ⟨state.cursor.data, state.cursor.pos + 1, h⟩ } := by
  simp only [byte, onCursor, Cursor.next, EStateM.run, h, dif_pos]

theorem run_byte_of_le {state : DecodeState} (h : state.cursor.data.size ≤ state.cursor.pos) :
    byte.run state = .error (.truncated 1 state.cursor.remaining) state := by
  simp only [byte, onCursor, Cursor.next, EStateM.run, Nat.not_lt.mpr h, dif_neg,
    not_false_eq_true]

/-- The width is looked at before the data is. -/
theorem run_uint_of_unsupported {state : DecodeState} {width : Nat} (order : ByteOrder)
    (h : ¬(1 ≤ width ∧ width ≤ 8)) :
    (uint width order).run state = .error (.unsupportedWidth width) state := by
  rw [uint, Width.ofNat_of_not_mem h]
  rfl

theorem run_uint_of_le {state : DecodeState} {width : Nat} (order : ByteOrder)
    (hwidth : 1 ≤ width ∧ width ≤ 8) (h : width ≤ state.cursor.remaining) :
    (uint width order).run state =
      .ok (order.decode (state.cursor.data.extract state.cursor.pos
          (state.cursor.pos + width)).data.toList)
        { state with cursor := state.cursor.advance width h } := by
  rw [uint, Width.ofNat_of_mem hwidth]
  change (take width >>= _).run state = _
  rw [EStateM.run_bind, run_take_of_le h]
  rfl

theorem run_uint_of_lt {state : DecodeState} {width : Nat} (order : ByteOrder)
    (hwidth : 1 ≤ width ∧ width ≤ 8) (h : state.cursor.remaining < width) :
    (uint width order).run state = .error (.truncated width state.cursor.remaining) state := by
  rw [uint, Width.ofNat_of_mem hwidth]
  change (take width >>= _).run state = _
  rw [EStateM.run_bind, run_take_of_lt h]

@[simp] theorem run_clear (state : DecodeState) :
    clear.run state = .ok () { state with scratch := .empty } := rfl

@[simp] theorem run_keep (byte : UInt8) (state : DecodeState) :
    (keep byte).run state = .ok () { state with scratch := state.scratch.push byte } := rfl

@[simp] theorem run_keepAll (bytes : ByteArray) (state : DecodeState) :
    (keepAll bytes).run state = .ok () { state with scratch := state.scratch ++ bytes } := rfl

@[simp] theorem run_changeKept (change : ByteArray → ByteArray) (state : DecodeState) :
    (changeKept change).run state = .ok () { state with scratch := change state.scratch } := rfl

@[simp] theorem run_kept (state : DecodeState) : kept.run state = .ok state.scratch state := rfl

@[simp] theorem run_note (line : LogLine) (state : DecodeState) :
    (note line).run state = .ok () { state with log := state.log.push line } := rfl

/-- **A transaction that fails leaves the cursor where it was**, and keeps what was gathered and
logged. -/
theorem run_transaction_of_error {α : Type} {action : Decode α} {state after : DecodeState}
    {fault : Fault} (h : action.run state = .error fault after) :
    (transaction action).run state = .error fault { after with cursor := state.cursor } := by
  simp only [transaction, EStateM.run] at h ⊢
  rw [h]

theorem run_transaction_of_ok {α : Type} {action : Decode α} {state after : DecodeState}
    {result : α} (h : action.run state = .ok result after) :
    (transaction action).run state = .ok result after := by
  simp only [transaction, EStateM.run] at h ⊢
  rw [h]

/-! ### Running -/

/-- Runs a computation to its result, keeping the state in either case. -/
def attempt {α : Type} (action : Decode α) (state : DecodeState) :
    Except Fault α × DecodeState :=
  match action.run state with
  | .ok result after => (.ok result, after)
  | .error fault after => (.error fault, after)

end Decode

end ChunkStrings
