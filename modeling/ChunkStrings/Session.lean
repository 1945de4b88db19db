import ChunkStrings.RecordReader
import ChunkStrings.Source

/-!
# Sessions

A session is a run of operations on one cursor. An operation that fails does not end it: its
fault is reported, and the next operation starts where the failed one did. Operations that depend
on the format of a chunk carry it, so a session may mix formats.

Operations can be put together into a block, which is a transaction: when an operation in it
fails and its failure is not *caught*, or when the block gives up at its end, the cursor goes
back to where the block began, whatever the operations in it have done. Blocks may stand in
blocks.

A `Script` says what to do and a `Trace`, of the same shape, says what came of it: every
operation and every block that was carried out has a `Visit`, with its outcome and the state
that the cursor is in afterwards.
-/

namespace ChunkStrings

/-! ### Operations -/

/-- What can be done at a cursor. -/
inductive Operation where
  /-- Move to a position. -/
  | seek (pos : Nat)
  /-- Read a word. -/
  | word (size : WordSize) (order : ByteOrder)
  /-- Read an integer of so many bytes. -/
  | uint (width : Nat) (order : ByteOrder)
  /-- Read so many bytes. -/
  | bytes (count : Nat)
  /-- Check that so many bytes are left. -/
  | ensure (needed : Nat)
  /-- Look at the data as a whole. -/
  | inspect
  /-- Read a length in this format. -/
  | length (format : ChunkFormat)
  /-- Read the next record in this format. -/
  | record (format : ChunkFormat)
  /-- Read so many records in this format. -/
  | records (format : ChunkFormat) (count : Nat)
  /-- Read a record in this layout, or in the one that the format selects. -/
  | recordAs (format : ChunkFormat) (layout : Option Layout)
  deriving DecidableEq, Repr

/-- What an operation answers. -/
inductive Answer where
  /-- Nothing but that it is done. -/
  | done
  /-- A number. -/
  | number (value : Nat)
  /-- Some bytes. -/
  | bytes (content : ByteArray)
  /-- The data as a whole. -/
  | whole (data : ByteArray)
  /-- A length. -/
  | length (length : LengthInt)
  /-- A constant. -/
  | constant (constant : StringConst)
  /-- Several constants. -/
  | constants (constants : Array StringConst)
  deriving DecidableEq

/-- What the operations of a session share. -/
structure SessionState where
  /-- The cursor, the scratch buffer and what the running operation has logged. -/
  reading : DecodeState
  /-- The last reader of records that was made, once one was needed and could be made. -/
  reader : Option RecordReader
  deriving DecidableEq

/-- A computation of a session. -/
abbrev Session (α : Type) := EStateM Fault SessionState α

namespace Session

/-- Lets a reading computation be one of the session. -/
def read {α : Type} (action : Decode α) : Session α
  | ⟨reading, reader⟩ =>
    match action.run reading with
    | .ok result reading => .ok result ⟨reading, reader⟩
    | .error fault reading => .error fault ⟨reading, reader⟩

/-- The reader for a format: the last one that was made if it is for this format, else a new
one. -/
def readerAfter (last : Option RecordReader) (format : ChunkFormat) : Except Fault RecordReader :=
  match last.filter (·.format = format) with
  | some reader => .ok reader
  | none => RecordReader.ofFormat format

/-- The reader for a format, which the session keeps. -/
def reader (format : ChunkFormat) : Session RecordReader
  | ⟨reading, last⟩ =>
    match readerAfter last format with
    | .ok reader => .ok reader ⟨reading, some reader⟩
    | .error fault => .error fault ⟨reading, last⟩

end Session

/-- Carries out an operation. -/
def Operation.perform : Operation → Session Answer
  | seek pos => do
    Session.read (Decode.seek pos)
    return .done
  | word size order => do
    let word ← Session.read (Decode.word size order)
    return .number word.toNat
  | uint width order => do
    let value ← Session.read (Decode.uint width order)
    return .number value
  | bytes count => do
    let content ← Session.read (Decode.take count)
    return .bytes content
  | ensure needed => do
    Session.read (Decode.ensure needed)
    return .done
  | inspect => do
    let state ← get
    return .whole state.reading.cursor.data
  | length format => do
    let length ← Session.read (LengthInt.decode format)
    return .length length
  | record format => do
    let reader ← Session.reader format
    let constant ← Session.read reader.read
    return .constant constant
  | records format count => do
    let reader ← Session.reader format
    let constants ← Session.read (reader.readN count)
    return .constants constants
  | recordAs format layout => do
    let layout ← match layout with
      | some layout => pure layout
      | none => liftExcept (Layout.ofFormat format)
    let constant ← Session.read (layout.decodeTraced format)
    return .constant constant

/-! ### Scripts and traces -/

/-- What to do in a session. -/
inductive Script where
  /-- Nothing more. -/
  | stop
  /-- An operation and what comes after it. In a block, a failure that is not caught ends the
  block. -/
  | operation (action : Operation) (caught : Bool) (rest : Script)
  /-- A block and what comes after it. A block may be made to fail at its end. -/
  | block (body : Script) (giveUp : Option String) (caught : Bool) (rest : Script)
  deriving Repr

/-- What came of an operation or a block. -/
structure Visit where
  /-- Its answer, or why it failed. -/
  outcome : Except Fault Answer
  /-- The cursor afterwards. -/
  cursor : Cursor
  /-- The lines it logged. -/
  log : Array LogLine

/-- What came of a script, as far as it was carried out. -/
inductive Trace where
  /-- Nothing more was carried out. -/
  | done
  /-- An operation and what came after it. -/
  | operation (visit : Visit) (rest : Trace)
  /-- A block, what was carried out in it, and what came after it. -/
  | block (inner : Trace) (visit : Visit) (rest : Trace)

/-- What a script came to: its trace, the fault that ended it before its end, if any, and the
state it left. -/
structure ScriptRun where
  /-- What was carried out. -/
  trace : Trace
  /-- The failure that was not caught. -/
  fault : Option Fault
  /-- The state afterwards. -/
  state : SessionState

namespace SessionState

/-- The state at the start of a session. -/
def start (cursor : Cursor) : SessionState := ⟨⟨cursor, .empty, #[]⟩, none⟩

/-- The same state with nothing logged. -/
def quiet (state : SessionState) : SessionState :=
  { state with reading := { state.reading with log := #[] } }

/-- The same state with its cursor moved back. -/
def backTo (state : SessionState) (cursor : Cursor) : SessionState :=
  { state with reading := { state.reading with cursor } }

end SessionState

/-- Carries out an operation and tells what came of it. -/
def Operation.visit (operation : Operation) (state : SessionState) : Visit × SessionState :=
  match operation.perform.run state.quiet with
  | .ok answer after => (⟨.ok answer, after.reading.cursor, after.reading.log⟩, after.quiet)
  | .error fault after => (⟨.error fault, after.reading.cursor, after.reading.log⟩, after.quiet)

/-- The fault with which a visit ends the block around it. -/
def Visit.ending (visit : Visit) (inBlock caught : Bool) : Option Fault :=
  match visit.outcome with
  | .ok _ => none
  | .error fault => if inBlock && !caught then some fault else none

/-- Ends a block that began at a cursor: what came of it, and the state it leaves, which is
that of the body unless the block failed. -/
def ScriptRun.settle (body : ScriptRun) (giveUp : Option String) (began : Cursor) :
    Visit × SessionState :=
  match body.fault <|> giveUp.map Fault.aborted with
  | none => (⟨.ok .done, body.state.reading.cursor, #[]⟩, body.state)
  | some fault => (⟨.error fault, began, #[]⟩, body.state.backTo began)

/-- Carries out a script, inside of a block or at the top. -/
def Script.run (inBlock : Bool) : Script → SessionState → ScriptRun
  | stop, state => ⟨.done, none, state⟩
  | operation action caught rest, state =>
    let (visit, state) := action.visit state
    match visit.ending inBlock caught with
    | some fault => ⟨.operation visit .done, some fault, state⟩
    | none =>
      let after := rest.run inBlock state
      { after with trace := .operation visit after.trace }
  | block body giveUp caught rest, state =>
    let inner := body.run true state
    let (visit, state) := inner.settle giveUp state.reading.cursor
    match visit.ending inBlock caught with
    | some fault => ⟨.block inner.trace visit .done, some fault, state⟩
    | none =>
      let after := rest.run inBlock state
      { after with trace := .block inner.trace visit after.trace }

/-- Carries out a script from a cursor on. -/
def Script.play (script : Script) (cursor : Cursor) : ScriptRun :=
  script.run false (.start cursor)

end ChunkStrings
