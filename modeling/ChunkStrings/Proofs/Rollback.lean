import ChunkStrings.Proofs.MachineSession
import ChunkStrings.Proofs.RecordRun

/-!
# Cursors that go back

What a session does to its cursor. No step changes the data, and a step that fails leaves the
cursor where it was when the step began, be it an operation or a whole block with other blocks
in it: this is `Trace.Steady`, a statement about all visits of a trace, and `Script.run_steady`
proves it of every run by induction on the script.

What one operation does is `Operation.steady_perform`. It rests on two facts about failing: a
single read fails before it moves, and whatever is put together from several reads is a
transaction. A read that is neither, and moves before it fails, would have no proof there.

`Script.play_steady` joins this with the run of the same session in machine words.
-/

namespace ChunkStrings

/-! ### Computations that keep their place -/

section Steady

variable {σ α β : Type} {cursor : σ → Cursor}

/-- **An outcome keeps the place** where a computation began: the data is the same, and after a
failure the whole cursor is. -/
inductive Keeps (cursor : σ → Cursor) (began : Cursor) : EStateM.Result Fault σ α → Prop where
  /-- A result, in the same data. -/
  | ok {value : α} {after : σ} (h : (cursor after).data = began.data) :
      Keeps cursor began (.ok value after)
  /-- A failure, with the cursor where it was. -/
  | error {fault : Fault} {after : σ} (h : cursor after = began) :
      Keeps cursor began (.error fault after)

/-- A computation that keeps its place wherever it begins. -/
def Steady (cursor : σ → Cursor) (action : EStateM Fault σ α) : Prop :=
  ∀ before, Keeps cursor (cursor before) (action.run before)

variable {action : EStateM Fault σ α}

/-- Making something of the result moves nothing. -/
theorem Steady.map (h : Steady cursor action) (make : α → β) :
    Steady cursor (do let value ← action; return make value) := by
  intro before
  have hkeeps := h before
  rw [EStateM.run_bind]
  generalize action.run before = result at hkeeps ⊢
  cases hkeeps with
  | ok h => exact .ok h
  | error h => exact .error h

/-- What does not move the cursor at all may come first. -/
theorem Steady.bind_of_still {next : α → EStateM Fault σ β}
    (hfirst : ∀ before, (∃ value after, action.run before = .ok value after ∧
        cursor after = cursor before) ∨
      ∃ fault after, action.run before = .error fault after ∧ cursor after = cursor before)
    (hnext : ∀ value, Steady cursor (next value)) : Steady cursor (action >>= next) := by
  intro before
  rw [EStateM.run_bind]
  rcases hfirst before with ⟨value, after, hrun, hstill⟩ | ⟨fault, after, hrun, hstill⟩
  · rw [hrun, ← hstill]
    exact hnext value after
  · rw [hrun]
    exact .error hstill

end Steady

/-! ### Reading -/

namespace Decode

theorem steady_seek (pos : Nat) : Steady DecodeState.cursor (seek pos) := by
  intro before
  rcases Nat.lt_or_ge before.cursor.data.size pos with hbeyond | hle
  · rw [run_seek_of_lt hbeyond]
    exact .error rfl
  · rw [run_seek_of_le hle]
    exact .ok rfl

theorem steady_ensure (needed : Nat) : Steady DecodeState.cursor (ensure needed) := by
  intro before
  rcases Nat.lt_or_ge before.cursor.remaining needed with hlt | hle
  · rw [run_ensure_of_lt hlt]
    exact .error rfl
  · rw [run_ensure_of_le hle]
    exact .ok rfl

/-- The bytes are counted before the cursor moves. -/
theorem steady_take (count : Nat) : Steady DecodeState.cursor (take count) := by
  intro before
  rcases Nat.lt_or_ge before.cursor.remaining count with hlt | hle
  · rw [run_take_of_lt hlt]
    exact .error rfl
  · rw [run_take_of_le hle]
    exact .ok rfl

theorem steady_word (size : WordSize) (order : ByteOrder) :
    Steady DecodeState.cursor (word size order) :=
  (steady_take size.bytes).map _

theorem steady_uint (width : Nat) (order : ByteOrder) :
    Steady DecodeState.cursor (uint width order) := by
  rw [uint]
  cases Width.ofNat width with
  | ok width => exact (steady_take width.bytes).map _
  | error fault => exact fun before => .error rfl

theorem steady_length (format : ChunkFormat) :
    Steady DecodeState.cursor (LengthInt.decode format) := by
  intro before
  rcases Nat.lt_or_ge before.cursor.remaining format.width.bytes with hlt | hle
  · rw [LengthInt.run_decode_of_lt hlt]
    exact .error rfl
  · obtain ⟨length, cursor, hrun, -, hpass⟩ := LengthInt.exists_run_decode_of_le hle
    rw [hrun]
    exact .ok hpass.data_eq

/-- **A transaction keeps its place** if it leaves the data alone when it succeeds, whatever it
has done when it fails. -/
theorem steady_transaction {α : Type} {action : Decode α}
    (h : ∀ {before value after}, action.run before = .ok value after →
      after.cursor.data = before.cursor.data) :
    Steady DecodeState.cursor (transaction action) := by
  intro before
  rcases hrun : action.run before with ⟨value, after⟩ | ⟨fault, after⟩
  · rw [run_transaction_of_ok hrun]
    exact .ok (h hrun)
  · rw [run_transaction_of_error hrun]
    exact .error rfl

end Decode

/-- Reading a record keeps its place. -/
theorem Layout.steady_decodeTraced (layout : Layout) (format : ChunkFormat) :
    Steady DecodeState.cursor (layout.decodeTraced format) := by
  have hdecode : Steady DecodeState.cursor (layout.decode format) := by
    refine Decode.steady_transaction fun {before value after} h => ?_
    have hrun : (layout.decode format).run before = .ok value after :=
      Decode.run_transaction_of_ok h
    obtain ⟨record, -, hpass, -⟩ := yields_decode_iff.mp (Decode.yields_of_run hrun)
    exact hpass.data_eq
  -- what is logged about the string comes after the transaction and cannot fail
  intro before
  have hkeeps := hdecode before
  rcases hrun : (layout.decode format).run before with ⟨constant, after⟩ | ⟨fault, after⟩
  · rw [hrun] at hkeeps
    rw [run_decodeTraced_of_ok hrun]
    cases hkeeps with
    | ok h => exact .ok h
  · rw [hrun] at hkeeps
    rw [run_decodeTraced_of_error hrun]
    exact hkeeps

/-- Reading several records keeps its place. -/
theorem RecordReader.steady_readN (reader : RecordReader) (count : Nat) :
    Steady DecodeState.cursor (reader.readN count) := by
  refine Decode.steady_transaction fun {before constants after} h => ?_
  obtain ⟨records, -, -, hpass, -⟩ := yields_readOnto_iff.mp (Decode.yields_of_run h)
  exact hpass.data_eq

/-! ### Operations -/

/-- The cursor of a session. -/
def SessionState.cursor (state : SessionState) : Cursor := state.reading.cursor

namespace Session

theorem steady_read {α : Type} {action : Decode α} (h : Steady DecodeState.cursor action) :
    Steady SessionState.cursor (read action) := by
  rintro ⟨reading, reader⟩
  have hkeeps : Keeps DecodeState.cursor reading.cursor (action reading) := h reading
  change Keeps _ _ (read action ⟨reading, reader⟩)
  simp only [read, EStateM.run]
  generalize action reading = result at hkeeps ⊢
  cases hkeeps with
  | ok h => exact .ok h
  | error h => exact .error h

/-- Making a reader does not touch the cursor. -/
theorem steady_reader_bind {α : Type} {format : ChunkFormat} {next : RecordReader → Session α}
    (h : ∀ reader, Steady SessionState.cursor (next reader)) :
    Steady SessionState.cursor (reader format >>= next) := by
  refine Steady.bind_of_still ?_ h
  rintro ⟨reading, last⟩
  simp only [EStateM.run, reader]
  cases readerAfter last format with
  | ok reader => exact .inl ⟨reader, ⟨reading, some reader⟩, rfl, rfl⟩
  | error fault => exact .inr ⟨fault, ⟨reading, last⟩, rfl, rfl⟩

end Session

/-- **Every operation keeps its place.** -/
theorem Operation.steady_perform (operation : Operation) :
    Steady SessionState.cursor operation.perform := by
  cases operation with
  | seek pos => exact (Session.steady_read (Decode.steady_seek pos)).map _
  | word size order => exact (Session.steady_read (Decode.steady_word size order)).map _
  | uint width order => exact (Session.steady_read (Decode.steady_uint width order)).map _
  | bytes count => exact (Session.steady_read (Decode.steady_take count)).map _
  | ensure needed => exact (Session.steady_read (Decode.steady_ensure needed)).map _
  | inspect => exact fun before => .ok rfl
  | length format => exact (Session.steady_read (Decode.steady_length format)).map _
  | record format =>
    exact Session.steady_reader_bind fun reader =>
      (Session.steady_read (reader.layout.steady_decodeTraced reader.format)).map _
  | records format count =>
    exact Session.steady_reader_bind fun reader =>
      (Session.steady_read (reader.steady_readN count)).map _
  | recordAs format layout =>
    cases layout with
    | some layout => exact (Session.steady_read (layout.steady_decodeTraced format)).map _
    | none =>
      rw [perform]
      cases Layout.ofFormat format with
      | ok layout => exact (Session.steady_read (layout.steady_decodeTraced format)).map _
      | error fault => exact fun before => .error rfl

/-! ### Traces -/

/-- **What is true of a cursor in this data**, wherever it stands. -/
structure Cursor.In (cursor : Cursor) (data : ByteArray) : Prop where
  /-- The data is this. -/
  data_eq : cursor.data = data
  /-- The position is one of the data, of which the end is one. -/
  pos_le : cursor.pos ≤ data.size
  /-- What remains is what is behind the position. -/
  remaining_eq : cursor.remaining = data.size - cursor.pos
  /-- There is more exactly if something remains. -/
  hasMore_iff : cursor.hasMore ↔ 0 < cursor.remaining

theorem Cursor.in_of_data_eq {cursor : Cursor} {data : ByteArray} (h : cursor.data = data) :
    cursor.In data where
  data_eq := h
  pos_le := h ▸ cursor.pos_le
  remaining_eq := h ▸ rfl
  hasMore_iff := cursor.hasMore_iff

/-- The step that a visit is of stands in the data, and where it began if it failed. -/
structure Visit.Steady (visit : Visit) (began : Cursor) : Prop where
  /-- The cursor is in the data in which the step began. -/
  cursor_in : visit.cursor.In began.data
  /-- A step that failed is where it began. -/
  cursor_eq : ∀ fault, visit.outcome = .error fault → visit.cursor = began

namespace Trace

/-- Where a trace leaves the cursor that it began with. -/
def last : Trace → (began : Cursor) → Cursor
  | done, began => began
  | operation visit rest, _ => rest.last visit.cursor
  | block _ visit rest, _ => rest.last visit.cursor

/-- **Every step of a trace keeps its place**, from this cursor on: an operation or a block that
failed is back where it began, whatever was carried out in it, and a block that succeeded is
where the last step in it was. -/
def Steady : Trace → (began : Cursor) → Prop
  | done, _ => True
  | operation visit rest, began => visit.Steady began ∧ rest.Steady visit.cursor
  | block inner visit rest, began =>
    inner.Steady began ∧ visit.Steady began ∧
      (∀ answer, visit.outcome = .ok answer → visit.cursor = inner.last began) ∧
      rest.Steady visit.cursor

end Trace

/-- What an operation does to the cursor is told by its visit. -/
theorem Operation.steady_visit (operation : Operation) (state : SessionState) :
    (operation.visit state).1.Steady state.cursor ∧
      (operation.visit state).2.cursor = (operation.visit state).1.cursor := by
  have hkeeps := operation.steady_perform state.quiet
  rw [visit]
  generalize operation.perform.run state.quiet = result at hkeeps ⊢
  cases hkeeps with
  | ok h =>
    refine ⟨⟨Cursor.in_of_data_eq h, fun fault hfault => ?_⟩, rfl⟩
    cases hfault
  | error h => exact ⟨⟨Cursor.in_of_data_eq (congrArg Cursor.data h), fun _ _ => h⟩, rfl⟩

/-- A block goes back if it fails, and else stays where its body has left off. -/
theorem ScriptRun.steady_settle (body : ScriptRun) (giveUp : Option String) {began : Cursor}
    (hdata : body.state.cursor.data = began.data) :
    (body.settle giveUp began).1.Steady began ∧
      (∀ answer, (body.settle giveUp began).1.outcome = .ok answer →
        (body.settle giveUp began).1.cursor = body.state.cursor) ∧
      (body.settle giveUp began).2.cursor = (body.settle giveUp began).1.cursor := by
  rw [settle]
  cases body.fault <|> giveUp.map Fault.aborted with
  | none =>
    refine ⟨⟨Cursor.in_of_data_eq hdata, fun fault hfault => ?_⟩, fun _ _ => rfl, rfl⟩
    cases hfault
  | some fault =>
    refine ⟨⟨Cursor.in_of_data_eq rfl, fun _ _ => rfl⟩, fun answer hanswer => ?_, rfl⟩
    cases hanswer

/-- **Every run keeps its place in every step**, and ends where its trace does. The induction is on
the script, over the blocks in it and over what comes after each step. -/
theorem Script.run_steady (script : Script) (inBlock : Bool) (state : SessionState) :
    (script.run inBlock state).trace.Steady state.cursor ∧
      (script.run inBlock state).state.cursor =
        (script.run inBlock state).trace.last state.cursor ∧
      (script.run inBlock state).state.cursor.data = state.cursor.data := by
  induction script generalizing inBlock state with
  | stop => exact ⟨trivial, rfl, rfl⟩
  | operation action caught rest ih =>
    obtain ⟨hvisit, hcursor⟩ := action.steady_visit state
    rw [Script.run]
    generalize action.visit state = result at hvisit hcursor ⊢
    have hdata := hvisit.cursor_in.data_eq
    simp only
    cases result.1.ending inBlock caught with
    | some fault => exact ⟨⟨hvisit, trivial⟩, hcursor, hcursor ▸ hdata⟩
    | none =>
      obtain ⟨hsteady, hlast, hdata'⟩ := ih inBlock result.2
      rw [hcursor] at hsteady hlast hdata'
      exact ⟨⟨hvisit, hsteady⟩, hlast, hdata'.trans hdata⟩
  | block body giveUp caught rest ihBody ihRest =>
    obtain ⟨hinner, hinnerLast, hinnerData⟩ := ihBody true state
    rw [Script.run]
    generalize body.run true state = inner at hinner hinnerLast hinnerData ⊢
    have hsettle := inner.steady_settle giveUp hinnerData
    -- where the body has left the cursor is where its trace ends
    rw [hinnerLast] at hsettle
    rw [SessionState.cursor] at hsettle
    generalize inner.settle giveUp state.reading.cursor = result at hsettle ⊢
    obtain ⟨hvisit, hstays, hcursor⟩ := hsettle
    have hdata := hvisit.cursor_in.data_eq
    simp only
    cases result.1.ending inBlock caught with
    | some fault => exact ⟨⟨hinner, hvisit, hstays, trivial⟩, hcursor, hcursor ▸ hdata⟩
    | none =>
      obtain ⟨hsteady, hlast, hdata'⟩ := ihRest inBlock result.2
      rw [hcursor] at hsteady hlast hdata'
      exact ⟨⟨hinner, hvisit, hstays, hsteady⟩, hlast, hdata'.trans hdata⟩

/-- Outside of all blocks, no failure ends the session. -/
theorem Script.fault_run_top (script : Script) (state : SessionState) :
    (script.run false state).fault = none := by
  have hending : ∀ (visit : Visit) caught, visit.ending false caught = none := by
    intro visit caught
    rw [Visit.ending_eq]
    rfl
  induction script generalizing state with
  | stop => rfl
  | operation action caught rest ih =>
    rw [Script.run]
    simp only [hending]
    exact ih _
  | block body giveUp caught rest _ ih =>
    rw [Script.run]
    simp only [hending]
    exact ih _

/-- **Sessions keep their place, and never go wrong in machine words.** From any cursor on, every
step of a session stays in the data that it began in, and is back where it began if it fails; a
block that succeeds is where its last step was. The session is carried out to its end, and
where it ends is where its trace does. If its numbers and the size of the data are words, the
same session ends in the same state in words: no sum in it overflows, and no range that it looks
up is outside of the data. -/
theorem Script.play_steady (script : Script) (cursor : Cursor) :
    let run := script.play cursor
    run.trace.Steady cursor ∧ run.fault = none ∧
      run.state.cursor = run.trace.last cursor ∧ run.state.cursor.In cursor.data ∧
      (cursor.data.size < byteLimit 8 → script.Fits →
        (script.runWords false).run (InWords.inWords (SessionState.start cursor)) =
          .ok none (InWords.inWords run.state)) := by
  intro run
  obtain ⟨hsteady, hlast, hdata⟩ := script.run_steady false (.start cursor)
  have hfault := script.fault_run_top (.start cursor)
  refine ⟨hsteady, hfault, hlast, Cursor.in_of_data_eq hdata, fun hsize hfits => ?_⟩
  obtain ⟨hwords, -⟩ : (script.runWords false).run
      (InWords.inWords (SessionState.start cursor)) = _ ∧ _ :=
    Script.run_runWords hfits false hsize
  rwa [hfault] at hwords

/-- A block reads a record in one format and fails to read one in another, which it puts up with, and
then asks for as many bytes as a word can count; a read from where it began comes next. -/
theorem Script.play_steady_block :
    let modern : ChunkFormat := ⟨0x54, ⟨1, by decide, by decide⟩, .little, true⟩
    let legacy : ChunkFormat := ⟨0x51, ⟨4, by decide, by decide⟩, .big, false⟩
    let cursor : Cursor := .start [2, 0x61, 9].toByteArray
    let script : Script :=
      .block (.operation (.record modern) false (.operation (.records legacy 1) true
        (.operation (.bytes 0xffffffffffffffff) false .stop)))
        none false (.operation (.bytes 2) false .stop)
    cursor.data.size < byteLimit 8 ∧ script.Fits ∧
      (script.play cursor).state.cursor.pos = 2 ∧
      (script.runWords false).run (InWords.inWords (SessionState.start cursor)) =
        .ok none (InWords.inWords (script.play cursor).state) := by
  intro modern legacy cursor script
  have hsize : cursor.data.size < byteLimit 8 := by decide
  have hfits : script.Fits := by decide
  have hpos : (script.play cursor).state.cursor.pos = 2 := by decide +kernel
  exact ⟨hsize, hfits, hpos, (play_steady script cursor).2.2.2.2 hsize hfits⟩

end ChunkStrings
