import ChunkStrings.Proofs.MachineWords
import ChunkStrings.Session

/-!
# Sessions in machine words

The readers of the three layouts, the operations of a session and its scripts, once more for a
machine that counts in words (see `ChunkStrings.Proofs.MachineWords`). They are written as the
library writes them, over the primitives in words, and each of them does what its original does
because the primitives do and `Refines` composes.

The result is `Script.run_runWords`: whatever a session consists of, as long as its numbers are
words, its run in words comes to its end. No sum in it overflows and no range in it lies outside
of the data, in no operation of any block at any depth.
-/

namespace ChunkStrings

/-! ### Records in words -/

namespace WordDecode

/-- Gathers a byte. -/
def gather : WordDecode Unit := do
  let byte ← byte
  changeKept (·.push byte)

/-- Reads a legacy record. -/
def legacy (format : ChunkFormat) : WordDecode StringConst := do
  let length ← length format
  ensure length
  changeKept fun _ => .empty
  LengthInt.forIndexes (fun _ => gather) length.toNat 0
  let bytes ← kept
  return .ofTerminated bytes

/-- Reads the size of a compact string, behind a size byte other than zero. -/
def compactSize (format : ChunkFormat) (first : UInt8) : WordDecode UInt64 :=
  if first = Compact.extended then length format else pure first.toUInt64

/-- Reads a compact record. -/
def compact (format : ChunkFormat) : WordDecode StringConst := do
  let first ← byte
  if first = 0 then
    return .null
  let size ← compactSize format first
  changeKept fun _ => .empty
  let stored ← take size
  changeKept (· ++ stored)
  changeKept Keystream.apply
  let bytes ← kept
  return .ofBytes bytes

/-- Reads a modern record. The length less one is a difference of words. -/
def modern (format : ChunkFormat) : WordDecode StringConst := do
  let length ← length format
  if length = 0 then
    return .null
  let needed ← sub length 1
  ensure needed
  changeKept fun _ => .empty
  LengthInt.forIndexes (fun index => do if 0 < index then gather) length.toNat 0
  let bytes ← kept
  return .ofBytes bytes

/-- Reads a record, or leaves the position where it is. -/
def record (layout : Layout) (format : ChunkFormat) : WordDecode StringConst :=
  transaction <|
    match layout with
    | .legacy => legacy format
    | .compact => compact format
    | .modern => modern format

/-- Reads so many records onto those read before. -/
def recordsOnto (reader : RecordReader) :
    (count : Nat) → (before : Array StringConst) → WordDecode (Array StringConst)
  | 0, before => return before
  | count + 1, before => do
    let constant ← record reader.layout reader.format
    recordsOnto reader count (before.push constant)

/-- Reads so many records, or leaves the position where it is. -/
def records (reader : RecordReader) (count : UInt64) : WordDecode (Array StringConst) :=
  transaction (recordsOnto reader count.toNat #[])

variable (format : ChunkFormat)

theorem refines_gather : Refines Eq gather (do let byte ← Decode.byte; Decode.keep byte) := by
  refine refines_byte.bind ?_
  rintro byte _ rfl
  exact refines_changeKept (·.push byte)

theorem refines_legacy : Refines Eq (legacy format) (Legacy.decode format) := by
  rw [legacy, Legacy.decode]
  refine (refines_length format).bind fun word length hlength => ?_
  rw [LengthInt.iterate, ← hlength]
  refine (refines_ensure word).bind fun _ _ _ => ?_
  refine (refines_changeKept fun _ => .empty).bind fun _ _ _ => ?_
  refine (Refines.forIndexes (fun _ => refines_gather) word.toNat 0).bind fun _ _ _ => ?_
  refine refines_kept.bind ?_
  rintro bytes _ rfl
  exact refines_pure rfl

/-- One can be taken off a word that is not zero. -/
theorem sub_one_of_ne {word : UInt64} (h : word ≠ 0) :
    sub word 1 = pure (word - 1) ∧ (word - 1).toNat = word.toNat - 1 := by
  have hpos : word.toNat ≠ 0 := fun hzero => h (UInt64.toNat_inj.mp hzero)
  have hone : (1 : UInt64) ≤ word := by
    rw [UInt64.le_iff_toNat_le]
    exact Nat.one_le_iff_ne_zero.mpr hpos
  exact ⟨if_pos hone, UInt64.toNat_sub_of_le _ _ hone⟩

theorem refines_modern : Refines Eq (modern format) (Modern.decode format) := by
  rw [modern, Modern.decode]
  refine (refines_length format).bind fun word length hlength => ?_
  rw [LengthInt.iterate, ← hlength]
  refine Refines.ite UInt64.toNat_inj.symm (fun _ => refines_pure rfl) fun hword => ?_
  -- the absent string is out of the way, so there is a one to take off
  obtain ⟨hsub, hvalue⟩ := sub_one_of_ne hword
  rw [hsub, pure_bind, ← hvalue]
  refine (refines_ensure (word - 1)).bind fun _ _ _ => ?_
  refine (refines_changeKept fun _ => .empty).bind fun _ _ _ => ?_
  refine (Refines.forIndexes (fun index => ?_) word.toNat 0).bind fun _ _ _ => ?_
  · exact Refines.ite Iff.rfl (fun _ => refines_gather) fun _ => refines_pure rfl
  refine refines_kept.bind ?_
  rintro bytes _ rfl
  exact refines_pure rfl

theorem refines_compactSize (first : UInt8) :
    Refines (fun word size => word.toNat = size) (compactSize format first)
      (Compact.decodeSize format first) := by
  rw [compactSize, Compact.decodeSize]
  refine Refines.ite Iff.rfl (fun _ => ?_) fun _ => refines_pure (UInt8.toNat_toUInt64 first)
  refine (refines_length format).bind_right fun word length hlength => ?_
  have hnote : Refines (fun word size => word.toNat = size) (pure () >>= fun _ => pure word) _ :=
    (refines_note (.extendedSize length.value)).bind fun _ _ _ => refines_pure hlength
  exact hnote

theorem refines_compact : Refines Eq (compact format) (Compact.decode format) := by
  rw [compact, Compact.decode]
  refine refines_byte.bind ?_
  rintro first _ rfl
  refine Refines.ite Iff.rfl (fun _ => refines_pure rfl) fun _ => ?_
  refine (refines_compactSize format first).bind ?_
  rintro word _ rfl
  refine (refines_changeKept fun _ => .empty).bind fun _ _ _ => ?_
  refine (refines_take word).bind ?_
  rintro stored _ rfl
  refine (refines_changeKept (· ++ stored)).bind fun _ _ _ => ?_
  refine (refines_changeKept Keystream.apply).bind fun _ _ _ => ?_
  refine refines_kept.bind ?_
  rintro bytes _ rfl
  exact refines_pure rfl

/-- Every layout is read in words as it is in numbers. What is logged about a string is left
out. -/
theorem refines_record (layout : Layout) :
    Refines Eq (record layout format) (layout.decodeTraced format) := by
  have hdecode : Refines Eq (record layout format) (layout.decode format) := by
    refine refines_transaction ?_
    cases layout with
    | legacy => exact refines_legacy format
    | compact => exact refines_compact format
    | modern => exact refines_modern format
  refine hdecode.bind_right ?_
  rintro constant _ rfl
  cases format.traced with
  | false => exact refines_pure rfl
  | true =>
    cases constant with
    | null => exact refines_pure rfl
    | present content trailing =>
      exact (refines_note (.parsed content)).bind fun _ _ _ => refines_pure rfl

theorem refines_recordsOnto (reader : RecordReader) (count : Nat) (before : Array StringConst) :
    Refines Eq (recordsOnto reader count before) (reader.readOnto count before) := by
  induction count generalizing before with
  | zero => exact refines_pure rfl
  | succ count ih =>
    refine (refines_record reader.format reader.layout).bind ?_
    rintro constant _ rfl
    exact ih (before.push constant)

theorem refines_records (reader : RecordReader) (count : UInt64) :
    Refines Eq (records reader count) (reader.readN count.toNat) :=
  refines_transaction (refines_recordsOnto reader count.toNat #[])

end WordDecode

/-! ### Operations in words -/

/-- What the operations of a session in words share. -/
structure WordSession where
  /-- The position, the data and the scratch buffer. -/
  reading : WordState
  /-- The last reader of records that was made, once one was needed and could be made. -/
  reader : Option RecordReader

instance : InWords SessionState WordSession where
  inWords state := ⟨InWords.inWords state.reading, state.reader⟩
  data state := state.reading.cursor.data

namespace WordSession

/-- Lets a reading computation be one of the session. What it gives is left out. -/
def perform {α : Type} (action : WordDecode α) : EStateM Halt WordSession Unit
  | ⟨reading, reader⟩ =>
    match action.run reading with
    | .ok _ reading => .ok () ⟨reading, reader⟩
    | .error halt reading => .error halt ⟨reading, reader⟩

/-- A computation that fails as this one does. -/
def lift {α : Type} : Except Fault α → EStateM Halt WordSession α
  | .ok value => pure value
  | .error fault => throw (.fault fault)

/-- The reader for a format, which the session keeps. -/
def readerFor (format : ChunkFormat) : EStateM Halt WordSession RecordReader
  | ⟨reading, last⟩ =>
    match Session.readerAfter last format with
    | .ok reader => .ok reader ⟨reading, some reader⟩
    | .error fault => .error (.fault fault) ⟨reading, last⟩

theorem refines_perform {α β : Type} {R : β → α → Prop} {words : WordDecode β}
    {action : Decode α} (h : Refines R words action) (answer : α → Answer) :
    Refines (fun _ _ => True) (perform words) (do
      let value ← Session.read action
      return answer value) := by
  rintro ⟨reading, reader⟩ hsize
  have hinner : Agrees R _ (words (InWords.inWords reading)) (action reading) := h reading hsize
  rw [EStateM.run_bind]
  simp only [Session.read, EStateM.run]
  change Agrees _ _ (perform words ⟨InWords.inWords reading, reader⟩) _
  simp only [perform, EStateM.run]
  generalize words (InWords.inWords reading) = left at hinner ⊢
  generalize action reading = right at hinner ⊢
  cases hinner with
  | @ok word value after hvalue hdata =>
    change Agrees _ _ (.ok () (InWords.inWords (⟨after, reader⟩ : SessionState))) _
    exact .ok trivial hdata
  | @error fault after hdata =>
    change Agrees _ _ (.error _ (InWords.inWords (⟨after, reader⟩ : SessionState))) _
    exact .error hdata

theorem refines_lift {α : Type} (value : Except Fault α) :
    Refines Eq (lift value) (liftExcept value : Session α) := by
  cases value with
  | ok value => exact refines_pure rfl
  | error fault => exact refines_throw fault

theorem refines_readerFor (format : ChunkFormat) :
    Refines Eq (readerFor format) (Session.reader format) := by
  rintro ⟨reading, last⟩ hsize
  change Agrees _ _ (readerFor format ⟨InWords.inWords reading, last⟩)
    (Session.reader format ⟨reading, last⟩)
  rw [readerFor, Session.reader]
  cases Session.readerAfter last format with
  | ok reader =>
    change Agrees _ _ (.ok reader (InWords.inWords (⟨reading, some reader⟩ : SessionState))) _
    exact .ok rfl rfl
  | error fault =>
    change Agrees _ _ (.error _ (InWords.inWords (⟨reading, last⟩ : SessionState))) _
    exact .error rfl

end WordSession

/-- The numbers of an operation are words, or fit into a byte where it takes one. -/
def Operation.Fits : Operation → Prop
  | seek number | bytes number | ensure number | records _ number => number < byteLimit 8
  | uint width _ => width < byteLimit 1
  | word _ _ | inspect | length _ | record _ | recordAs _ _ => True

instance Operation.decidableFits : DecidablePred Operation.Fits
  | seek number | bytes number | ensure number | records _ number =>
    inferInstanceAs (Decidable (number < byteLimit 8))
  | uint width _ => inferInstanceAs (Decidable (width < byteLimit 1))
  | word _ _ | inspect | length _ | record _ | recordAs _ _ => inferInstanceAs (Decidable True)

/-- Carries out an operation in words. What it answers is left out. -/
def Operation.performWords : Operation → EStateM Halt WordSession Unit
  | seek pos => WordSession.perform (WordDecode.seek (UInt64.ofNat pos))
  | word size order => WordSession.perform (WordDecode.word size order)
  | uint width order => WordSession.perform (WordDecode.uint (UInt64.ofNat width) order)
  | bytes count => WordSession.perform (WordDecode.take (UInt64.ofNat count))
  | ensure needed => WordSession.perform (WordDecode.ensure (UInt64.ofNat needed))
  | inspect => pure ()
  | length format => WordSession.perform (WordDecode.length format)
  | record format => do
    let reader ← WordSession.readerFor format
    WordSession.perform (WordDecode.record reader.layout reader.format)
  | records format count => do
    let reader ← WordSession.readerFor format
    WordSession.perform (WordDecode.records reader (UInt64.ofNat count))
  | recordAs format (some layout) => WordSession.perform (WordDecode.record layout format)
  | recordAs format none => do
    let layout ← WordSession.lift (Layout.ofFormat format)
    WordSession.perform (WordDecode.record layout format)

/-- **Every operation does in words what it does in numbers.** -/
theorem Operation.refines_performWords {operation : Operation} (h : operation.Fits) :
    Refines (fun _ _ => True) operation.performWords operation.perform := by
  cases operation with
  | seek pos => exact WordSession.refines_perform (WordDecode.refines_seek h) fun _ => .done
  | word size order =>
    exact WordSession.refines_perform (WordDecode.refines_word size order) (.number ·.toNat)
  | uint width order =>
    have hlt : width < byteLimit 8 := Nat.lt_of_lt_of_le h (by decide)
    have huint := WordDecode.refines_uint (UInt64.ofNat width) order
    rw [toNat_ofNat_of_lt hlt] at huint
    exact WordSession.refines_perform huint .number
  | bytes count =>
    have htake := WordDecode.refines_take (UInt64.ofNat count)
    rw [toNat_ofNat_of_lt h] at htake
    exact WordSession.refines_perform htake .bytes
  | ensure needed =>
    have hensure := WordDecode.refines_ensure (UInt64.ofNat needed)
    rw [toNat_ofNat_of_lt h] at hensure
    exact WordSession.refines_perform hensure fun _ => .done
  | inspect => exact fun state _ => .ok trivial rfl
  | length format => exact WordSession.refines_perform (WordDecode.refines_length format) .length
  | record format =>
    refine (WordSession.refines_readerFor format).bind ?_
    rintro reader _ rfl
    exact WordSession.refines_perform (WordDecode.refines_record reader.format reader.layout)
      .constant
  | records format count =>
    refine (WordSession.refines_readerFor format).bind ?_
    rintro reader _ rfl
    have hrecords := WordDecode.refines_records reader (UInt64.ofNat count)
    rw [toNat_ofNat_of_lt h] at hrecords
    exact WordSession.refines_perform hrecords .constants
  | recordAs format layout =>
    cases layout with
    | some layout =>
      exact WordSession.refines_perform (WordDecode.refines_record format layout) .constant
    | none =>
      refine (WordSession.refines_lift (Layout.ofFormat format)).bind ?_
      rintro layout _ rfl
      exact WordSession.refines_perform (WordDecode.refines_record format layout) .constant

/-! ### Scripts in words -/

namespace WordSession

/-- Carries out an operation and tells why it failed, if it did. -/
def attempt (action : EStateM Halt WordSession Unit) : EStateM Halt WordSession (Option Fault) :=
  fun state =>
    match action.run state with
    | .ok _ after => .ok none after
    | .error (.fault fault) after => .ok (some fault) after
    | .error halt after => .error halt after

/-- Ends a block that began at a position: it goes back there if it failed. -/
def settle (pos : UInt64) : Option Fault → EStateM Halt WordSession Unit
  | none => pure ()
  | some _ => modify fun state => { state with reading := { state.reading with pos } }

/-- The fault with which a step ends the block around it. -/
def ending (fault : Option Fault) (inBlock caught : Bool) : Option Fault :=
  if inBlock && !caught then fault else none

end WordSession

/-- Carries out a script in words. The result is the fault that ended it before its end, if any. -/
def Script.runWords (inBlock : Bool) : Script → EStateM Halt WordSession (Option Fault)
  | stop => return none
  | operation action caught rest => do
    let fault ← WordSession.attempt action.performWords
    match WordSession.ending fault inBlock caught with
    | some fault => return some fault
    | none => rest.runWords inBlock
  | block body giveUp caught rest => do
    let began ← get
    let fault ← body.runWords true
    let fault := fault <|> giveUp.map Fault.aborted
    WordSession.settle began.reading.pos fault
    match WordSession.ending fault inBlock caught with
    | some fault => return some fault
    | none => rest.runWords inBlock

/-- All numbers of a script are words. -/
def Script.Fits : Script → Prop
  | stop => True
  | operation action _ rest => action.Fits ∧ rest.Fits
  | block body _ _ rest => body.Fits ∧ rest.Fits

instance Script.decidableFits : DecidablePred Script.Fits
  | stop => inferInstanceAs (Decidable True)
  | operation action _ rest =>
    have := decidableFits rest
    inferInstanceAs (Decidable (action.Fits ∧ rest.Fits))
  | block body _ _ rest =>
    have := decidableFits body
    have := decidableFits rest
    inferInstanceAs (Decidable (body.Fits ∧ rest.Fits))

/-- Why a visit failed, if it did. -/
def Visit.fault (visit : Visit) : Option Fault :=
  match visit.outcome with
  | .ok _ => none
  | .error fault => some fault

theorem Visit.ending_eq (visit : Visit) (inBlock caught : Bool) :
    visit.ending inBlock caught = WordSession.ending visit.fault inBlock caught := by
  rw [ending, WordSession.ending, fault]
  cases visit.outcome <;> simp

/-- An operation that is attempted in words comes to what its visit tells. -/
theorem Operation.run_attempt_performWords {operation : Operation}
    (h : operation.Fits) {state : SessionState}
    (hsize : state.reading.cursor.data.size < byteLimit 8) :
    (WordSession.attempt operation.performWords).run (InWords.inWords state) =
        .ok (operation.visit state).1.fault
          (InWords.inWords (operation.visit state).2) ∧
      (operation.visit state).2.reading.cursor.data = state.reading.cursor.data := by
  have hrun : Agrees _ _ (operation.performWords.run (InWords.inWords state))
    (operation.perform.run state.quiet) := refines_performWords h state.quiet hsize
  change (match operation.performWords.run (InWords.inWords state) with
    | .ok _ after => EStateM.Result.ok none after
    | .error (.fault fault) after => .ok (some fault) after
    | .error halt after => .error halt after) = _ ∧ _
  rw [visit]
  generalize operation.performWords.run (InWords.inWords state) = left at hrun ⊢
  generalize operation.perform.run state.quiet = right at hrun ⊢
  cases hrun with
  | ok hvalue hdata => exact ⟨rfl, hdata⟩
  | error hdata => exact ⟨rfl, hdata⟩

/-- A block ends in words as it does in numbers, as long as its body has left the data alone. -/
theorem ScriptRun.run_settle (body : ScriptRun) (giveUp : Option String) {began : Cursor}
    (hdata : body.state.reading.cursor.data = began.data) :
    (body.settle giveUp began).1.fault = (body.fault <|> giveUp.map Fault.aborted) ∧
      (WordSession.settle (UInt64.ofNat began.pos) (body.fault <|> giveUp.map Fault.aborted)).run
          (InWords.inWords body.state) =
        .ok () (InWords.inWords (body.settle giveUp began).2) ∧
      (body.settle giveUp began).2.reading.cursor.data = began.data := by
  rw [settle]
  cases body.fault <|> giveUp.map Fault.aborted with
  | none => exact ⟨rfl, rfl, hdata⟩
  | some fault =>
    have hback : WordState.mk body.state.reading.cursor.data (UInt64.ofNat began.pos)
        body.state.reading.scratch = InWords.inWords (body.state.backTo began).reading :=
      congrArg (WordState.mk · _ _) hdata
    refine ⟨rfl, ?_, rfl⟩
    exact congrArg (fun reading => EStateM.Result.ok () (WordSession.mk reading _)) hback

/-- **A session never goes wrong in words.** The induction is on the script, over the blocks in it
and over what comes after each step, with the state left general. -/
theorem Script.run_runWords {script : Script} (h : script.Fits)
    (inBlock : Bool) {state : SessionState}
    (hsize : state.reading.cursor.data.size < byteLimit 8) :
    (script.runWords inBlock).run (InWords.inWords state) =
        .ok (script.run inBlock state).fault
          (InWords.inWords (script.run inBlock state).state) ∧
      (script.run inBlock state).state.reading.cursor.data = state.reading.cursor.data := by
  induction script generalizing inBlock state with
  | stop => exact ⟨rfl, rfl⟩
  | operation action caught rest ih =>
    obtain ⟨hattempt, hdata⟩ := action.run_attempt_performWords h.1 hsize
    rw [runWords, EStateM.run_bind, hattempt, Script.run]
    generalize action.visit state = result at hdata ⊢
    rw [← hdata] at hsize
    simp only [Visit.ending_eq]
    cases WordSession.ending result.1.fault inBlock caught with
    | some fault => exact ⟨rfl, hdata⟩
    | none =>
      obtain ⟨hrun, hdata'⟩ := ih h.2 inBlock hsize
      exact ⟨hrun, hdata'.trans hdata⟩
  | block body giveUp caught rest ihBody ihRest =>
    -- the position that the block began at is that of a cursor in the same data
    obtain ⟨hinner, hinnerData⟩ := ihBody h.1 true hsize
    rw [Script.run]
    generalize body.run true state = inner at hinner hinnerData ⊢
    obtain ⟨hfault, hsettle, hdata⟩ := inner.run_settle giveUp hinnerData
    change (body.runWords true >>= _).run (InWords.inWords state) = _ ∧ _
    rw [EStateM.run_bind, hinner]
    change (WordSession.settle (UInt64.ofNat state.reading.cursor.pos) _ >>= _).run
      (InWords.inWords inner.state) = _ ∧ _
    rw [EStateM.run_bind, hsettle, ← hfault]
    generalize inner.settle giveUp state.reading.cursor = result at hdata ⊢
    rw [← hdata] at hsize
    simp only [Visit.ending_eq]
    cases WordSession.ending result.1.fault inBlock caught with
    | some fault => exact ⟨rfl, hdata⟩
    | none =>
      obtain ⟨hrun, hdata'⟩ := ihRest h.2 inBlock hsize
      exact ⟨hrun, hdata'.trans hdata⟩

end ChunkStrings
