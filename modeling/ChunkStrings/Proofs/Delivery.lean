import ChunkStrings.Proofs.EncodedSize

/-!
# What arrives at a sink

A record is written in several pieces, and a sink with an end to it may be full after any byte of
any piece. The pieces do not show, though: to write one run of bytes and then another is to write
both as one, also where the first of them meets the end of the sink, since nothing is written
behind a write that has failed (`Emit.bytes_bind_bytes`). So what is written in pieces might as
well be written at once (`Emit.all_eq_bytes`).

All writers of the library have then one form: they settle what is to be written without a look
at the sink, and write it at once. `Emit.Delivers` says what that comes to at a sink of either
kind, with anything in it, and `Layout.write_delivers` which output it is that the writers of
records, of lengths and of stored integers deliver.
-/

namespace ChunkStrings

/-! ### Writing at once -/

namespace Emit

/-- To write nothing is to do nothing, even where there is no room. -/
theorem bytes_empty : bytes .empty = pure () := by
  funext sink
  obtain ⟨written, _ | room⟩ := sink
  · change EStateM.Result.ok () (Sink.growing (written ++ .empty)) = _
    rw [ByteArray.append_empty]
    rfl
  · change (bytes .empty).run (.bounded written room) = _
    rw [run_bytes_of_le (Nat.zero_le room), ByteArray.append_empty]
    rfl

/-- **Two runs of bytes one after the other are one run**, at every sink. Where the sink has an
end, the cases are the places for it: in the first run, in the second, behind both. -/
theorem bytes_bind_bytes (left right : ByteArray) :
    (bytes left >>= fun _ => bytes right) = bytes (left ++ right) := by
  funext sink
  obtain ⟨written, _ | room⟩ := sink
  · change EStateM.Result.ok () (Sink.growing (written ++ left ++ right)) = _
    rw [ByteArray.append_assoc]
    rfl
  change (bytes left >>= fun _ => bytes right).run (.bounded written room) =
    (bytes (left ++ right)).run (.bounded written room)
  have hsize : (left ++ right).size = left.size + right.size := ByteArray.size_append
  rw [EStateM.run_bind]
  rcases Nat.lt_or_ge room left.size with hfirst | hfirst
  · rw [run_bytes_of_lt hfirst, run_bytes_of_lt (by omega), ByteArray.extract_append,
      Nat.sub_eq_zero_of_le (Nat.le_of_lt hfirst), Nat.zero_sub, ByteArray.extract_same,
      ByteArray.append_empty]
  rw [run_bytes_of_le hfirst]
  change (bytes right).run (.bounded (written ++ left) (room - left.size)) = _
  rcases Nat.lt_or_ge (room - left.size) right.size with hsecond | hsecond
  · have hleft : left.extract 0 room = left := by
      rw [← Nat.max_eq_left hfirst, ByteArray.extract_zero_max_size]
    rw [run_bytes_of_lt hsecond, run_bytes_of_lt (by omega), ByteArray.extract_append, hleft,
      Nat.zero_sub, ByteArray.append_assoc]
  · rw [run_bytes_of_le hsecond, run_bytes_of_le (by omega), ByteArray.append_assoc, hsize,
      Nat.sub_add_eq]

/-- **Pieces one after another are one run.** -/
theorem all_eq_bytes (pieces : List ByteArray) : all pieces = bytes (joinBytes pieces) := by
  induction pieces with
  | nil => rw [all, joinBytes_nil, bytes_empty]
  | cons run runs ih => rw [all, ih, joinBytes_cons, bytes_bind_bytes]

/-! ### What arrives -/

/-- What a computation leaves in an empty buffer that grows, or why it fails there. -/
def output (action : Emit Unit) : Except Fault ByteArray :=
  match action.run (.growing .empty) with
  | .ok _ sink => .ok sink.written
  | .error fault _ => .error fault

/-- **A computation delivers an output to every sink**, or as much of it as the sink takes. -/
structure Delivers (action : Emit Unit) (output : Except Fault ByteArray) : Prop where
  /-- If there is no output, then for the same reason at every sink, and nothing arrives. -/
  refused {fault : Fault} (h : output = .error fault) (sink : Sink) :
    action.run sink = .error fault sink
  /-- A buffer that grows has the output behind what it held before. -/
  grown {bytes : ByteArray} (h : output = .ok bytes) (written : ByteArray) :
    action.run (.growing written) = .ok () (.growing (written ++ bytes))
  /-- Where there is an end, the bytes of the output arrive for which there is room, the first ones
  first; and the computation succeeds if these are all of them, and finds the sink full if not. -/
  bounded {bytes : ByteArray} (h : output = .ok bytes) (written : ByteArray) (room : Nat) :
    let arrived := bytes.extract 0 (min room bytes.size)
    let after := Sink.bounded (written ++ arrived) (room - arrived.size)
    arrived.size = min room bytes.size ∧
      action.run (.bounded written room) =
        if bytes.size ≤ room then .ok () after else .error .sinkFull after

/-- Settles what is to be written, and then writes it at once. -/
def emit (output : Except Fault ByteArray) : Emit Unit := liftExcept output >>= bytes

theorem emit_ok (run : ByteArray) : emit (.ok run) = bytes run := rfl

/-- **What is written at once is delivered.** -/
theorem delivers_emit (output : Except Fault ByteArray) : (emit output).Delivers output where
  refused := by
    rintro fault rfl sink
    rfl
  grown := by
    rintro bytes rfl written
    exact run_bytes_growing bytes written
  bounded := by
    rintro bytes rfl written room
    have harrived : (bytes.extract 0 (min room bytes.size)).size = min room bytes.size := by
      rw [ByteArray.size_extract]
      omega
    refine ⟨harrived, ?_⟩
    rw [harrived, emit_ok]
    rcases Nat.lt_or_ge room bytes.size with hlt | hle
    · rw [run_bytes_of_lt hlt, if_neg (Nat.not_le.mpr hlt), Nat.min_eq_left (Nat.le_of_lt hlt),
        Nat.sub_self]
    · rw [run_bytes_of_le hle, if_pos hle, Nat.min_eq_right hle, ByteArray.extract_zero_size]

end Emit

/-! ### The writers -/

namespace StoredUInt

/-- The bytes of a stored integer, or why there are none: the width is looked at first, and then
whether the value fits. -/
def encode (value width : Nat) (order : ByteOrder) : Except Fault ByteArray := do
  let width ← Width.ofNat width
  if fits value width.bytes then return (order.encode width.bytes value).toByteArray
  else throw (.valueTooLarge value width.bytes)

theorem write_eq_emit (value width : Nat) (order : ByteOrder) :
    write value width order = Emit.emit (encode value width order) := by
  rw [write, encode]
  cases Width.ofNat width with
  | error fault => rfl
  | ok width =>
    change (if fits value width.bytes then _ else _) =
      Emit.emit (if fits value width.bytes then _ else _)
    split <;> rfl

end StoredUInt

namespace LengthInt

/-- A length fits into its own width, so it always has bytes. -/
theorem write_eq_emit (length : LengthInt) (format : ChunkFormat) : length.write format =
    Emit.emit (.ok (format.order.encode length.width.bytes length.value).toByteArray) := by
  rw [write, StoredUInt.write_eq_emit, StoredUInt.encode, Width.ofNat_bytes]
  exact congrArg Emit.emit (if_pos (decide_eq_true length.fits))

end LengthInt

namespace Layout

variable {layout : Layout} {format : ChunkFormat}

/-- **A record might as well be written at once.** -/
theorem write_eq_emit (constant : StringConst) :
    layout.write format constant = Emit.emit (layout.encode format constant) := by
  rw [write_eq, encode_eq]
  cases layout.pieces format constant with
  | ok pieces => exact Emit.all_eq_bytes pieces
  | error fault => rfl

/-- **Every writer delivers what it writes into an empty buffer**: to a buffer that grows all of it,
behind what is there, and to a sink with an end its first bytes, as many as there is room for. For
a record that is its encoding; it is missing only for strings that are too large, and then no byte
arrives at any sink. A length has the bytes of its value in its own width, and an integer those
that `StoredUInt.encode` settles. -/
theorem write_delivers (layout : Layout) (format : ChunkFormat) :
    -- records
    (∀ constant, (layout.write format constant).Delivers (layout.encode format constant)) ∧
    (∀ constant fault, layout.encode format constant = .error fault →
      ∃ content trailing, constant = .present content trailing ∧
        fault = .valueTooLarge (content.size + 1) format.width.bytes) ∧
    -- lengths
    (∀ length : LengthInt,
      (length.write format).output =
          .ok (format.order.encode length.width.bytes length.value).toByteArray ∧
        (length.write format).Delivers (length.write format).output) ∧
    -- stored integers
    ∀ value width order,
      (StoredUInt.write value width order).output = StoredUInt.encode value width order ∧
        (StoredUInt.write value width order).Delivers (StoredUInt.write value width order).output := by
  have houtput : ∀ output, (Emit.emit output).output = output := by
    intro output
    cases output with
    | ok bytes => exact congrArg Except.ok ByteArray.empty_append
    | error fault => rfl
  refine ⟨fun constant => ?_, fun constant fault h => ?_, fun length => ?_,
    fun value width order => ?_⟩
  · rw [write_eq_emit]
    exact Emit.delivers_emit _
  · cases constant with
    | null =>
      rw [encode_null] at h
      cases h
    | present content trailing =>
      refine ⟨content, trailing, rfl, ?_⟩
      rcases Nat.lt_or_ge (content.size + 1) format.width.limit with hlt | hle
      · obtain ⟨bytes, hbytes⟩ := exists_encode_iff.mpr hlt
        rw [hbytes] at h
        cases h
      · rw [encode_of_le hle] at h
        cases h
        rfl
  · rw [LengthInt.write_eq_emit, houtput]
    exact ⟨rfl, Emit.delivers_emit _⟩
  · rw [StoredUInt.write_eq_emit, houtput]
    exact ⟨rfl, Emit.delivers_emit _⟩

/-- With lengths of one byte, into a sink with room for two: of a legacy string the length arrives
and a byte of the string, of a string that is too large nothing, and an integer just fits. -/
theorem write_delivers_narrow :
    let format : ChunkFormat := ⟨0x51, ⟨1, by decide, by decide⟩, .big, false⟩
    let long : ByteArray := ⟨Array.replicate 255 0x61⟩
    let sink : Sink := .bounded [7].toByteArray 2
    (legacy.write format (.ofText "hi")).run sink =
        .error .sinkFull (.bounded [7, 3, 0x68].toByteArray 0) ∧
      (legacy.write format (.ofBytes long)).run sink = .error (.valueTooLarge 256 1) sink ∧
      (StoredUInt.write 0x1234 2 .big).run sink =
        .ok () (.bounded [7, 0x12, 0x34].toByteArray 0) := by
  intro format long sink
  obtain ⟨hrecords, -, -, hintegers⟩ := write_delivers legacy format
  have hshort : legacy.encode format (.ofText "hi") = .ok [3, 0x68, 0x69, 0].toByteArray := by
    decide +kernel
  have hsize : long.size = 255 := Array.size_replicate
  have hlong : legacy.encode format (.ofBytes long) = .error (.valueTooLarge 256 1) :=
    (encode_of_le (by rw [hsize]; decide)).trans (by rw [hsize])
  obtain ⟨houtput, hdelivers⟩ := hintegers 0x1234 2 .big
  have hinteger : StoredUInt.encode 0x1234 2 .big = .ok [0x12, 0x34].toByteArray := by decide
  refine ⟨?_, (hrecords _).refused hlong sink, ?_⟩
  · exact ((hrecords _).bounded hshort [7].toByteArray 2).2.trans rfl
  · exact (hdelivers.bounded (houtput.trans hinteger) [7].toByteArray 2).2.trans rfl

end Layout

end ChunkStrings
