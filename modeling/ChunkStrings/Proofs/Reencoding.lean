import ChunkStrings.Proofs.Emission
import ChunkStrings.Proofs.RecordRun

/-!
# Records that are written back

The opposite direction of `ChunkStrings.Proofs.TableRoundTrip`: not what the writer writes is
read, but what the reader accepts is written again, whoever wrote it. A legacy or modern record
can always be written back in the format that it was read in, since a length that was read fits
into the width that it was read from, and what is written is what was read
(`Record.encode_value`): byte for byte in the modern layout, and up to the byte behind the
string in the legacy one, where the reader takes any byte and the writer knows only zero.

`RecordReader.encode_of_readN` says so of a whole row of records. The bytes of the single
records are found as the reader goes over them (`RecordReader.spans`).
-/

namespace ChunkStrings

/-! ### A record written back -/

namespace Layout

/-- What the writer of a layout makes of a record of a constant: the legacy writer closes every
string with a zero byte, whatever stood there. -/
def closed (layout : Layout) (constant : StringConst) (record : ByteArray) : ByteArray :=
  match layout, constant with
  | .legacy, .present _ _ => record.extract 0 (record.size - 1) ++ [0].toByteArray
  | _, _ => record

variable {layout : Layout}

theorem closed_append_singleton (content front : ByteArray) (trailing : Option UInt8)
    (byte : UInt8) : legacy.closed (.present content trailing) (front ++ [byte].toByteArray) =
      front ++ [0].toByteArray := by
  have hsize : (front ++ [byte].toByteArray).size - 1 = front.size := by simp
  rw [closed, hsize, ByteArray.extract_append_eq_left rfl]

theorem closed_modern (hlayout : layout = .modern) (constant : StringConst)
    (record : ByteArray) : layout.closed constant record = record := by
  subst hlayout
  cases constant <;> rfl

end Layout

namespace Record

variable {format : ChunkFormat} {layout : Layout}

/-- **A record is written back as it was**, but for the byte that closes a legacy string. -/
theorem encode_value (hlayout : layout ≠ .compact) (record : Record format layout) :
    layout.encode format record.value = .ok (layout.closed record.value record.bytes) := by
  rw [Layout.encode_eq]
  cases record with
  | legacy stored fits =>
    rcases Nat.eq_zero_or_pos stored.size with hzero | hpos
    · obtain rfl := ByteArray.size_eq_zero_iff.mp hzero
      simp [value, bytes, StringConst.ofTerminated, Layout.pieces, Layout.absent, Layout.closed,
        Except.map]
    · -- whatever byte stands behind the string, it is the one that is replaced
      obtain ⟨content, byte, rfl⟩ := exists_eq_append_singleton hpos
      have hsize : (content ++ [byte].toByteArray).size = content.size + 1 := by simp
      have hfits : content.size + 1 < format.width.limit := hsize ▸ fits
      rw [value, StringConst.ofTerminated_append_singleton, Layout.pieces_of_lt hfits, bytes,
        hsize, ← ByteArray.append_assoc, Layout.closed_append_singleton]
      simp only [Layout.lead, Layout.trail, Except.map, List.cons_append, List.nil_append,
        joinBytes_cons, joinBytes_nil, ByteArray.append_empty, ByteArray.append_assoc]
  | modernNull =>
    simp [value, bytes, Layout.pieces, Layout.absent, Layout.closed, Except.map]
  | modern content fits =>
    rw [value, StringConst.ofBytes, Layout.pieces_of_lt fits]
    simp [bytes, Layout.lead, Layout.trail, Layout.closed, Except.map]
  | compactNull => exact absurd rfl hlayout
  | compactShort stored pos short => exact absurd rfl hlayout
  | compactLong stored fits => exact absurd rfl hlayout

end Record

/-! ### A row of records written back -/

namespace RecordReader

/-- The bytes of so many records, each as the reader goes over it. -/
def spans (reader : RecordReader) : (count : Nat) → DecodeState → List ByteArray
  | 0, _ => []
  | count + 1, before =>
    match reader.read.run before with
    | .ok _ after =>
      before.cursor.data.extract before.cursor.pos after.cursor.pos :: reader.spans count after
    | .error _ _ => []

variable {reader : RecordReader} {before after : DecodeState} {cursor : Cursor}

/-- Where records stand, their bytes are what the reader goes over. The induction follows the
records, with the state left general. -/
theorem spans_of_passes {records : List (Record reader.format reader.layout)}
    (hpass : before.cursor.Passes (joinBytes (records.map Record.bytes)) cursor) :
    reader.spans records.length before = records.map Record.bytes := by
  induction records generalizing before with
  | nil => rfl
  | cons record records ih =>
    obtain ⟨between, hfirst, hrest⟩ := hpass.split
    obtain ⟨scratch, hread⟩ := yields_read_iff.mpr ⟨record, rfl, hfirst, rfl⟩
    have hlater : reader.spans records.length ⟨between, scratch, before.log ++ record.lines⟩ = _ :=
      ih hrest
    rw [List.length_cons, spans, hread, List.map_cons, ← hlater, ← hfirst.run_eq]

/-- A row of records is written back record by record. -/
theorem mapM_encode_value (hlayout : reader.layout ≠ .compact)
    (records : List (Record reader.format reader.layout)) :
    (records.map Record.value).mapM (reader.layout.encode reader.format) =
      .ok (List.zipWith reader.layout.closed (records.map Record.value)
        (records.map Record.bytes)) := by
  induction records with
  | nil => rfl
  | cons record records ih =>
    rw [List.map_cons, List.mapM_cons, record.encode_value hlayout, ih]
    rfl

/-- A row of modern records is written back as it was. -/
theorem zipWith_closed_modern (records : List (Record reader.format reader.layout))
    (hmodern : reader.layout = .modern) :
    List.zipWith reader.layout.closed (records.map Record.value) (records.map Record.bytes) =
      records.map Record.bytes := by
  rw [List.zipWith_map, List.zipWith_self]
  exact List.map_congr_left fun record _ => Layout.closed_modern hmodern _ _

/-- **What is read as legacy or modern records is written back as it was.** All constants can be
encoded in the format that they were read in. In the modern layout the encodings are the very
bytes that were read, so these bytes are the only ones that are read as these constants; in the
legacy layout they differ from them at most in the last byte of each record that holds a string,
which is zero in the encoding. -/
theorem encode_of_readN {count : Nat} {constants : Array StringConst}
    (hlayout : reader.layout ≠ .compact)
    (h : (reader.readN count).run before = .ok constants after) :
    let read := before.cursor.data.extract before.cursor.pos after.cursor.pos
    let spans := reader.spans count before
    spans.length = count ∧ joinBytes spans = read ∧
    ∃ encodings, constants.toList.mapM (reader.layout.encode reader.format) = .ok encodings ∧
      encodings = List.zipWith reader.layout.closed constants.toList spans ∧
      (reader.layout = .modern → joinBytes encodings = read) ∧
      (reader.layout = .modern → ∀ before' after',
        (reader.readN count).run before' = .ok constants after' →
          before'.cursor.data.extract before'.cursor.pos after'.cursor.pos = read) := by
  intro read spans
  obtain ⟨records, rfl, rfl, hpass, -⟩ := yields_readN_iff.mp (Decode.yields_of_run h)
  have hspans : spans = records.map Record.bytes := spans_of_passes hpass
  have hread : read = joinBytes (records.map Record.bytes) := hpass.run_eq
  have hencode := mapM_encode_value hlayout records
  refine ⟨by simp [hspans], by rw [hspans, hread], _, hencode, by rw [hspans], ?_, ?_⟩
  · intro hmodern
    rw [zipWith_closed_modern records hmodern, hread]
  · intro hmodern before' after' h'
    obtain ⟨records', -, hvalues, hpass', -⟩ := yields_readN_iff.mp (Decode.yields_of_run h')
    -- the bytes of modern records are what their constants are encoded to
    have hvalues' : records'.map Record.value = records.map Record.value :=
      (congrArg Array.toList hvalues).symm
    have hencode' := mapM_encode_value hlayout records'
    rw [zipWith_closed_modern records' hmodern, hvalues', hencode,
      zipWith_closed_modern records hmodern] at hencode'
    rw [hpass'.run_eq, hread, Except.ok.inj hencode']

/-- Two legacy records with an absent string between them, closed by bytes that are not zero. -/
theorem encode_of_readN_legacy :
    let reader : RecordReader := ⟨.legacy, 0x51, ⟨1, by decide, by decide⟩, .big, true⟩
    let before : DecodeState := .start [3, 0x68, 0x69, 0x41, 0, 2, 0x78, 7].toByteArray
    let constants := #[.present [0x68, 0x69].toByteArray (some 0x41), .null,
      .present [0x78].toByteArray (some 7)]
    reader.layout ≠ .compact ∧
      (∃ after, (reader.readN 3).run before = .ok constants after) ∧
      ∃ encodings, constants.toList.mapM (reader.layout.encode reader.format) = .ok encodings ∧
        joinBytes encodings = [3, 0x68, 0x69, 0, 0, 2, 0x78, 0].toByteArray := by
  intro reader before constants
  have hlayout : reader.layout ≠ .compact := by decide
  have hread : ∃ after, (reader.readN 3).run before = .ok constants after :=
    Decode.fst_attempt_eq_ok.mp (by decide +kernel)
  obtain ⟨after, h⟩ := hread
  obtain ⟨-, -, encodings, hencode, hclosed, -⟩ := encode_of_readN hlayout h
  refine ⟨hlayout, ⟨after, h⟩, encodings, hencode, ?_⟩
  rw [hclosed]
  decide +kernel

end RecordReader

end ChunkStrings
