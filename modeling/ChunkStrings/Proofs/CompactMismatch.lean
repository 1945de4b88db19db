import ChunkStrings.Proofs.Emission
import ChunkStrings.Proofs.RecordRun

/-!
# What the compact writer and reader make of each other

The compact writer announces one byte more than it writes, and the compact reader believes what
is announced. So of what the writer writes, the reader wants one byte more than there is: alone,
a string is cut short, and with anything behind it, the first byte of that becomes the last byte
of the string (`Layout.decode_encode_compact`).

The other direction is a consequence. A record that can be read is one that the reader has
enough of, and what the writer writes never is: so no string is ever written as the record that
it was read from. The size byte and the size behind the greatest size byte need not be told
apart for this, nor the widths, since the first direction has dealt with them.
-/

namespace ChunkStrings

variable {format : ChunkFormat}

/-! ### Announcing a size -/

namespace Compact

/-- Behind what announces a size, as many bytes are a record. -/
theorem exists_record_of_lead {stored : ByteArray} (hpos : 0 < stored.size)
    (hfits : stored.size < format.width.limit) :
    ∃ record : Record format .compact,
      record.bytes = joinBytes (Layout.compact.lead format stored.size) ++ stored ∧
      record.value = .ofBytes (Keystream.apply stored) := by
  by_cases hshort : stored.size < extended.toNat
  · refine ⟨.compactShort stored hpos hshort, ?_, rfl⟩
    simp only [Record.bytes, Layout.lead, if_pos hshort, joinBytes_cons, joinBytes_nil,
      ByteArray.append_empty]
  · refine ⟨.compactLong stored hfits, ?_, rfl⟩
    simp only [Record.bytes, Layout.lead, if_neg hshort, joinBytes_cons, joinBytes_nil,
      ByteArray.append_empty, ByteArray.append_assoc]

variable {before : DecodeState} {cursor : Cursor} {size : Nat}

/-- Once the reader has passed over what announces a size, it goes on to read as many bytes. -/
theorem run_decode_of_lead (hpos : 0 < size) (hfits : size < format.width.limit)
    (hpass : before.cursor.Passes (joinBytes (Layout.compact.lead format size)) cursor) :
    ∃ log, (decode format).run before = (decodeContent size).run { before with cursor, log } := by
  rw [decode_eq]
  by_cases hshort : size < extended.toNat
  · obtain ⟨hval, hzero, hext⟩ := toNat_ofNat_of_short hpos hshort
    rw [Layout.lead, if_pos hshort, joinBytes_cons, joinBytes_nil, ByteArray.append_empty]
      at hpass
    have hbyte := Decode.run_byte_eq_ok.mpr ⟨cursor, hpass, rfl⟩
    refine ⟨before.log, ?_⟩
    rw [EStateM.run_bind, hbyte]
    simp only [if_neg hzero]
    rw [EStateM.run_bind, run_decodeSize_of_ne hext, hval]
  · rw [Layout.lead, if_neg hshort, joinBytes_cons, joinBytes_cons, joinBytes_nil,
      ByteArray.append_empty] at hpass
    obtain ⟨between, hfirst, hfield⟩ := hpass.split
    have hbyte := Decode.run_byte_eq_ok.mpr ⟨between, hfirst, rfl⟩
    have hsize : (decodeSize format extended).run { before with cursor := between } = _ :=
      run_decodeSize_extended_eq_ok.mpr ⟨hfits, cursor, hfield, rfl⟩
    refine ⟨before.log.push (.extendedSize size), ?_⟩
    rw [EStateM.run_bind, hbyte]
    simp only [show extended ≠ 0 by decide, if_false]
    rw [EStateM.run_bind, hsize]

end Compact

/-! ### The two directions -/

namespace Layout

/-- A string that is announced with more bytes than are left is not read. -/
theorem run_decodeTraced_of_lead {before : DecodeState} {cursor : Cursor} {size : Nat}
    (hpos : 0 < size) (hfits : size < format.width.limit)
    (hpass : before.cursor.Passes (joinBytes (compact.lead format size)) cursor)
    (hshort : cursor.remaining < size) :
    ∃ after, (compact.decodeTraced format).run before =
      .error (.truncated size cursor.remaining) after ∧ after.cursor = before.cursor := by
  obtain ⟨log, hrun⟩ := Compact.run_decode_of_lead hpos hfits hpass
  have hcontent : (Compact.decodeContent size).run { before with cursor, log } = _ :=
    Compact.run_decodeContent_of_lt hshort
  rw [hcontent] at hrun
  exact ⟨_, run_decodeTraced_of_error (Decode.run_transaction_of_error hrun), rfl⟩

/-- The bytes that are written for a string are what announces one byte more, and the string. -/
theorem encode_compact_eq_ok {content bytes : ByteArray} {trailing : Option UInt8} :
    compact.encode format (.present content trailing) = .ok bytes ↔
      content.size + 1 < format.width.limit ∧
      bytes = joinBytes (compact.lead format (content.size + 1)) ++ content := by
  rw [encode_eq, pieces]
  split
  case isTrue h => simp [Except.map, trail, h, eq_comm]
  case isFalse h => simp [Except.map, h]

variable {content written : ByteArray} {trailing : Option UInt8}

/-- What is written for a string is cut short when it stands at the end of the data. -/
theorem run_decodeTraced_encode_compact
    (h : compact.encode format (.present content trailing) = .ok written)
    (front scratch : ByteArray) (log : Array LogLine) :
    ∃ after, (compact.decodeTraced format).run ⟨.between front written, scratch, log⟩ =
        .error (.truncated (content.size + 1) content.size) after ∧
      after.cursor = .between front written := by
  obtain ⟨hfits, rfl⟩ := encode_compact_eq_ok.mp h
  have hpass := Cursor.passes_between front (joinBytes (compact.lead format (content.size + 1)))
    content
  have hrun : ∃ after, (compact.decodeTraced format).run ⟨.between front _, scratch, log⟩ = _ ∧ _ :=
    run_decodeTraced_of_lead (Nat.succ_pos _) hfits hpass (by simp [Cursor.remaining_between])
  rwa [Cursor.remaining_between] at hrun

/-- What is written for a string is a record of one byte more, with the byte that comes behind. -/
theorem exists_record_of_encode_compact
    (h : compact.encode format (.present content trailing) = .ok written) (byte : UInt8) :
    ∃ record : Record format .compact, record.bytes = written ++ [byte].toByteArray ∧
      record.value = .ofBytes (Keystream.apply (content.push byte)) := by
  obtain ⟨hfits, rfl⟩ := encode_compact_eq_ok.mp h
  have hsize : (content.push byte).size = content.size + 1 := ByteArray.size_push
  obtain ⟨record, hbytes, hvalue⟩ := Compact.exists_record_of_lead (by omega) (hsize ▸ hfits)
  refine ⟨record, ?_, hvalue⟩
  rw [hbytes, hsize, ByteArray.append_assoc]
  simp

/-- No string is written as a record of the layout. -/
theorem encode_compact_ne_bytes (record : Record format .compact) :
    compact.encode format (.present content trailing) ≠ .ok record.bytes := by
  intro h
  obtain ⟨after, hcut, -⟩ := run_decodeTraced_encode_compact h .empty .empty #[]
  -- alone in its data, a record is read, and what was written is cut short
  obtain ⟨after', hread, -⟩ := record.exists_run_decodeTraced .empty .empty .empty #[]
  rw [ByteArray.append_empty, hcut] at hread
  cases hread

/-- **No compact string is read back as it was written, nor written back as it was read.** Alone,
what is written is cut short, and the cursor stays; with anything behind it, the first byte of
that is taken for the last one of the string. A record of a string is therefore never what is
written for its string, if that can be written at all. Only the absent string is its own
encoding in both directions. -/
theorem decode_encode_compact (format : ChunkFormat) (scratch : ByteArray)
    (log : Array LogLine) :
    let reading := fun front rest : ByteArray =>
      (compact.decodeTraced format).run ⟨.between front rest, scratch, log⟩
    -- reading what was written
    (∀ constant written, compact.encode format constant = .ok written → ∀ front,
      match constant with
      | .null => ∀ rest, ∃ after, reading front (written ++ rest) = .ok .null after ∧
          after.cursor.pos = front.size + 1
      | .present content _ =>
        (∃ after, reading front written =
            .error (.truncated (content.size + 1) content.size) after ∧
          after.cursor = .between front written) ∧
        ∀ byte rest, ∃ after, reading front (written ++ ([byte].toByteArray ++ rest)) =
            .ok (.ofBytes (Keystream.apply (content.push byte))) after ∧
          after.cursor.pos = front.size + written.size + 1) ∧
    -- writing what was read
    ∀ front read rest constant after, reading front (read ++ rest) = .ok constant after →
      after.cursor.pos = front.size + read.size →
      match constant with
      | .null => compact.encode format .null = .ok read
      | .present content trailing =>
        compact.encode format (.present content trailing) =
            .error (.valueTooLarge (content.size + 1) format.width.bytes) ∨
          ∃ written, compact.encode format (.present content trailing) = .ok written ∧
            written ≠ read := by
  intro reading
  refine ⟨?_, ?_⟩
  · intro constant written h front
    cases constant with
    | null =>
      intro rest
      obtain rfl : [0].toByteArray = written := by
        simpa [encode_eq, pieces, absent, Except.map] using h
      obtain ⟨after, hread, hafter⟩ :=
        (Record.compactNull : Record format _).exists_run_decodeTraced front rest scratch log
      exact ⟨after, hread, by rw [hafter]; exact ByteArray.size_append⟩
    | present content trailing =>
      refine ⟨run_decodeTraced_encode_compact h front scratch log, ?_⟩
      intro byte rest
      obtain ⟨record, hbytes, hvalue⟩ := exists_record_of_encode_compact h byte
      obtain ⟨after, hread, hafter⟩ := record.exists_run_decodeTraced front rest scratch log
      rw [hbytes, ByteArray.append_assoc, hvalue] at hread
      refine ⟨after, hread, ?_⟩
      rw [hafter, hbytes]
      simp
      omega
  · intro front read rest constant after h hpos
    obtain ⟨record, rfl, rfl⟩ := exists_record_of_run h hpos
    cases hvalue : record.value with
    | null =>
      cases record with
      | compactNull => rfl
      | compactShort stored pos short => cases hvalue
      | compactLong stored fits => cases hvalue
    | present content trailing =>
      rcases Nat.lt_or_ge (content.size + 1) format.width.limit with hlt | hle
      · have hwritten : compact.encode format (.present content trailing) = .ok _ :=
          encode_compact_eq_ok.mpr ⟨hlt, rfl⟩
        refine .inr ⟨_, hwritten, ?_⟩
        intro heq
        exact encode_compact_ne_bytes record (heq ▸ hwritten)
      · refine .inl ?_
        rw [encode_eq, pieces_of_le hle]
        rfl

/-- In a chunk with lengths of one byte, the longest string that can be written needs a size behind
the greatest size byte; it is cut short, and swallows a byte of what comes behind. -/
theorem decode_encode_compact_narrow :
    let format : ChunkFormat := ⟨0x53, ⟨1, by decide, by decide⟩, .little, false⟩
    let content : ByteArray := ⟨Array.replicate 254 0x61⟩
    let written := [0xff, 0xff].toByteArray ++ content
    compact.encode format (.ofBytes content) = .ok written ∧
      (∃ after, (compact.decodeTraced format).run ⟨.between .empty written, .empty, #[]⟩ =
        .error (.truncated (content.size + 1) content.size) after) ∧
      ∃ after, (compact.decodeTraced format).run
          ⟨.between .empty (written ++ ([7].toByteArray ++ .empty)), .empty, #[]⟩ =
        .ok (.ofBytes (Keystream.apply (content.push 7))) after := by
  intro format content written
  have hsize : content.size + 1 = 255 := congrArg (· + 1) Array.size_replicate
  have hlead : joinBytes (compact.lead format 255) = [0xff, 0xff].toByteArray := by decide
  have hwritten : compact.encode format (.ofBytes content) = .ok written :=
    encode_compact_eq_ok.mpr ⟨hsize ▸ (by decide), by rw [hsize, hlead]⟩
  have hmismatch := (decode_encode_compact format .empty #[]).1 (.ofBytes content) written hwritten
  obtain ⟨⟨after, hcut, -⟩, hswallow⟩ := hmismatch .empty
  obtain ⟨after', hread, -⟩ := hswallow 7 .empty
  exact ⟨hwritten, ⟨after, hcut⟩, after', hread⟩

end Layout

end ChunkStrings
