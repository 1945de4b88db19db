import ChunkStrings.Proofs.Emission
import ChunkStrings.Proofs.RecordRun

/-!
# Tables that are read back

What a table of legacy or modern records gives back. The writer of these two layouts writes
records of the layout that it is for: the bytes of a constant are those of a `Record` that
stands for the constant itself, up to the byte behind the string, which the legacy writer
chooses and the modern one leaves out (`Layout.exists_record_of_encode`). So a table is what was
in front of it and a row of records, in spite of the constants that could not be written, and
the row is found again by reading on, or record by record at the noted positions
(`RecordTable.read_back`).

The compact layout is left out for a reason: what its writer writes are no records of it.
-/

namespace ChunkStrings

/-! ### Constants that are read back -/

/-- The constant with another byte behind the string, or with none. -/
def StringConst.withTrailing (trailing : Option UInt8) : StringConst → StringConst
  | null => null
  | present content _ => present content trailing

/-- The byte that is found behind every string that this layout has written. -/
def Layout.terminator : Layout → Option UInt8
  | .legacy => some 0
  | .compact | .modern => none

namespace Layout

variable {layout : Layout} {format : ChunkFormat}

/-- **What is written is a record of what is written.** -/
theorem exists_record_of_encode (hlayout : layout ≠ .compact) {constant : StringConst}
    {bytes : ByteArray} (h : layout.encode format constant = .ok bytes) :
    ∃ record : Record format layout, record.bytes = bytes ∧
      record.value = constant.withTrailing layout.terminator := by
  rw [encode_eq] at h
  cases constant with
  | null =>
    cases h
    cases layout with
    | legacy => exact ⟨.legacy .empty format.width.limit_pos, rfl, rfl⟩
    | compact => exact absurd rfl hlayout
    | modern => exact ⟨.modernNull, by simp [Record.bytes, absent], rfl⟩
  | present content trailing =>
    rcases Nat.lt_or_ge (content.size + 1) format.width.limit with hlt | hle
    · rw [pieces_of_lt hlt] at h
      cases h
      cases layout with
      | legacy =>
        refine ⟨.legacy (content ++ [0].toByteArray) (by simpa using hlt), ?_, ?_⟩
        · simp [Record.bytes, lead, trail]
        · exact StringConst.ofTerminated_append_singleton content 0
      | compact => exact absurd rfl hlayout
      | modern => exact ⟨.modern content hlt, by simp [Record.bytes, lead, trail], rfl⟩
    · rw [pieces_of_le hle] at h
      cases h

end Layout

/-! ### Tables that grow -/

namespace RecordTable

/-- The constants whose records are in a table, each behind the position that was noted for it. -/
def written (table : RecordTable) (constants : List StringConst) : List (Nat × StringConst) :=
  (constants.zip table.entries.toList).filterMap fun (constant, entry) =>
    match entry.result with
    | .ok _ => some (entry.start, constant)
    | .error _ => none

variable {layout : Layout} {format : ChunkFormat} {table : RecordTable} {front : ByteArray}
  {constants : List StringConst} {constant : StringConst}

/-- A constant that can be written adds its record. -/
theorem add_of_ok {bytes : ByteArray} (h : layout.encode format constant = .ok bytes) :
    table.add layout format constant = ⟨table.data ++ bytes,
      table.entries.push ⟨table.data.size, .ok (table.data ++ bytes).size⟩⟩ := by
  have hwrite : (layout.write format constant).run (.growing table.data) = _ :=
    Layout.run_write_growing constant table.data
  rw [h] at hwrite
  rw [add]
  simp only [hwrite]
  rfl

/-- A constant that cannot be written adds nothing but the note of it. -/
theorem add_of_error {fault : Fault} (h : layout.encode format constant = .error fault) :
    table.add layout format constant =
      ⟨table.data, table.entries.push ⟨table.data.size, .error fault⟩⟩ := by
  have hwrite : (layout.write format constant).run (.growing table.data) = _ :=
    Layout.run_write_growing constant table.data
  rw [h] at hwrite
  rw [add]
  simp only [hwrite]
  rfl

theorem written_of_push {data data' : ByteArray} {entries : Array TableEntry} {entry : TableEntry}
    (h : entries.size = constants.length) :
    written ⟨data', entries.push entry⟩ (constants ++ [constant]) =
      written ⟨data, entries⟩ constants ++
        match entry.result with
        | .ok _ => [(entry.start, constant)]
        | .error _ => [] := by
  rw [written, written, Array.toList_push, List.zip_append (by simp [h]), List.filterMap_append]
  cases hresult : entry.result <;> simp [hresult]

/-- **What a table is at any time**: something in front and a row of records, one for every
constant that could be written, whose positions are noted. -/
structure Sound (layout : Layout) (format : ChunkFormat) (front : ByteArray) (table : RecordTable)
    (constants : List StringConst) : Prop where
  /-- There is an entry for every constant. -/
  size_entries : table.entries.size = constants.length
  /-- The constants in the table are those that can be encoded. -/
  map_written : (table.written constants).map (·.2) =
    constants.filter fun constant => (layout.encode format constant).isOk
  /-- Their encodings make up the table, and are records of what is read back. -/
  exists_records : ∃ records : List (Record format layout),
    table.data = front ++ joinBytes (records.map Record.bytes) ∧
    (table.written constants).mapM (fun spot => layout.encode format spot.2) =
      .ok (records.map Record.bytes) ∧
    (table.written constants).map (fun spot => spot.2.withTrailing layout.terminator) =
      records.map Record.value
  /-- Each stands where it was noted to be, whatever comes behind the table. -/
  holds : ∀ spot ∈ table.written constants, ∀ rest, layout.Holds format (table.data ++ rest) spot.1
    (spot.2.withTrailing layout.terminator)

theorem sound_empty (layout : Layout) (format : ChunkFormat) (front : ByteArray) :
    Sound layout format front (.empty front) [] where
  size_entries := rfl
  map_written := rfl
  exists_records := ⟨[], by simp [empty], rfl, rfl⟩
  holds := by simp [written]

/-- **A table stays sound when a constant is added**, whether it can be written or not. -/
theorem Sound.add (hlayout : layout ≠ .compact) (h : Sound layout format front table constants)
    (constant : StringConst) :
    Sound layout format front (table.add layout format constant) (constants ++ [constant]) := by
  obtain ⟨records, hdata, hrecords, hvalues⟩ := h.exists_records
  cases hencode : layout.encode format constant with
  | error fault =>
    -- nothing is written, and what was there is all there is
    have hadd : table.add layout format constant = _ := add_of_error hencode
    have hwritten : (table.add layout format constant).written (constants ++ [constant]) =
        table.written constants := by
      rw [hadd, written_of_push h.size_entries]
      exact List.append_nil _
    refine ⟨?_, ?_, ⟨records, ?_, ?_, ?_⟩, ?_⟩
    · simp [hadd, h.size_entries]
    · rw [hwritten, h.map_written, List.filter_append]
      simp [hencode, Except.isOk, Except.toBool]
    · rw [hadd, hdata]
    · rw [hwritten, hrecords]
    · rw [hwritten, hvalues]
    · rw [hwritten, hadd]
      exact h.holds
  | ok bytes =>
    -- a record more stands behind all others
    obtain ⟨record, rfl, hvalue⟩ := Layout.exists_record_of_encode hlayout hencode
    have hadd : table.add layout format constant = _ := add_of_ok hencode
    have hwritten : (table.add layout format constant).written (constants ++ [constant]) =
        table.written constants ++ [(table.data.size, constant)] := by
      rw [hadd, written_of_push h.size_entries]
    refine ⟨?_, ?_, ⟨records ++ [record], ?_, ?_, ?_⟩, ?_⟩
    · simp [hadd, h.size_entries]
    · rw [hwritten, List.map_append, h.map_written, List.filter_append]
      simp [hencode, Except.isOk, Except.toBool]
    · rw [hadd, hdata]
      simp [ByteArray.append_assoc]
    · rw [hwritten, List.mapM_append, hrecords]
      simp [hencode]
      rfl
    · simp [hwritten, hvalues, hvalue]
    · intro spot hspot rest
      rw [hwritten] at hspot
      rw [hadd]
      rcases List.mem_append.mp hspot with hold | hnew
      · rw [ByteArray.append_assoc]
        exact h.holds spot hold _
      · obtain rfl := List.mem_singleton.mp hnew
        exact ⟨by simp; omega, record, ⟨_, _, by simp⟩, hvalue,
          Cursor.passes_middle rfl ByteArray.size_append _ _⟩

/-- **A table that is built from nothing is sound.** The induction is on the constants that are
still to come, with those that are in the table already left general. -/
theorem Sound.addAll (hlayout : layout ≠ .compact) (h : Sound layout format front table constants)
    (later : List StringConst) :
    Sound layout format front (table.addAll layout format later) (constants ++ later) := by
  induction later generalizing table constants with
  | nil => rwa [List.append_nil]
  | cons constant later ih =>
    have hstep := ih (h.add hlayout constant)
    rwa [List.append_assoc] at hstep

/-- **A table of legacy or modern records is read back as it was written.** The buffer is what was
in front and the records of the constants that could be encoded; read on from there, or at the
noted positions in any order, it gives these constants back, each with the byte behind its
string that the layout writes, and no others. -/
theorem read_back (layout : Layout) (hlayout : layout ≠ .compact) (format : ChunkFormat)
    (front rest : ByteArray) (constants : List StringConst) :
    let table := (empty front).addAll layout format constants
    let written := table.written constants
    let reader : RecordReader := ⟨layout, format⟩
    let again := fun constant : StringConst => constant.withTrailing layout.terminator
    -- what the table holds
    table.entries.size = constants.length ∧
    written.map (·.2) = constants.filter (fun c => (layout.encode format c).isOk) ∧
    (∃ records, written.mapM (fun spot => layout.encode format spot.2) = .ok records ∧
      table.data = front ++ joinBytes records) ∧
    -- reading record after record, whatever comes behind
    (∀ scratch log, ∃ after,
      (do Decode.seek front.size; reader.readN written.length : Decode _).run
          ⟨.start (table.data ++ rest), scratch, log⟩ =
        .ok (written.map fun spot => again spot.2).toArray after ∧
      after.cursor.data = table.data ++ rest ∧ after.cursor.pos = table.data.size) ∧
    -- reading until the data ends, where nothing comes behind
    (∀ scratch log h most, written.length ≤ most →
      (reader.readUntil most ⟨⟨table.data, front.size, h⟩, scratch, log⟩).1 =
        written.map fun spot => .ok (again spot.2)) ∧
    -- reading at the noted positions
    ∀ spots : List (Nat × StringConst), (∀ spot ∈ spots, spot ∈ written) →
      (layout.decodeAll format (table.data ++ rest) (spots.map (·.1))).1 =
        .ok (spots.map fun spot => again spot.2) := by
  intro table written reader again
  have hsound : Sound layout format front table constants :=
    (sound_empty layout format front).addAll hlayout constants
  obtain ⟨records, hdata, hrecords, hvalues⟩ := hsound.exists_records
  have hlength : records.length = written.length := by
    have := congrArg List.length hvalues
    simpa using this.symm
  have hsize : table.data.size = front.size + (joinBytes (records.map Record.bytes)).size := by
    rw [hdata, ByteArray.size_append]
  refine ⟨hsound.size_entries, hsound.map_written, ⟨_, hrecords, hdata⟩, ?_, ?_, ?_⟩
  · intro scratch log
    have hstart : front.size ≤ (table.data ++ rest).size := by
      rw [ByteArray.size_append]
      omega
    have hpass : Cursor.Passes ⟨table.data ++ rest, front.size, hstart⟩
        (joinBytes (records.map Record.bytes)) ⟨table.data ++ rest, table.data.size, by simp⟩ :=
      Cursor.passes_middle (by rw [hdata]) hsize _ _
    obtain ⟨scratch', hrun⟩ : (reader.readN written.length).Yields
        ⟨⟨table.data ++ rest, front.size, hstart⟩, scratch, log⟩ _ _ _ :=
      RecordReader.yields_readN_iff.mpr ⟨records, hlength, rfl, hpass, rfl⟩
    rw [← hvalues] at hrun
    exact ⟨_, Decode.run_bind_eq_ok.mpr ⟨(), _, Decode.run_seek_of_le hstart, hrun⟩, rfl, rfl⟩
  · intro scratch log h most hmost
    have hpass : Cursor.Passes ⟨table.data, front.size, h⟩
        (joinBytes (records.map Record.bytes)) ⟨table.data, table.data.size, Nat.le_refl _⟩ :=
      Cursor.passes_middle (by rw [hdata, ByteArray.append_empty]) hsize _ _
    have hreads : (reader.readUntil most ⟨⟨table.data, front.size, h⟩, scratch, log⟩).1 = _ :=
      RecordReader.fst_readUntil_of_passes hpass rfl (by omega)
    have hresults := congrArg (List.map fun c => (.ok c : Except Fault StringConst)) hvalues
    rw [List.map_map, List.map_map] at hresults
    exact hreads.trans hresults.symm
  · intro spots hspots
    have hholds : ∀ spot ∈ spots.map fun spot => (spot.1, again spot.2),
        layout.Holds format (table.data ++ rest) spot.1 spot.2 := by
      intro spot hspot
      obtain ⟨spot', hmem, rfl⟩ := List.mem_map.mp hspot
      exact hsound.holds spot' (hspots spot' hmem) rest
    have hall := Layout.decodeAll_of_holds hholds
    rwa [List.map_map, List.map_map] at hall

/-- In a chunk with lengths of one byte, a string of 255 bytes is left out of the table, and those
around it are read back in any order. -/
theorem read_back_narrow :
    let format : ChunkFormat := ⟨0x51, ⟨1, by decide, by decide⟩, .big, true⟩
    let long : StringConst := .ofBytes ⟨Array.replicate 255 0x61⟩
    let short : StringConst := .present [0x68, 0x69].toByteArray (some 5)
    let table := (empty [7].toByteArray).addAll .legacy format [.null, long, short, .ofBytes .empty]
    let spots := [(6, .ofBytes .empty), (1, .null), (2, short), (6, .ofBytes .empty)]
    Layout.legacy ≠ .compact ∧
      table.written [.null, long, short, .ofBytes .empty] =
        [(1, .null), (2, short), (6, .ofBytes .empty)] ∧
      (Layout.legacy.decodeAll format (table.data ++ [9].toByteArray) (spots.map (·.1))).1 =
        .ok (spots.map fun spot => spot.2.withTrailing (some 0)) := by
  intro format long short table spots
  have hlayout : Layout.legacy ≠ .compact := by decide
  have hwritten : table.written [.null, long, short, .ofBytes .empty] =
      [(1, .null), (2, short), (6, .ofBytes .empty)] := by
    decide +kernel
  have hmem : ∀ spot ∈ spots, spot ∈ table.written [.null, long, short, .ofBytes .empty] := by
    rw [hwritten]
    decide +kernel
  have hback := read_back .legacy hlayout format [7].toByteArray [9].toByteArray
    [.null, long, short, .ofBytes .empty]
  exact ⟨hlayout, hwritten, hback.2.2.2.2.2 spots hmem⟩

end RecordTable

end ChunkStrings
