import ChunkStrings.Proofs.SuccessiveReads

/-!
# Reading to the end

No layout has an empty record, not even for the absent string: a record takes at least a size
byte in the compact layout, and a whole length in the others (`Record.least_le`). Therefore
every record that is read brings the cursor nearer to the end of the data, and whoever reads on
until no data is left or a record cannot be read comes to an end, whatever the data is. The loop
that does so (`RecordReader.readAll`) needs no other bound; what remains of the data is its
measure.

The pieces of the data that the records take up stand one behind another (`Tile`), so every byte
from the first to the last is in one of them and in no other. There are no more of them than
there is room for, and reading more records than that at once fails.
-/

namespace ChunkStrings

/-! ### The size of a record -/

/-- The least number of bytes that a record takes. -/
def Layout.least (layout : Layout) (format : ChunkFormat) : Nat :=
  match layout with
  | compact => 1
  | legacy | modern => format.width.bytes

theorem Layout.least_pos (layout : Layout) (format : ChunkFormat) : 0 < layout.least format := by
  cases layout with
  | legacy => exact format.width.one_le
  | compact => exact Nat.one_pos
  | modern => exact format.width.one_le

namespace Record

variable {format : ChunkFormat} {layout : Layout}

/-- Every record has a size byte or a length. -/
theorem least_le (record : Record format layout) : layout.least format ≤ record.bytes.size := by
  cases record <;> simp [bytes, Layout.least]

/-- **The size of a legacy or modern record is settled by the constant** that it stands for. -/
theorem size_bytes (record : Record format layout) (hlayout : layout ≠ .compact) :
    record.bytes.size = layout.encodedSize format record.value := by
  cases record with
  | legacy stored hfits =>
    rcases Nat.eq_zero_or_pos stored.size with hzero | hpos
    · obtain rfl := ByteArray.size_eq_zero_iff.mp hzero
      simp [bytes, value, StringConst.ofTerminated, Layout.encodedSize, Legacy.encodedSize]
    · simp [bytes, value, StringConst.ofTerminated, hpos, Layout.encodedSize, Legacy.encodedSize]
      omega
  | modernNull => simp [bytes, value, Layout.encodedSize, Modern.encodedSize]
  | modern content hfits =>
    simp [bytes, value, StringConst.ofBytes, Layout.encodedSize, Modern.encodedSize]
  | compactNull | compactShort _ _ _ | compactLong _ _ => exact absurd rfl hlayout

end Record

/-! ### Pieces of the data -/

/-- A record that was read, and where it stands. -/
structure Piece where
  /-- The position of its first byte. -/
  start : Nat
  /-- The position behind its last byte. -/
  stop : Nat
  /-- The constant that was read. -/
  constant : StringConst
  deriving DecidableEq

/-- Whether the record takes up this position. -/
def Piece.covers (pos : Nat) (piece : Piece) : Bool := piece.start ≤ pos && pos < piece.stop

/-- **The pieces stand one behind another**, from one position to another. -/
def Tile : List Piece → (first last : Nat) → Prop
  | [], first, last => first = last
  | piece :: pieces, first, last =>
    piece.start = first ∧ piece.start < piece.stop ∧ Tile pieces piece.stop last

namespace Tile

variable {pieces : List Piece} {first last : Nat}

theorem le (h : Tile pieces first last) : first ≤ last := by
  induction pieces generalizing first with
  | nil => exact Nat.le_of_eq h
  | cons piece pieces ih =>
    obtain ⟨rfl, hlt, hrest⟩ := h
    exact Nat.le_trans (Nat.le_of_lt hlt) (ih hrest)

/-- **Every position from the first to the last is in one piece**, and no other position is in
any. -/
theorem countP_covers (h : Tile pieces first last) (pos : Nat) :
    pieces.countP (Piece.covers pos) = if first ≤ pos ∧ pos < last then 1 else 0 := by
  induction pieces generalizing first with
  | nil =>
    obtain rfl : first = last := h
    rw [if_neg (by omega), List.countP_nil]
  | cons piece pieces ih =>
    obtain ⟨rfl, hlt, hrest⟩ := h
    have hle := hrest.le
    rw [List.countP_cons, ih hrest]
    simp only [Piece.covers, Bool.and_eq_true, decide_eq_true_eq]
    -- the position is in front of the piece, in it, or behind it
    split <;> split <;> split <;> omega

/-- The pieces put together are all there is between the first position and the last. -/
theorem joinBytes_extract (h : Tile pieces first last) {data : ByteArray}
    (hlast : last ≤ data.size) :
    joinBytes (pieces.map fun piece => data.extract piece.start piece.stop) =
      data.extract first last := by
  induction pieces generalizing first with
  | nil =>
    obtain rfl : first = last := h
    simp
  | cons piece pieces ih =>
    obtain ⟨rfl, hlt, hrest⟩ := h
    rw [List.map_cons, joinBytes_cons, ih hrest]
    exact (ByteArray.extract_eq_extract_append_extract piece.stop (Nat.le_of_lt hlt) hrest.le).symm

/-- Where every piece has so many bytes at least, there is room for so many pieces at most. -/
theorem length_mul_le (h : Tile pieces first last) {least : Nat}
    (hleast : ∀ piece ∈ pieces, piece.start + least ≤ piece.stop) :
    pieces.length * least ≤ last - first := by
  induction pieces generalizing first with
  | nil => simp
  | cons piece pieces ih =>
    obtain ⟨rfl, -, hrest⟩ := h
    obtain ⟨hpiece, hpieces⟩ := List.forall_mem_cons.mp hleast
    have hroom := ih hrest hpieces
    have hle := hrest.le
    rw [List.length_cons, Nat.add_mul, Nat.one_mul]
    omega

end Tile

/-! ### Record after record -/

/-- What reading on to the end came to. -/
structure Reading where
  /-- The records that were read, in this order. -/
  pieces : List Piece
  /-- Why no more records could be read, if there was data left. -/
  fault? : Option Fault
  /-- The state at the end. -/
  state : DecodeState

namespace RecordReader

variable {reader : RecordReader} {before after : DecodeState} {constant : StringConst}
  {fault : Fault}

/-- The least number of bytes that a record of this reader takes. -/
def least (reader : RecordReader) : Nat := reader.layout.least reader.format

/-- **A read that succeeds moves the cursor on**, by a record's least size at any rate, by the
size that the constant takes in the legacy and the modern layout, and never past the end. -/
theorem moves_of_run_read (h : reader.read.run before = .ok constant after) :
    after.cursor.data = before.cursor.data ∧
      before.cursor.pos + reader.least ≤ after.cursor.pos ∧
      after.cursor.pos ≤ before.cursor.data.size ∧
      (reader.layout ≠ .compact → after.cursor.pos =
        before.cursor.pos + reader.layout.encodedSize reader.format constant) := by
  obtain ⟨record, rfl, hpass, -⟩ := yields_read_iff.mp (Decode.yields_of_run h)
  have hle := after.cursor.pos_le
  rw [hpass.data_eq] at hle
  rw [hpass.pos_eq]
  refine ⟨hpass.data_eq, Nat.add_le_add_left record.least_le _, hpass.pos_eq ▸ hle, ?_⟩
  exact fun hlayout => congrArg _ (record.size_bytes hlayout)

theorem remaining_lt_of_run_read (h : reader.read.run before = .ok constant after) :
    after.cursor.remaining < before.cursor.remaining := by
  obtain ⟨hdata, hmoves, -, -⟩ := moves_of_run_read h
  have hleast : 0 < reader.least := reader.layout.least_pos reader.format
  have hbefore := before.cursor.pos_add_remaining
  have hafter := after.cursor.pos_add_remaining
  rw [hdata] at hafter
  omega

theorem hasMore_of_run_read (h : reader.read.run before = .ok constant after) :
    before.cursor.hasMore = true :=
  before.cursor.hasMore_iff.mpr (Nat.zero_lt_of_lt (remaining_lt_of_run_read h))

/-- **Reads on until no data is left or a record cannot be read.** What is left of the data
becomes less with every record. -/
def readAll (reader : RecordReader) (before : DecodeState) : Reading :=
  if before.cursor.hasMore then
    match h : reader.read.run before with
    | .ok constant after =>
      have := remaining_lt_of_run_read h
      let rest := reader.readAll after
      { rest with pieces := ⟨before.cursor.pos, after.cursor.pos, constant⟩ :: rest.pieces }
    | .error fault after => ⟨[], some fault, after⟩
  else ⟨[], none, before⟩
termination_by before.cursor.remaining

theorem readAll_of_done (h : before.cursor.hasMore = false) :
    reader.readAll before = ⟨[], none, before⟩ := by
  rw [readAll, h]
  rfl

theorem readAll_of_ok (h : reader.read.run before = .ok constant after) :
    reader.readAll before =
      { reader.readAll after with
        pieces := ⟨before.cursor.pos, after.cursor.pos, constant⟩ ::
          (reader.readAll after).pieces } := by
  rw [readAll, if_pos (hasMore_of_run_read h)]
  split
  · rename_i heq
    cases h.symm.trans heq
    rfl
  · rename_i heq
    cases h.symm.trans heq

theorem readAll_of_error (hmore : before.cursor.hasMore = true)
    (h : reader.read.run before = .error fault after) :
    reader.readAll before = ⟨[], some fault, after⟩ := by
  rw [readAll, if_pos hmore]
  split
  · rename_i heq
    cases h.symm.trans heq
  · rename_i heq
    cases h.symm.trans heq
    rfl

/-- **Reading on ends because no data is left or a read fails**, after a row of reads that
succeed. What holds in both cases and is handed down along the row holds of every reading. -/
theorem readAll_induction {motive : DecodeState → Reading → Prop}
    (done : ∀ before, before.cursor.hasMore = false → motive before ⟨[], none, before⟩)
    (failed : ∀ before fault after, before.cursor.hasMore = true →
      reader.read.run before = .error fault after → motive before ⟨[], some fault, after⟩)
    (record : ∀ before constant after, reader.read.run before = .ok constant after →
      motive after (reader.readAll after) →
      motive before { reader.readAll after with
        pieces := ⟨before.cursor.pos, after.cursor.pos, constant⟩ ::
          (reader.readAll after).pieces })
    (before : DecodeState) : motive before (reader.readAll before) := by
  induction hn : before.cursor.remaining using Nat.strongRecOn generalizing before with
  | ind remaining ih =>
    rcases hmore : before.cursor.hasMore with _ | _
    · rw [readAll_of_done hmore]
      exact done before hmore
    · rcases hrun : reader.read.run before with ⟨constant, after⟩ | ⟨fault, after⟩
      · rw [readAll_of_ok hrun]
        exact record before constant after hrun
          (ih _ (hn ▸ remaining_lt_of_run_read hrun) after rfl)
      · rw [readAll_of_error hmore hrun]
        exact failed before fault after hmore hrun

/-! ### What reading on finds -/

theorem cursor_of_run_read_error (h : reader.read.run before = .error fault after) :
    after.cursor = before.cursor := by
  have hkeeps := reader.layout.steady_decodeTraced reader.format before
  rw [show (reader.layout.decodeTraced reader.format).run before = .error fault after from h]
    at hkeeps
  rcases hkeeps with _ | hcursor
  exact hcursor

/-- Where no data is left, there is no record. -/
theorem exists_run_read_of_done (h : before.cursor.hasMore = false) :
    ∃ fault after, reader.read.run before = .error fault after := by
  rcases hrun : reader.read.run before with ⟨constant, after⟩ | ⟨fault, after⟩
  · rw [hasMore_of_run_read hrun] at h
    cases h
  · exact ⟨fault, after, rfl⟩

/-- **The records stand one behind another**, from where the reading began to where it ends. -/
theorem tile_readAll (reader : RecordReader) (before : DecodeState) :
    Tile (reader.readAll before).pieces before.cursor.pos (reader.readAll before).state.cursor.pos ∧
      (reader.readAll before).state.cursor.data = before.cursor.data ∧
      ∀ piece ∈ (reader.readAll before).pieces, piece.start + reader.least ≤ piece.stop := by
  induction before using reader.readAll_induction with
  | done before h => exact ⟨rfl, rfl, by simp⟩
  | failed before fault after hmore h =>
    rw [cursor_of_run_read_error h]
    exact ⟨rfl, rfl, by simp⟩
  | record before constant after h ih =>
    obtain ⟨htile, hdata, hleast⟩ := ih
    obtain ⟨hkept, hmoves, -, -⟩ := moves_of_run_read h
    have hpos : 0 < reader.least := reader.layout.least_pos reader.format
    refine ⟨⟨rfl, ?_, htile⟩, hdata.trans hkept, List.forall_mem_cons.mpr ⟨hmoves, hleast⟩⟩
    change before.cursor.pos < after.cursor.pos
    omega

/-- A loop that may read more records than there are reads on to the end. -/
theorem readUntil_eq_readAll (reader : RecordReader) (before : DecodeState) :
    ∀ limit, (reader.readAll before).pieces.length < limit →
      reader.readUntil limit before =
        ((reader.readAll before).pieces.map (.ok ·.constant) ++
          (reader.readAll before).fault?.toList.map .error, (reader.readAll before).state) := by
  induction before using reader.readAll_induction with
  | done before h =>
    intro limit hlimit
    obtain ⟨limit, rfl⟩ := Nat.exists_eq_add_one_of_ne_zero (Nat.ne_zero_of_lt hlimit)
    rw [readUntil, h]
    rfl
  | failed before fault after hmore h =>
    intro limit hlimit
    obtain ⟨limit, rfl⟩ := Nat.exists_eq_add_one_of_ne_zero (Nat.ne_zero_of_lt hlimit)
    rw [readUntil, if_pos hmore, h]
    rfl
  | record before constant after h ih =>
    intro limit hlimit
    obtain ⟨limit, rfl⟩ := Nat.exists_eq_add_one_of_ne_zero (Nat.ne_zero_of_lt hlimit)
    rw [readUntil, if_pos (hasMore_of_run_read h), h]
    simp only [ih limit (Nat.lt_of_succ_lt_succ hlimit), List.map_cons, List.cons_append]

/-- **Behind the records of a reading, the next read fails**, also if there is no data left. -/
theorem exists_calls_readAll (reader : RecordReader) (before : DecodeState) :
    ∃ between fault after,
      reader.calls (reader.readAll before).pieces.length before =
        (((reader.readAll before).pieces.map Piece.constant).map .ok, between) ∧
      between.cursor = (reader.readAll before).state.cursor ∧
      reader.read.run between = .error fault after ∧
      ((reader.readAll before).fault? = some fault ∨
        (reader.readAll before).fault? = none ∧ between.cursor.hasMore = false) := by
  induction before using reader.readAll_induction with
  | done before h =>
    obtain ⟨fault, after, hrun⟩ := exists_run_read_of_done h
    exact ⟨before, fault, after, rfl, rfl, hrun, .inr ⟨rfl, h⟩⟩
  | failed before fault after hmore h =>
    exact ⟨before, fault, after, rfl, (cursor_of_run_read_error h).symm, h, .inl rfl⟩
  | record before constant after h ih =>
    obtain ⟨between, fault, last, hcalls, hcursor, hread, hends⟩ := ih
    refine ⟨between, fault, last, ?_, hcursor, hread, hends⟩
    rw [List.length_cons, calls_of_ok _ h, hcalls, List.map_cons, List.map_cons]

/-- **Reading makes progress, and comes to an end.** A read that succeeds takes up a byte at least
in the compact layout and a length at least in the others, where it takes up exactly the size of
the constant that it reads; and it never passes the end. So there is only room for so many
records, and reading on until no data is left or a read fails ends after at most as many, which
stand one behind another: every byte up to the end is in one of them, and in one only. This
many records can be read at once, and so can any lesser number; a greater number cannot, however
great: the read behind the last record fails, and the cursor is back where it was. -/
theorem readAll_progress (reader : RecordReader) (before : DecodeState) :
    let reading := reader.readAll before
    let data := before.cursor.data
    let last := reading.state.cursor.pos
    -- one record
    (∀ state constant after, reader.read.run state = .ok constant after →
      after.cursor.data = state.cursor.data ∧
      state.cursor.pos + reader.least ≤ after.cursor.pos ∧
      after.cursor.pos ≤ state.cursor.data.size ∧
      (reader.layout ≠ .compact → after.cursor.pos =
        state.cursor.pos + reader.layout.encodedSize reader.format constant)) ∧
    -- record after record
    reading.pieces.length ≤ before.cursor.remaining / reader.least ∧
    (∀ limit, reading.pieces.length < limit → reader.readUntil limit before =
      (reading.pieces.map (.ok ·.constant) ++ reading.fault?.toList.map .error, reading.state)) ∧
    -- where they stand
    Tile reading.pieces before.cursor.pos last ∧ last ≤ data.size ∧
    (∀ pos, reading.pieces.countP (Piece.covers pos) =
      if before.cursor.pos ≤ pos ∧ pos < last then 1 else 0) ∧
    joinBytes (reading.pieces.map fun piece => data.extract piece.start piece.stop) =
      data.extract before.cursor.pos last ∧
    -- why there are no more
    ∃ between fault after,
      (reader.readN reading.pieces.length).run before =
        .ok (reading.pieces.map Piece.constant).toArray between ∧
      between.cursor = reading.state.cursor ∧
      reader.read.run between = .error fault after ∧
      (reading.fault? = some fault ∨ reading.fault? = none ∧ last = data.size) ∧
      -- several at once
      ∀ count,
        (count ≤ reading.pieces.length → ∃ state, (reader.readN count).run before =
          .ok ((reading.pieces.take count).map Piece.constant).toArray state) ∧
        (reading.pieces.length < count → (reader.readN count).run before =
          .error fault { after with cursor := before.cursor }) := by
  intro reading data last
  obtain ⟨htile, hdata, hleast⟩ : Tile reading.pieces before.cursor.pos last ∧
      reading.state.cursor.data = data ∧ _ := reader.tile_readAll before
  obtain ⟨between, fault, after, hcalls, hcursor, hread, hends⟩ :
      ∃ between fault after, reader.calls reading.pieces.length before = _ ∧ _ :=
    reader.exists_calls_readAll before
  have hlast : last ≤ data.size := hdata ▸ reading.state.cursor.pos_le
  have hlength : (reading.pieces.map Piece.constant).length = reading.pieces.length :=
    List.length_map _
  have hroom : reading.pieces.length ≤ before.cursor.remaining / reader.least := by
    refine (Nat.le_div_iff_mul_le (reader.layout.least_pos reader.format)).mpr ?_
    exact Nat.le_trans (htile.length_mul_le hleast) (Nat.sub_le_sub_right hlast _)
  refine ⟨fun _ _ _ => moves_of_run_read, hroom, reader.readUntil_eq_readAll before, htile, hlast,
    htile.countP_covers, htile.joinBytes_extract hlast, between, fault, after, ?_, hcursor, hread,
    ?_, fun count => ⟨fun hle => ?_, fun hlt => ?_⟩⟩
  · exact run_readN_eq_ok_iff.mpr hcalls
  · refine hends.imp_right fun ⟨hnone, hdone⟩ => ⟨hnone, ?_⟩
    have hend : ¬ 0 < reading.state.cursor.remaining := by
      rw [← hcursor, ← between.cursor.hasMore_iff, hdone]
      exact Bool.false_ne_true
    have hpos := reading.state.cursor.pos_add_remaining
    rw [hdata] at hpos
    change reading.state.cursor.pos = data.size
    omega
  · rw [List.map_take]
    exact exists_run_readN_of_le_length (hlength ▸ hcalls) (hlength ▸ hle)
  · exact run_readN_of_length_lt (hlength ▸ hcalls) hread (hlength ▸ hlt)

/-- Nine bytes, with two modern records and the beginning of a third: as a record has a length of
two bytes, there is no room for five. -/
theorem readAll_progress_modern :
    let reader : RecordReader := ⟨.modern, 0x54, ⟨2, by decide, by decide⟩, .big, false⟩
    let before : DecodeState := .start [0, 3, 0x61, 0x62, 0, 0, 0, 9, 1].toByteArray
    let pieces : List Piece := [⟨0, 4, .ofBytes [0x61, 0x62].toByteArray⟩, ⟨4, 6, .null⟩]
    (reader.readAll before).pieces = pieces ∧ before.cursor.remaining / reader.least = 4 ∧
      pieces.length < 5 ∧
      ∃ after : DecodeState, (reader.readN 5).run before =
        .error (.truncated 8 1) { after with cursor := before.cursor } := by
  intro reader before pieces
  have hpieces : (reader.readAll before).pieces = pieces := by decide +kernel
  have hfault : (reader.readAll before).fault? = some (.truncated 8 1) := by decide +kernel
  have hlt : (reader.readAll before).pieces.length < 5 := hpieces ▸ (by decide : pieces.length < 5)
  obtain ⟨-, -, -, -, -, -, -, _, fault, after, -, -, -, hends, hcount⟩ :=
    readAll_progress reader before
  rw [hfault] at hends
  obtain ⟨⟨⟩⟩ | ⟨⟨⟩, -⟩ := hends
  exact ⟨hpieces, by decide, by decide, after, (hcount 5).2 hlt⟩

end RecordReader

end ChunkStrings
