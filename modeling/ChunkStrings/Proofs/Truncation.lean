import ChunkStrings.Proofs.Rollback

/-!
# Data that ends too soon

A reader learns from the bytes that it has passed over how many more it needs, and looks at no
others. Hence what it finds at a position depends on the bytes of the record alone, wherever
they stand and whatever comes behind them; and where the data ends too soon, it finds how many
bytes are lacking.

Both halves are told by a run of bytes. A computation `Reads` a run if it passes over it and
yields the same value wherever the run stands; it `Lacks` bytes behind a run if it fails wherever
the run stands with too few bytes behind. `Decode.Streams` says that one of the two is the case
at every cursor. The primitives stream because they ask for their bytes all at once
(`Decode.Fetches`), and what is put together from computations that stream streams
(`Decode.Streams.bind`), so nothing is said here about where a record has its parts.

What the three layouts share is that they fetch the bytes of a string in one go, once they have
read what announces it (`Layout.decode_eq`). It follows that a reader that is past the
announcement asks for the exact number of bytes that it lacks: with so many more, it succeeds
(`Layout.decodeTraced_selfDelimiting`).
-/

namespace ChunkStrings

/-! ### Data that goes on, and data that is cut -/

namespace Cursor

/-- The cursor at the same position of data that goes on. -/
def extend (cursor : Cursor) (extra : ByteArray) : Cursor where
  data := cursor.data ++ extra
  pos := cursor.pos
  pos_le := by
    have := cursor.pos_le
    rw [ByteArray.size_append]
    omega

/-- The cursor at the same position of data that ends at most so many bytes behind it. -/
def cut (cursor : Cursor) (kept : Nat) : Cursor where
  data := cursor.data.extract 0 (cursor.pos + kept)
  pos := cursor.pos
  pos_le := by
    have := cursor.pos_le
    rw [ByteArray.size_extract]
    omega

variable {first second : Cursor} {run : ByteArray}

/-- What is cut off can be put back. -/
theorem extend_cut (cursor : Cursor) (kept : Nat) :
    (cursor.cut kept).extend (cursor.data.extract (cursor.pos + kept) cursor.data.size) =
      cursor := by
  refine ext_pos ?_ rfl
  change cursor.data.extract 0 _ ++ cursor.data.extract _ _ = cursor.data
  rw [ByteArray.extract_append_extract, Nat.zero_min, ByteArray.extract_zero_max_size]

theorem remaining_cut_le (cursor : Cursor) (kept : Nat) : (cursor.cut kept).remaining ≤ kept := by
  simp only [remaining, cut, ByteArray.size_extract]
  omega

theorem remaining_extend (cursor : Cursor) (extra : ByteArray) :
    (cursor.extend extra).remaining = cursor.remaining + extra.size := by
  have := cursor.pos_le
  simp only [remaining, extend, ByteArray.size_append]
  omega

/-- What a cursor passes over is the same in data that goes on. -/
theorem Passes.extend (h : first.Passes run second) (extra : ByteArray) :
    (first.extend extra).Passes run (second.extend extra) where
  data_eq := congrArg (· ++ extra) h.data_eq
  pos_eq := h.pos_eq
  run_eq := by
    have hend := second.pos_le
    rw [h.data_eq] at hend
    change (first.data ++ extra).extract first.pos second.pos = run
    rw [ByteArray.extract_append, h.run_eq, Nat.sub_eq_zero_of_le hend,
      Nat.sub_eq_zero_of_le (Nat.le_trans h.pos_le_pos hend), ByteArray.extract_same,
      ByteArray.append_empty]

/-- A cursor passes over a run that stands where it is. -/
theorem exists_passes_of_extract {cursor : Cursor}
    (h : cursor.data.extract cursor.pos (cursor.pos + run.size) = run) :
    ∃ after, cursor.Passes run after := by
  have hsize := congrArg ByteArray.size h
  rw [ByteArray.size_extract] at hsize
  have hle : cursor.pos + run.size ≤ cursor.data.size := by
    have := cursor.pos_le
    omega
  exact ⟨⟨cursor.data, cursor.pos + run.size, hle⟩, rfl, rfl, h⟩

end Cursor

/-! ### What a computation reads, and what it lacks -/

namespace Decode

variable {α β : Type} {run run' : ByteArray} {needed count : Nat}

/-- **The computation reads this run of bytes** wherever it stands: it passes over the run and
yields this value, whatever is in the scratch buffer and whatever comes behind. -/
def Reads (action : Decode α) (run : ByteArray) (value : α) : Prop :=
  ∀ before cursor, before.cursor.Passes run cursor → ∃ log, action.Yields before value cursor log

/-- **The computation lacks bytes behind this run** wherever it stands with fewer than so many
behind it: it fails, and tells how many it needs there and how many there are. -/
def Lacks (action : Decode α) (run : ByteArray) (needed : Nat) : Prop :=
  ∀ before cursor, before.cursor.Passes run cursor → cursor.remaining < needed →
    ∃ after, action.run before = .error (.truncated needed cursor.remaining) after

/-- **A computation that looks at bytes only as it passes over them**: at every cursor, it either
reads the bytes that are ahead or lacks bytes behind some of them. -/
def Streams (action : Decode α) : Prop :=
  ∀ cursor : Cursor,
    (∃ run value after, cursor.Passes run after ∧ action.Reads run value) ∨
      ∃ run between needed, cursor.Passes run between ∧ between.remaining < needed ∧
        action.Lacks run needed

section Composition

variable {action : Decode α} {next : α → Decode β} {value : α} {result : β}

theorem reads_pure (value : α) : (pure value : Decode α).Reads .empty value := by
  intro before cursor hpass
  obtain rfl := Cursor.passes_empty_iff.mp hpass
  exact ⟨before.log, yields_pure_iff.mpr ⟨rfl, rfl, rfl⟩⟩

theorem Reads.bind (h : action.Reads run value) (hnext : (next value).Reads run' result) :
    (action >>= next).Reads (run ++ run') result := by
  intro before cursor hpass
  obtain ⟨between, hfirst, hrest⟩ := hpass.split
  obtain ⟨log, scratch, haction⟩ := h before between hfirst
  obtain ⟨log', hyields⟩ := hnext ⟨between, scratch, log⟩ cursor hrest
  exact ⟨log', yields_bind_iff.mpr ⟨value, _, haction, hyields⟩⟩

theorem Lacks.bind (h : action.Lacks run needed) (next : α → Decode β) :
    (action >>= next).Lacks run needed := by
  intro before cursor hpass hlt
  obtain ⟨after, hrun⟩ := h before cursor hpass hlt
  exact ⟨after, by rw [EStateM.run_bind, hrun]⟩

/-- What the second computation lacks is lacking behind what both have passed over. -/
theorem Reads.bind_lacks (h : action.Reads run value) (hnext : (next value).Lacks run' needed) :
    (action >>= next).Lacks (run ++ run') needed := by
  intro before cursor hpass hlt
  obtain ⟨between, hfirst, hrest⟩ := hpass.split
  obtain ⟨log, scratch, haction⟩ := h before between hfirst
  obtain ⟨after, hrun⟩ := hnext ⟨between, scratch, log⟩ cursor hrest hlt
  exact ⟨after, by rw [EStateM.run_bind, haction]; exact hrun⟩

/-- A value that was read has been read from the bytes in front of the cursor. -/
theorem Reads.eq_of_run (h : action.Reads run value) {before after : DecodeState} {cursor : Cursor}
    {result : α} (hrun : action.run before = .ok result after)
    (hpass : before.cursor.Passes run cursor) : result = value ∧ after.cursor = cursor := by
  obtain ⟨log, scratch, hreads⟩ := h before cursor hpass
  rw [hrun] at hreads
  cases hreads
  exact ⟨rfl, rfl⟩

/-- What a computation that streams has read, it reads anywhere. -/
theorem Streams.exists_reads (h : action.Streams) {before after : DecodeState}
    (hrun : action.run before = .ok value after) :
    ∃ run, before.cursor.Passes run after.cursor ∧ action.Reads run value := by
  rcases h before.cursor with ⟨run, result, cursor, hpass, hreads⟩ |
    ⟨run, between, needed, hpass, hlt, hlacks⟩
  · obtain ⟨rfl, rfl⟩ := hreads.eq_of_run hrun hpass
    exact ⟨run, hpass, hreads⟩
  · obtain ⟨after', hfails⟩ := hlacks before between hpass hlt
    rw [hrun] at hfails
    cases hfails

/-- **A computation that streams fails for no other reason than bytes that are lacking**, and lacks
them anywhere. -/
theorem Streams.exists_lacks (h : action.Streams) {before after : DecodeState} {fault : Fault}
    (hrun : action.run before = .error fault after) :
    ∃ run cursor needed, before.cursor.Passes run cursor ∧ cursor.remaining < needed ∧
      action.Lacks run needed ∧ fault = .truncated needed cursor.remaining := by
  rcases h before.cursor with ⟨run, result, cursor, hpass, hreads⟩ |
    ⟨run, cursor, needed, hpass, hlt, hlacks⟩
  · obtain ⟨log, scratch, hreads⟩ := hreads before cursor hpass
    rw [hrun] at hreads
    cases hreads
  · obtain ⟨after', hfails⟩ := hlacks before cursor hpass hlt
    rw [hrun] at hfails
    cases hfails
    exact ⟨run, cursor, needed, hpass, hlt, hlacks, rfl⟩

/-- **What is in the scratch buffer does not matter to a computation that streams**: from the same
cursor on, it comes to the same result or fails with the same fault. -/
theorem Streams.fst_attempt_congr (h : action.Streams) {before before' : DecodeState}
    (hcursor : before.cursor = before'.cursor) :
    (action.attempt before).1 = (action.attempt before').1 := by
  rcases h before.cursor with ⟨run, result, cursor, hpass, hreads⟩ |
    ⟨run, cursor, needed, hpass, hlt, hlacks⟩
  · obtain ⟨log, scratch, hrun⟩ := hreads before cursor hpass
    obtain ⟨log', scratch', hrun'⟩ := hreads before' cursor (hcursor ▸ hpass)
    rw [attempt, attempt, hrun, hrun']
  · obtain ⟨after, hrun⟩ := hlacks before cursor hpass hlt
    obtain ⟨after', hrun'⟩ := hlacks before' cursor (hcursor ▸ hpass) hlt
    rw [attempt, attempt, hrun, hrun']

theorem streams_pure (value : α) : (pure value : Decode α).Streams := fun cursor =>
  .inl ⟨.empty, value, cursor, Cursor.passes_empty_iff.mpr rfl, reads_pure value⟩

/-- **Computations that stream stream one after the other.** -/
theorem Streams.bind (h : action.Streams) (hnext : ∀ value, (next value).Streams) :
    (action >>= next).Streams := by
  intro cursor
  rcases h cursor with ⟨run, value, between, hpass, hreads⟩ |
    ⟨run, between, needed, hpass, hlt, hlacks⟩
  · rcases hnext value between with ⟨run', result, after, hpass', hreads'⟩ |
      ⟨run', after, needed, hpass', hlt, hlacks⟩
    · exact .inl ⟨_, result, after, hpass.append hpass', hreads.bind hreads'⟩
    · exact .inr ⟨_, after, needed, hpass.append hpass', hlt, hreads.bind_lacks hlacks⟩
  · exact .inr ⟨run, between, needed, hpass, hlt, hlacks.bind next⟩

theorem Streams.map (h : action.Streams) (f : α → β) :
    Streams (do let value ← action; return f value) :=
  h.bind fun value => streams_pure (f value)

/-- A choice streams if both sides do. -/
theorem Streams.ite {c : Prop} [Decidable c] {other : Decode α} (h : action.Streams)
    (hother : other.Streams) : Streams (if c then action else other) := by
  split
  · exact h
  · exact hother

/-- A transaction reads what the computation in it reads. -/
theorem Reads.transaction (h : action.Reads run value) : (transaction action).Reads run value := by
  intro before cursor hpass
  obtain ⟨log, hyields⟩ := h before cursor hpass
  exact ⟨log, yields_transaction_iff.mpr hyields⟩

/-- A transaction lacks what the computation in it lacks. -/
theorem Lacks.transaction (h : action.Lacks run needed) :
    (transaction action).Lacks run needed := by
  intro before cursor hpass hlt
  obtain ⟨after, hrun⟩ := h before cursor hpass hlt
  exact ⟨_, run_transaction_of_error hrun⟩

end Composition

/-! ### Computations that ask for their bytes at once -/

/-- **A computation that needs so many bytes**, asks for all of them at once, and cannot fail once
they are there. -/
structure Fetches (action : Decode α) (count : Nat) : Prop where
  /-- Any bytes will do, if they are as many. -/
  reads : ∀ run : ByteArray, run.size = count → ∃ value, action.Reads run value
  /-- If there are fewer, none of them is passed over. -/
  lacks : action.Lacks .empty count

theorem lacks_empty {action : Decode α}
    (h : ∀ before : DecodeState, before.cursor.remaining < count →
      ∃ after, action.run before = .error (.truncated count before.cursor.remaining) after) :
    action.Lacks .empty count := by
  intro before cursor hpass hlt
  obtain rfl := Cursor.passes_empty_iff.mp hpass
  exact h before hlt

theorem Fetches.streams {action : Decode α} (h : action.Fetches count) : action.Streams := by
  intro cursor
  rcases Nat.lt_or_ge cursor.remaining count with hlt | hle
  · exact .inr ⟨.empty, cursor, count, Cursor.passes_empty_iff.mpr rfl, hlt, h.lacks⟩
  · obtain ⟨value, hreads⟩ := h.reads _ (Cursor.size_extract_of_le hle)
    exact .inl ⟨_, value, _, cursor.passes_advance count hle, hreads⟩

theorem Fetches.map {action : Decode α} (h : action.Fetches count) (f : α → β) :
    Fetches (do let value ← action; return f value) count where
  reads run hsize := by
    obtain ⟨value, hreads⟩ := h.reads run hsize
    have hmap : Reads (do let value ← action; return f value) (run ++ .empty) (f value) :=
      hreads.bind (reads_pure (f value))
    rw [ByteArray.append_empty] at hmap
    exact ⟨f value, hmap⟩
  lacks := h.lacks.bind _

theorem fetches_byte : byte.Fetches 1 where
  reads run hsize := by
    obtain ⟨first, rest, rfl, hrest⟩ := exists_eq_cons_of_size hsize
    obtain rfl := ByteArray.size_eq_zero_iff.mp hrest
    rw [ByteArray.append_empty]
    refine ⟨first, fun before cursor hpass => ⟨before.log, before.scratch, ?_⟩⟩
    exact run_byte_eq_ok.mpr ⟨cursor, hpass, rfl⟩
  lacks := lacks_empty fun before hlt => by
    have := before.cursor.pos_add_remaining
    exact ⟨before, run_byte_of_le (by omega)⟩

theorem fetches_length (format : ChunkFormat) :
    (LengthInt.decode format).Fetches format.width.bytes where
  reads run hsize := by
    have hlength : run.data.toList.length = format.width.bytes := by
      rw [Array.length_toList]
      exact hsize
    refine ⟨.ofBytes format run.data.toList hlength, fun before cursor hpass => ?_⟩
    refine ⟨before.log, before.scratch, LengthInt.run_decode_eq_ok.mpr ⟨rfl, cursor, ?_, rfl⟩⟩
    rwa [LengthInt.ofBytes, ChunkFormat.field_decode hsize]
  lacks := lacks_empty fun _ hlt => ⟨_, LengthInt.run_decode_of_lt hlt⟩

theorem fetches_gatherAll (count : Nat) : (gatherAll count).Fetches count where
  reads run hsize := ⟨run, fun before cursor hpass =>
    ⟨before.log, run, run_gatherAll_eq_ok.mpr ⟨hsize, cursor, hpass, rfl⟩⟩⟩
  lacks := lacks_empty fun _ hlt => ⟨_, run_gatherAll_of_lt hlt⟩

theorem fetches_decodeContent (count : Nat) : (Compact.decodeContent count).Fetches count where
  reads run hsize := ⟨_, fun before cursor hpass => ⟨before.log, Keystream.apply run,
    Compact.run_decodeContent_eq_ok.mpr ⟨run, cursor, hsize, hpass, rfl, rfl⟩⟩⟩
  lacks := lacks_empty fun _ hlt => ⟨_, Compact.run_decodeContent_of_lt hlt⟩

theorem streams_note (line : LogLine) : (note line).Streams := fun cursor =>
  .inl ⟨.empty, (), cursor, Cursor.passes_empty_iff.mpr rfl, fun before cursor hpass => by
    obtain rfl := Cursor.passes_empty_iff.mp hpass
    exact ⟨before.log.push line, before.scratch, rfl⟩⟩

end Decode

/-! ### The announcement of a string and the string -/

namespace Layout

/-- Reads what announces a string: the number of bytes that are stored for it, or that there is no
string. -/
def announced (layout : Layout) (format : ChunkFormat) : Decode (Option Nat) :=
  match layout with
  | legacy => do
    let length ← LengthInt.decode format
    return some length.value
  | compact => do
    let first ← Decode.byte
    if first = 0 then
      return none
    let size ← Compact.decodeSize format first
    return some size
  | modern => do
    let length ← LengthInt.decode format
    return if length.value = 0 then none else some (length.value - 1)

/-- Reads a string that is stored in so many bytes. -/
def decodeString (layout : Layout) (size : Nat) : Decode StringConst :=
  match layout with
  | legacy => do
    let bytes ← Decode.gatherAll size
    return .ofTerminated bytes
  | compact => Compact.decodeContent size
  | modern => do
    let bytes ← Decode.gatherAll size
    return .ofBytes bytes

variable {layout : Layout} {format : ChunkFormat}

/-- **Every layout reads what announces a string, and then the string**, if there is one. -/
theorem decode_eq : layout.decode format = Decode.transaction (do
    let size ← layout.announced format
    match size with
    | none => return .null
    | some size => layout.decodeString size) := by
  refine congrArg Decode.transaction ?_
  cases layout with
  | legacy =>
    simp only [Legacy.decode_eq, announced, decodeString, bind_assoc, pure_bind]
  | compact =>
    simp only [Compact.decode_eq, announced, decodeString, bind_assoc]
    refine congrArg _ (funext fun first => ?_)
    split <;> simp
  | modern =>
    simp only [Modern.decode_eq, announced, decodeString, bind_assoc, pure_bind]
    refine congrArg _ (funext fun length => ?_)
    split <;> simp

theorem streams_announced : (layout.announced format).Streams := by
  have hlength := (Decode.fetches_length format).streams
  cases layout with
  | legacy => exact hlength.map _
  | compact =>
    refine Decode.fetches_byte.streams.bind fun first => ?_
    refine (Decode.streams_pure none).ite ?_
    have hsize : (Compact.decodeSize format first).Streams := by
      refine Decode.Streams.ite ?_ (Decode.streams_pure first.toNat)
      exact hlength.bind fun length => (Decode.streams_note _).map _
    exact hsize.map some
  | modern => exact hlength.map _

/-- The bytes that are stored for a string are fetched all at once. -/
theorem fetches_decodeString (size : Nat) : (layout.decodeString size).Fetches size := by
  cases layout with
  | legacy => exact (Decode.fetches_gatherAll size).map _
  | compact => exact Decode.fetches_decodeContent size
  | modern => exact (Decode.fetches_gatherAll size).map _

/-! ### Records that are cut short -/

variable {run : ByteArray} {size : Nat}

/-- What is logged about a string that was read takes no bytes. -/
theorem reads_decodeTraced {constant : StringConst}
    (h : (layout.decode format).Reads run constant) :
    (layout.decodeTraced format).Reads run constant := by
  intro before cursor hpass
  obtain ⟨log, scratch, hrun⟩ := h before cursor hpass
  exact ⟨_, scratch, run_decodeTraced_of_ok hrun⟩

theorem lacks_decodeTraced (h : (layout.decode format).Lacks run size) :
    (layout.decodeTraced format).Lacks run size := by
  intro before cursor hpass hlt
  obtain ⟨after, hrun⟩ := h before cursor hpass hlt
  exact ⟨after, run_decodeTraced_of_error hrun⟩

/-- The announcement that there is no string is a whole record. -/
theorem reads_of_announced_none (h : (layout.announced format).Reads run none) :
    (layout.decodeTraced format).Reads run .null := by
  refine reads_decodeTraced ?_
  rw [decode_eq, ← ByteArray.append_empty (b := run)]
  exact (h.bind (Decode.reads_pure StringConst.null)).transaction

/-- With as many bytes as are announced behind it, an announcement is a record. -/
theorem exists_reads_of_announced (h : (layout.announced format).Reads run (some size))
    {stored : ByteArray} (hsize : stored.size = size) :
    ∃ constant, (layout.decodeTraced format).Reads (run ++ stored) constant := by
  obtain ⟨constant, hreads⟩ := (fetches_decodeString size).reads stored hsize
  refine ⟨constant, reads_decodeTraced ?_⟩
  rw [decode_eq]
  exact (h.bind hreads).transaction

/-- With fewer bytes behind it, an announcement asks for as many as it announces. -/
theorem lacks_of_announced (h : (layout.announced format).Reads run (some size)) :
    (layout.decodeTraced format).Lacks run size := by
  refine lacks_decodeTraced ?_
  rw [decode_eq, ← ByteArray.append_empty (b := run)]
  exact (h.bind_lacks (fetches_decodeString size).lacks).transaction

/-- What lacks bytes for the announcement lacks them for the record. -/
theorem lacks_of_announced_lacks (h : (layout.announced format).Lacks run size) :
    (layout.decodeTraced format).Lacks run size := by
  refine lacks_decodeTraced ?_
  rw [decode_eq]
  exact (h.bind _).transaction

/-- **Reading a record streams**: the cursor is in front of a record, or of one that is cut
short. -/
theorem streams_decodeTraced : (layout.decodeTraced format).Streams := by
  intro cursor
  rcases streams_announced cursor with ⟨run, size, between, hpass, hreads⟩ |
    ⟨run, between, needed, hpass, hlt, hlacks⟩
  · cases size with
    | none => exact .inl ⟨run, .null, between, hpass, reads_of_announced_none hreads⟩
    | some size =>
      rcases Nat.lt_or_ge between.remaining size with hlt | hle
      · exact .inr ⟨run, between, size, hpass, hlt, lacks_of_announced hreads⟩
      · have hsize := Cursor.size_extract_of_le hle
        obtain ⟨constant, hrecord⟩ := exists_reads_of_announced hreads hsize
        exact .inl ⟨_, constant, _, hpass.append (between.passes_advance size hle), hrecord⟩
  · exact .inr ⟨run, between, needed, hpass, hlt, lacks_of_announced_lacks hlacks⟩

section Runs

variable {cursor : Cursor} {scratch : ByteArray} {log : Array LogLine} {after : DecodeState}

/-- A record that is read cannot be read in less than itself. -/
theorem size_le_of_run_cut {constant constant' : StringConst} {kept : Nat} {after' : DecodeState}
    (h : (layout.decodeTraced format).run ⟨cursor, scratch, log⟩ = .ok constant after)
    (hcut : (layout.decodeTraced format).run ⟨cursor.cut kept, scratch, log⟩ =
      .ok constant' after') : after.cursor.pos ≤ cursor.pos + kept := by
  obtain ⟨run, hpass, hreads⟩ := streams_decodeTraced.exists_reads hcut
  -- put back what was cut off: the record in front of it is still there
  have hwhole := hpass.extend (cursor.data.extract (cursor.pos + kept) cursor.data.size)
  rw [cursor.extend_cut] at hwhole
  obtain ⟨-, hafter⟩ := hreads.eq_of_run h hwhole
  rw [hafter]
  have hle : run.size ≤ (cursor.cut kept).remaining := hpass.size_le
  have hkept := cursor.remaining_cut_le kept
  have hpos := hwhole.pos_eq
  omega

/-- No record is the beginning of another. -/
theorem eq_empty_of_run_append {record rest : ByteArray} {constant constant' : StringConst}
    {after' : DecodeState}
    (h : (layout.decodeTraced format).run ⟨.start record, scratch, log⟩ = .ok constant after)
    (hend : after.cursor.pos = record.size)
    (happend : (layout.decodeTraced format).run ⟨.start (record ++ rest), scratch, log⟩ =
      .ok constant' after')
    (hend' : after'.cursor.pos = (record ++ rest).size) : rest = .empty := by
  obtain ⟨run, hpass, hreads⟩ := streams_decodeTraced.exists_reads h
  obtain ⟨-, hafter⟩ := hreads.eq_of_run happend (hpass.extend rest)
  have hpos : after'.cursor.pos = after.cursor.pos := by
    rw [hafter]
    rfl
  rw [hend', hend, ByteArray.size_append] at hpos
  exact ByteArray.size_eq_zero_iff.mp (by omega)

/-- Where the announcement is there, only bytes of the string can be lacking. -/
theorem exists_announced_of_run {constant : Option Nat} {fault : Fault} {between : DecodeState}
    (hann : (layout.announced format).run ⟨cursor, scratch, log⟩ = .ok constant between)
    (h : (layout.decodeTraced format).run ⟨cursor, scratch, log⟩ = .error fault after) :
    ∃ run size, cursor.Passes run between.cursor ∧
      (layout.announced format).Reads run (some size) ∧ between.cursor.remaining < size ∧
      fault = .truncated size between.cursor.remaining := by
  obtain ⟨run, hpass, hreads⟩ := streams_announced.exists_reads hann
  cases constant with
  | none =>
    obtain ⟨log', scratch', hrun⟩ :=
      reads_of_announced_none hreads ⟨cursor, scratch, log⟩ between.cursor hpass
    rw [h] at hrun
    cases hrun
  | some size =>
    rcases Nat.lt_or_ge between.cursor.remaining size with hlt | hle
    · obtain ⟨after', hrun⟩ :=
        lacks_of_announced hreads ⟨cursor, scratch, log⟩ between.cursor hpass hlt
      rw [h] at hrun
      cases hrun
      exact ⟨run, size, hpass, hreads, hlt, rfl⟩
    · have hwhole := hpass.append (between.cursor.passes_advance size hle)
      obtain ⟨constant, hrecord⟩ :=
        exists_reads_of_announced hreads (Cursor.size_extract_of_le hle)
      obtain ⟨log', scratch', hrun⟩ := hrecord ⟨cursor, scratch, log⟩ _ hwhole
      rw [h] at hrun
      cases hrun

end Runs

/-- **Records end by themselves, and what lacks of one is told exactly.** A record that is read at
one place is read at any other, and in nothing shorter than itself, so that none is the beginning
of another. Where no record can be read, bytes are lacking and the cursor stays; data that goes
on with fewer bytes than are lacking lacks the others, and asks for the same number. If what
announces the string is there, the record can be read as soon as the data goes on with all bytes
that are lacking. -/
theorem decodeTraced_selfDelimiting (layout : Layout) (format : ChunkFormat) (cursor : Cursor)
    (scratch : ByteArray) (log : Array LogLine) :
    let read := fun cursor : Cursor => (layout.decodeTraced format).run ⟨cursor, scratch, log⟩
    let whole := fun bytes : ByteArray => ∃ constant after,
      read (.start bytes) = .ok constant after ∧ after.cursor.pos = bytes.size
    (∀ constant after, read cursor = .ok constant after → ∃ size,
      after.cursor.data = cursor.data ∧ after.cursor.pos = cursor.pos + size ∧
      (∀ (cursor' : Cursor) scratch' log',
        cursor'.data.extract cursor'.pos (cursor'.pos + size) =
          cursor.data.extract cursor.pos (cursor.pos + size) →
        ∃ after', (layout.decodeTraced format).run ⟨cursor', scratch', log'⟩ =
            .ok constant after' ∧
          after'.cursor.data = cursor'.data ∧ after'.cursor.pos = cursor'.pos + size) ∧
      ∀ kept < size, ∃ needed available after',
        read (cursor.cut kept) = .error (.truncated needed available) after') ∧
    (∀ record rest, whole record → whole (record ++ rest) → rest = .empty) ∧
    ∀ fault after, read cursor = .error fault after → ∃ needed available,
      fault = .truncated needed available ∧ available < needed ∧ after.cursor = cursor ∧
      (∀ extra : ByteArray, extra.size < needed - available → ∃ after',
        read (cursor.extend extra) =
          .error (.truncated needed (available + extra.size)) after') ∧
      ((∃ size between,
          (layout.announced format).run ⟨cursor, scratch, log⟩ = .ok size between) →
        ∀ extra : ByteArray, needed - available ≤ extra.size → ∃ constant after',
          read (cursor.extend extra) = .ok constant after') := by
  intro read whole
  refine ⟨fun constant after h => ?_, ?_, fun fault after h => ?_⟩
  · obtain ⟨run, hpass, hreads⟩ := streams_decodeTraced.exists_reads h
    have hpos : after.cursor.pos = cursor.pos + run.size := hpass.pos_eq
    have hrun : cursor.data.extract cursor.pos (cursor.pos + run.size) = run :=
      hpos ▸ hpass.run_eq
    refine ⟨run.size, hpass.data_eq, hpos, fun cursor' scratch' log' hsame => ?_,
      fun kept hkept => ?_⟩
    · obtain ⟨stop, hpass'⟩ := Cursor.exists_passes_of_extract (hsame.trans hrun)
      obtain ⟨log'', scratch'', hread⟩ := hreads ⟨cursor', scratch', log'⟩ stop hpass'
      exact ⟨_, hread, hpass'.data_eq, hpass'.pos_eq⟩
    · rcases hcut : read (cursor.cut kept) with ⟨constant', after'⟩ | ⟨fault, after'⟩
      · have := size_le_of_run_cut h hcut
        omega
      · obtain ⟨_, stop, needed, -, -, -, rfl⟩ := streams_decodeTraced.exists_lacks hcut
        exact ⟨needed, stop.remaining, after', rfl⟩
  · rintro record rest ⟨constant, after, h, hend⟩ ⟨constant', after', happend, hend'⟩
    exact eq_empty_of_run_append h hend happend hend'
  · obtain ⟨run, stop, needed, hpass, hlt, hlacks, rfl⟩ := streams_decodeTraced.exists_lacks h
    refine ⟨needed, stop.remaining, rfl, hlt, ?_, fun extra hextra => ?_, ?_⟩
    · have hkeeps : Keeps _ _ (read cursor) := layout.steady_decodeTraced format _
      rw [h] at hkeeps
      cases hkeeps with
      | error hcursor => exact hcursor
    · have hmore := stop.remaining_extend extra
      have hfails := hlacks ⟨cursor.extend extra, scratch, log⟩ _ (hpass.extend extra) (by omega)
      rwa [hmore] at hfails
    · rintro ⟨size, between, hann⟩ extra hextra
      obtain ⟨run', size, hpass', hreads, hlt', hfault⟩ := exists_announced_of_run hann h
      obtain ⟨rfl, hstop⟩ := Fault.truncated.inj hfault
      -- as many bytes as are announced are there, and the rest of the data does not matter
      have hmore := between.cursor.remaining_extend extra
      have hle : needed ≤ (between.cursor.extend extra).remaining := by omega
      have hwhole := (hpass'.extend extra).append (Cursor.passes_advance _ needed hle)
      obtain ⟨constant, hrecord⟩ :=
        exists_reads_of_announced hreads (Cursor.size_extract_of_le hle)
      obtain ⟨log', scratch', hread⟩ := hrecord ⟨cursor.extend extra, scratch, log⟩ _ hwhole
      exact ⟨constant, _, hread⟩

/-- A compact string of two bytes, of which one is there; a size of two bytes stands in front. -/
theorem decodeTraced_selfDelimiting_compact :
    let format : ChunkFormat := ⟨0x53, ⟨2, by decide, by decide⟩, .little, true⟩
    let cursor : Cursor := ⟨[9, 0xff, 2, 0, 0x61].toByteArray, 1, by decide⟩
    let read := fun cursor : Cursor => (compact.decodeTraced format).run ⟨cursor, .empty, #[]⟩
    (∃ after, read cursor = .error (.truncated 2 1) after) ∧
      (∃ size between, (compact.announced format).run ⟨cursor, .empty, #[]⟩ = .ok size between) ∧
      (∃ constant after, read (cursor.extend [7].toByteArray) = .ok constant after) ∧
      ∀ kept < 5, ∃ needed available after,
        read ((cursor.extend [7].toByteArray).cut kept) =
          .error (.truncated needed available) after := by
  intro format cursor read
  have hfails : ∃ after, read cursor = .error (.truncated 2 1) after :=
    Decode.fst_attempt_eq_error.mp (by decide +kernel)
  have hann : ∃ between, (compact.announced format).run ⟨cursor, .empty, #[]⟩ =
      .ok (some 2) between := Decode.fst_attempt_eq_ok.mp (by decide +kernel)
  obtain ⟨after, hfail⟩ := hfails
  obtain ⟨between, hann⟩ := hann
  obtain ⟨needed, available, hfault, -, -, -, hmore⟩ :=
    (decodeTraced_selfDelimiting compact format cursor .empty #[]).2.2 _ after hfail
  obtain ⟨rfl, rfl⟩ := Fault.truncated.inj hfault
  obtain ⟨constant, whole, hread⟩ := hmore ⟨_, between, hann⟩ [7].toByteArray (by decide)
  have hend : ((compact.decodeTraced format).attempt
      ⟨cursor.extend [7].toByteArray, .empty, #[]⟩).2.cursor.pos = 6 := by decide +kernel
  rw [Decode.attempt, show (compact.decodeTraced format).run _ = _ from hread] at hend
  obtain ⟨size, -, hsize, -, hshort⟩ := (decodeTraced_selfDelimiting compact format
    (cursor.extend [7].toByteArray) .empty #[]).1 constant whole hread
  obtain rfl : size = 5 := by
    have hstart : (cursor.extend [7].toByteArray).pos = 1 := rfl
    simp only at hend
    omega
  exact ⟨⟨after, hfail⟩, ⟨_, between, hann⟩, ⟨constant, whole, hread⟩, hshort⟩

end Layout

end ChunkStrings
