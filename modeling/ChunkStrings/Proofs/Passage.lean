import ChunkStrings.LengthInt

/-!
# Passing over bytes

A read that succeeds moves the cursor over the bytes that it has read, and nothing else about
the cursor changes. `Cursor.Passes` says so as a relation between a cursor, a run of bytes and
the cursor behind the run, without mention of the positions in between: it composes
(`Cursor.Passes.append`, `Cursor.Passes.split`), so a read made of several passes over what they
pass over, one after another.

Every reading primitive is then characterized by the run that it passes over, in both
directions: it succeeds exactly if there is such a run ahead, and then it yields what the run
stands for. Two of them are not primitive: a length passes over its own field
(`LengthInt.run_decode_eq_ok`), and the loop that gathers so many bytes one by one passes over
as many bytes at once (`Decode.run_gatherAll_eq_ok`). The induction over the count is done here,
and nothing later looks at the loop again.
-/

namespace ChunkStrings

/-- The runs of a list, one after another, as one run. -/
def joinBytes : List ByteArray → ByteArray
  | [] => .empty
  | run :: runs => run ++ joinBytes runs

@[simp] theorem joinBytes_nil : joinBytes [] = .empty := rfl

@[simp] theorem joinBytes_cons (run : ByteArray) (runs : List ByteArray) :
    joinBytes (run :: runs) = run ++ joinBytes runs := rfl

@[simp] theorem joinBytes_append (runs runs' : List ByteArray) :
    joinBytes (runs ++ runs') = joinBytes runs ++ joinBytes runs' := by
  induction runs with
  | nil => simp
  | cons run runs ih => simp [ih, ByteArray.append_assoc]

/-- A run that is not empty has a first byte. -/
theorem exists_eq_cons_of_size {run : ByteArray} {size : Nat} (h : run.size = size + 1) :
    ∃ byte rest, run = [byte].toByteArray ++ rest ∧ rest.size = size := by
  have hpos : 0 < run.size := by omega
  have hfirst := ByteArray.extract_add_one (a := run) (i := 0) hpos
  refine ⟨run[0], run.extract 1 run.size, ?_, ?_⟩
  · rw [← hfirst, ByteArray.extract_append_extract]
    simp
  · rw [ByteArray.size_extract]
    omega

/-- A run that is not empty has a last byte. -/
theorem exists_eq_append_singleton {run : ByteArray} (h : 0 < run.size) :
    ∃ front byte, run = front ++ [byte].toByteArray := by
  have hlast := ByteArray.extract_add_one (a := run) (i := run.size - 1) (by omega)
  refine ⟨run.extract 0 (run.size - 1), run[run.size - 1], ?_⟩
  rw [← hlast, ByteArray.extract_append_extract]
  simp [Nat.sub_add_cancel h]

/-! ### Cursors that move -/

namespace Cursor

/-- **The cursor moves over a run of bytes**: the run stands where the cursor is before, and the
cursor is right behind it afterwards, in the same data. -/
structure Passes (before : Cursor) (run : ByteArray) (after : Cursor) : Prop where
  /-- The data stays what it is. -/
  data_eq : after.data = before.data
  /-- The position grows by the length of the run. -/
  pos_eq : after.pos = before.pos + run.size
  /-- The run is what stands between the two positions. -/
  run_eq : before.data.extract before.pos after.pos = run

variable {first second third : Cursor} {left right run : ByteArray}

theorem Passes.right_unique (h : first.Passes run second) (h' : first.Passes run third) :
    second = third :=
  ext_pos (h.data_eq.trans h'.data_eq.symm) (h.pos_eq.trans h'.pos_eq.symm)

/-- The run that a cursor has passed over is determined by the two ends. -/
theorem Passes.run_unique {run' : ByteArray} (h : first.Passes run second)
    (h' : first.Passes run' second) : run = run' :=
  h.run_eq.symm.trans h'.run_eq

theorem Passes.pos_le_pos (h : first.Passes run second) : first.pos ≤ second.pos := by
  have := h.pos_eq
  omega

/-- A run fits into what is left of the data. -/
theorem Passes.size_le (h : first.Passes run second) : run.size ≤ first.remaining := by
  have hle := second.pos_le
  rw [h.data_eq, h.pos_eq] at hle
  unfold remaining
  omega

theorem Passes.remaining_eq (h : first.Passes run second) :
    second.remaining = first.remaining - run.size := by
  unfold remaining
  rw [h.data_eq, h.pos_eq]
  omega

/-- A cursor that passes over nothing stays. -/
theorem passes_empty_iff : first.Passes .empty second ↔ first = second := by
  constructor
  · exact fun h => (ext_pos h.data_eq h.pos_eq).symm
  · rintro rfl
    exact ⟨rfl, rfl, ByteArray.extract_same⟩

theorem Passes.append (h : first.Passes left second) (h' : second.Passes right third) :
    first.Passes (left ++ right) third where
  data_eq := h'.data_eq.trans h.data_eq
  pos_eq := by
    rw [h'.pos_eq, h.pos_eq, ByteArray.size_append]
    omega
  run_eq := by
    have hright := h'.run_eq
    rw [h.data_eq] at hright
    rw [ByteArray.extract_eq_extract_append_extract second.pos h.pos_le_pos h'.pos_le_pos,
      h.run_eq, hright]

/-- Between two runs that a cursor passes over there is a place for it to stop. -/
theorem Passes.split (h : first.Passes (left ++ right) third) :
    ∃ second, first.Passes left second ∧ second.Passes right third := by
  have hpos := h.pos_eq
  rw [ByteArray.size_append] at hpos
  have hstop : first.pos + left.size ≤ first.data.size := by
    have hle := third.pos_le
    rw [h.data_eq] at hle
    omega
  have hrun := h.run_eq
  rw [ByteArray.extract_eq_extract_append_extract (first.pos + left.size) (by omega) (by omega)]
    at hrun
  have hleft := ByteArray.append_inj_left hrun (by rw [ByteArray.size_extract]; omega)
  rw [hleft, ByteArray.append_right_inj] at hrun
  refine ⟨⟨first.data, first.pos + left.size, hstop⟩, ⟨rfl, rfl, hleft⟩, h.data_eq, ?_, hrun⟩
  change third.pos = first.pos + left.size + right.size
  omega

/-- As many bytes as are asked for, if they are there. -/
theorem size_extract_of_le {cursor : Cursor} {count : Nat} (h : count ≤ cursor.remaining) :
    (cursor.data.extract cursor.pos (cursor.pos + count)).size = count := by
  have := cursor.pos_add_remaining
  rw [ByteArray.size_extract]
  omega

/-- A cursor can move over the bytes that are there. -/
theorem passes_advance (cursor : Cursor) (count : Nat) (h : count ≤ cursor.remaining) :
    cursor.Passes (cursor.data.extract cursor.pos (cursor.pos + count))
      (cursor.advance count h) where
  data_eq := rfl
  pos_eq := congrArg (cursor.pos + ·) (size_extract_of_le h).symm
  run_eq := rfl

/-- The cursor behind some bytes, with others ahead. -/
def between (front rest : ByteArray) : Cursor := ⟨front ++ rest, front.size, by simp⟩

@[simp] theorem pos_between (front rest : ByteArray) : (between front rest).pos = front.size := rfl

theorem remaining_between (front rest : ByteArray) :
    (between front rest).remaining = rest.size := by
  simp [remaining, between]

/-- A cursor passes over the first of the bytes ahead. -/
theorem passes_between (front run rest : ByteArray) :
    (between front (run ++ rest)).Passes run (between (front ++ run) rest) where
  data_eq := ByteArray.append_assoc
  pos_eq := ByteArray.size_append
  run_eq := by
    change (front ++ (run ++ rest)).extract front.size (front ++ run).size = run
    rw [ByteArray.size_append, ← Nat.add_zero front.size, Nat.add_assoc,
      ByteArray.extract_append_size_add, Nat.zero_add, ByteArray.extract_append_eq_left rfl]

/-- Where a run stands in the data, a cursor in front of it can move over it. -/
theorem passes_middle {data front rest : ByteArray} {stop : Nat}
    (hdata : data = front ++ run ++ rest) (hstop : stop = front.size + run.size) (h h') :
    Passes ⟨data, front.size, h⟩ run ⟨data, stop, h'⟩ where
  data_eq := rfl
  pos_eq := hstop
  run_eq := by
    have hrun := (passes_between front run rest).run_eq
    rw [pos_between, pos_between, ByteArray.size_append, ← hstop] at hrun
    change data.extract front.size stop = run
    rw [hdata, ByteArray.append_assoc]
    exact hrun

end Cursor

/-! ### Reading primitives -/

namespace Decode

section Steps

variable {α β : Type} {before after : DecodeState}

/-- An attempt shows whether the computation succeeds. -/
theorem fst_attempt_eq_ok {action : Decode α} {before : DecodeState} {result : α} :
    (action.attempt before).1 = .ok result ↔ ∃ after, action.run before = .ok result after := by
  rw [attempt]
  cases action.run before <;> simp

/-- An attempt shows why the computation fails. -/
theorem fst_attempt_eq_error {action : Decode α} {before : DecodeState} {fault : Fault} :
    (action.attempt before).1 = .error fault ↔
      ∃ after, action.run before = .error fault after := by
  rw [attempt]
  cases action.run before <;> simp

/-- Two computations in a row succeed if the first does and then the second. -/
theorem run_bind_eq_ok {action : Decode α} {next : α → Decode β} {result : β} :
    (action >>= next).run before = .ok result after ↔
      ∃ value between, action.run before = .ok value between ∧
        (next value).run between = .ok result after := by
  rw [EStateM.run_bind]
  cases action.run before with
  | ok value between =>
    constructor
    · exact fun h => ⟨value, between, rfl, h⟩
    · rintro ⟨_, _, h, hnext⟩
      cases h
      exact hnext
  | error fault between =>
    constructor
    · intro h
      cases h
    · rintro ⟨_, _, h, -⟩
      cases h

theorem run_pure_eq_ok {value result : α} :
    (pure value : Decode α).run before = .ok result after ↔ value = result ∧ before = after := by
  rw [EStateM.run_pure, EStateM.Result.ok.injEq]

/-- **A read of so many bytes passes over them**, whatever they are. -/
theorem run_take_eq_ok {count : Nat} {run : ByteArray} :
    (take count).run before = .ok run after ↔ run.size = count ∧
      ∃ cursor, before.cursor.Passes run cursor ∧ after = { before with cursor } := by
  constructor
  · intro h
    rcases Nat.lt_or_ge before.cursor.remaining count with hlt | hle
    · rw [run_take_of_lt hlt] at h
      cases h
    · rw [run_take_of_le hle] at h
      cases h
      have hpass := before.cursor.passes_advance count hle
      exact ⟨Nat.add_left_cancel hpass.pos_eq.symm, _, hpass, rfl⟩
  · rintro ⟨rfl, cursor, hpass, rfl⟩
    have hadvance := before.cursor.passes_advance run.size hpass.size_le
    rw [run_take_of_le hpass.size_le, ← hpass.pos_eq, hpass.run_eq]
    rw [← hpass.pos_eq, hpass.run_eq] at hadvance
    rw [hadvance.right_unique hpass]

/-- **A read of one byte passes over it.** -/
theorem run_byte_eq_ok {byte : UInt8} :
    Decode.byte.run before = .ok byte after ↔
      ∃ cursor, before.cursor.Passes [byte].toByteArray cursor ∧
        after = { before with cursor } := by
  constructor
  · intro h
    rcases Nat.lt_or_ge before.cursor.pos before.cursor.data.size with hlt | hle
    · rw [run_byte_of_lt hlt] at h
      cases h
      exact ⟨⟨before.cursor.data, before.cursor.pos + 1, hlt⟩,
        ⟨rfl, rfl, ByteArray.extract_add_one hlt⟩, rfl⟩
    · rw [run_byte_of_le hle] at h
      cases h
  · rintro ⟨cursor, hpass, rfl⟩
    have hpos : cursor.pos = before.cursor.pos + 1 := hpass.pos_eq
    have hlt : before.cursor.pos < before.cursor.data.size := by
      have hle := cursor.pos_le
      rwa [hpass.data_eq, hpos] at hle
    have hrun := hpass.run_eq
    rw [hpos, ByteArray.extract_add_one hlt, List.toByteArray_inj] at hrun
    rw [run_byte_of_lt hlt, List.head_eq_of_cons_eq hrun]
    congr 2
    exact Cursor.ext_pos hpass.data_eq.symm hpos.symm

/-- A check that bytes are there changes nothing. -/
theorem run_ensure_eq_ok {needed : Nat} {result : Unit} :
    (ensure needed).run before = .ok result after ↔
      needed ≤ before.cursor.remaining ∧ before = after := by
  rcases Nat.lt_or_ge before.cursor.remaining needed with hlt | hle
  · rw [run_ensure_of_lt hlt]
    simp [Nat.not_le.mpr hlt]
  · rw [run_ensure_of_le hle]
    simp [hle]

/-! ### The loop that gathers bytes -/

/-- Reads a byte and keeps it. -/
def gather : Decode Unit := do
  let byte ← Decode.byte
  keep byte

theorem run_gather_eq_ok {result : Unit} : gather.run before = .ok result after ↔
    ∃ byte cursor, before.cursor.Passes [byte].toByteArray cursor ∧
      after = { before with cursor, scratch := before.scratch.push byte } := by
  rw [gather, run_bind_eq_ok]
  constructor
  · rintro ⟨byte, between, hbyte, hkeep⟩
    obtain ⟨cursor, hpass, rfl⟩ := run_byte_eq_ok.mp hbyte
    cases hkeep
    exact ⟨byte, cursor, hpass, rfl⟩
  · rintro ⟨byte, cursor, hpass, rfl⟩
    exact ⟨byte, _, run_byte_eq_ok.mpr ⟨cursor, hpass, rfl⟩, rfl⟩

/-- **The loop passes over as many bytes as it has turns**, and adds them to what was gathered
before. The induction is on the number of turns, with the state left general: what a turn
gathers stands in front of what the later ones gather. -/
theorem run_forIndexes_gather_eq_ok {count index : Nat} {result : Unit} :
    (LengthInt.forIndexes (fun _ => gather) count index).run before = .ok result after ↔
      ∃ run cursor, run.size = count ∧ before.cursor.Passes run cursor ∧
        after = { before with cursor, scratch := before.scratch ++ run } := by
  induction count generalizing index before with
  | zero =>
    rw [LengthInt.forIndexes, run_pure_eq_ok]
    constructor
    · rintro ⟨-, rfl⟩
      exact ⟨.empty, before.cursor, rfl, Cursor.passes_empty_iff.mpr rfl, by simp⟩
    · rintro ⟨run, cursor, hsize, hpass, rfl⟩
      obtain rfl := ByteArray.size_eq_zero_iff.mp hsize
      obtain rfl := Cursor.passes_empty_iff.mp hpass
      exact ⟨rfl, by simp⟩
  | succ count ih =>
    rw [LengthInt.forIndexes, run_bind_eq_ok]
    constructor
    · rintro ⟨_, between, hturn, hrest⟩
      obtain ⟨byte, cursor, hpass, rfl⟩ := run_gather_eq_ok.mp hturn
      obtain ⟨run, cursor', hsize, hpass', rfl⟩ := ih.mp hrest
      refine ⟨[byte].toByteArray ++ run, cursor', ?_, hpass.append hpass', ?_⟩
      · rw [ByteArray.size_append, hsize, List.size_toByteArray, List.length_singleton]
        omega
      · rw [← ByteArray.append_assoc, ByteArray.append_toByteArray_singleton]
    · rintro ⟨run, cursor, hsize, hpass, rfl⟩
      obtain ⟨byte, rest, rfl, hrest⟩ := exists_eq_cons_of_size hsize
      obtain ⟨between, hbyte, hpass'⟩ := hpass.split
      refine ⟨(), _, run_gather_eq_ok.mpr ⟨byte, between, hbyte, rfl⟩,
        ih.mpr ⟨rest, cursor, hrest, hpass', ?_⟩⟩
      rw [← ByteArray.append_assoc, ByteArray.append_toByteArray_singleton]

/-- Reads so many bytes through the scratch buffer, one by one, once they are known to be
there. -/
def gatherAll (count : Nat) : Decode ByteArray := do
  ensure count
  clear
  LengthInt.forIndexes (fun _ => gather) count 0
  kept

theorem run_gatherAll_of_lt {count : Nat} (h : before.cursor.remaining < count) :
    (gatherAll count).run before =
      .error (.truncated count before.cursor.remaining) before := by
  rw [gatherAll, EStateM.run_bind, run_ensure_of_lt h]

/-- **Reading bytes one by one passes over them as reading them at once does.** -/
theorem run_gatherAll_eq_ok {count : Nat} {run : ByteArray} :
    (gatherAll count).run before = .ok run after ↔ run.size = count ∧
      ∃ cursor, before.cursor.Passes run cursor ∧
        after = { before with cursor, scratch := run } := by
  simp only [gatherAll, run_bind_eq_ok]
  constructor
  · rintro ⟨_, _, hensure, _, _, hclear, _, _, hloop, hkept⟩
    obtain ⟨-, rfl⟩ := run_ensure_eq_ok.mp hensure
    cases hclear
    obtain ⟨run', cursor, hsize, hpass, rfl⟩ := run_forIndexes_gather_eq_ok.mp hloop
    cases hkept
    rw [ByteArray.empty_append]
    exact ⟨hsize, cursor, hpass, rfl⟩
  · rintro ⟨rfl, cursor, hpass, rfl⟩
    refine ⟨(), _, run_ensure_eq_ok.mpr ⟨hpass.size_le, rfl⟩, (), _, run_clear _, (), _,
      run_forIndexes_gather_eq_ok.mpr ⟨run, cursor, rfl, hpass, rfl⟩, ?_⟩
    rw [run_kept, ByteArray.empty_append]

end Steps

end Decode

/-! ### Lengths -/

/-- The field in front of a record that says this length: so many bytes as the format asks for,
in its byte order. -/
def ChunkFormat.field (format : ChunkFormat) (length : Nat) : ByteArray :=
  (format.order.encode format.width.bytes length).toByteArray

namespace ChunkFormat

@[simp] theorem size_field (format : ChunkFormat) (length : Nat) :
    (format.field length).size = format.width.bytes := by
  simp [field]

/-- **A field says one length only.** -/
theorem field_injective {format : ChunkFormat} {length length' : Nat}
    (h : length < format.width.limit) (h' : length' < format.width.limit)
    (heq : format.field length = format.field length') : length = length' := by
  have hdigits := List.toByteArray_inj.mp heq
  rw [← format.order.decode_encode h, hdigits, format.order.decode_encode h']

/-- Every run of as many bytes as the format asks for is the field of some length. -/
theorem field_decode {format : ChunkFormat} {run : ByteArray}
    (h : run.size = format.width.bytes) :
    format.field (format.order.decode run.data.toList) = run := by
  have hlength : run.data.toList.length = format.width.bytes := by
    rw [Array.length_toList]
    exact h
  rw [field, ← hlength, ByteOrder.encode_decode]
  exact ByteArray.ext (by simp)

end ChunkFormat

namespace LengthInt

variable {format : ChunkFormat} {before after : DecodeState}

theorem run_decode_of_lt (h : before.cursor.remaining < format.width.bytes) :
    (decode format).run before =
      .error (.truncated format.width.bytes before.cursor.remaining) before := by
  simp only [decode, Decode.onCursor, EStateM.run, Nat.not_le.mpr h, dif_neg, not_false_eq_true]

/-- A length of a width is determined by its value. -/
theorem eq_of_value_eq {length length' : LengthInt} (hvalue : length.value = length'.value)
    (hwidth : length.width = length'.width) : length = length' := by
  cases length
  cases length'
  cases hvalue
  cases hwidth
  rfl

/-- Where there are bytes enough for a field, they are the field of some length. -/
theorem exists_run_decode_of_le (h : format.width.bytes ≤ before.cursor.remaining) :
    ∃ length cursor, (decode format).run before = .ok length { before with cursor } ∧
      length.width = format.width ∧ before.cursor.Passes (format.field length.value) cursor := by
  have hpass := before.cursor.passes_advance format.width.bytes h
  have hfield := ChunkFormat.field_decode (Nat.add_left_cancel hpass.pos_eq.symm)
  rw [← hfield] at hpass
  simp only [decode, Decode.onCursor, EStateM.run, h, dif_pos]
  exact ⟨_, _, rfl, rfl, hpass⟩

/-- **Reading a length passes over its field**, and reads what the field says. -/
theorem run_decode_eq_ok {length : LengthInt} :
    (decode format).run before = .ok length after ↔ length.width = format.width ∧
      ∃ cursor, before.cursor.Passes (format.field length.value) cursor ∧
        after = { before with cursor } := by
  constructor
  · intro h
    rcases Nat.lt_or_ge before.cursor.remaining format.width.bytes with hlt | hle
    · rw [run_decode_of_lt hlt] at h
      cases h
    · obtain ⟨length', cursor, hrun, hwidth, hpass⟩ := exists_run_decode_of_le hle
      rw [hrun] at h
      cases h
      exact ⟨hwidth, cursor, hpass, rfl⟩
  · rintro ⟨hwidth, cursor, hpass, rfl⟩
    have hle := hpass.size_le
    rw [ChunkFormat.size_field] at hle
    obtain ⟨length', cursor', hrun, hwidth', hpass'⟩ := exists_run_decode_of_le hle
    have hcursor : cursor' = cursor :=
      Cursor.ext_pos (hpass'.data_eq.trans hpass.data_eq.symm) (by
        rw [hpass'.pos_eq, hpass.pos_eq, ChunkFormat.size_field, ChunkFormat.size_field])
    rw [hcursor] at hpass' hrun
    have hfits := length.fits
    have hfits' := length'.fits
    rw [hwidth] at hfits
    rw [hwidth'] at hfits'
    have hvalue := ChunkFormat.field_injective hfits' hfits (hpass'.run_unique hpass)
    rw [hrun, eq_of_value_eq hvalue (hwidth'.trans hwidth.symm)]

end LengthInt

end ChunkStrings
