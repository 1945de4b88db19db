import ChunkStrings.Proofs.MachineSession
import ChunkStrings.Proofs.Tracing
import Mathlib.Algebra.Ring.Nat

/-!
# Strings behind a length

What the legacy and the modern layout accept, told by the data alone: how many bytes are left,
and which number stands in the first of them. The number says how many bytes are asked for
behind it, and the bytes that are there are the answer, cut out in one piece.

The readers do not cut anything out. They look once whether the bytes are there, and then gather
them one by one in a loop of as many turns as the number says, each turn with a read that could
fail. Behind the look it does not: the loop is one slice (`Decode.run_forIndexes_gather_of_le`),
at every turn of it there is a byte (`Decode.exists_run_byte_of_turn`), and the first turn of the
modern loop, which reads nothing, leaves a loop of one turn less
(`LengthInt.forIndexes_skipFirst`). So the number may be any that fits into eight bytes: if it asks
for more than there is, no turn of the loop is made.
-/

namespace ChunkStrings

variable {format : ChunkFormat} {before : DecodeState}

/-! ### The loops -/

namespace Decode

variable {count : Nat}

/-- A slice moves over the bytes that are there, and adds them to what was gathered before. -/
theorem run_take_keepAll_of_le (h : count ≤ before.cursor.remaining) :
    (do let bytes ← take count; keepAll bytes : Decode Unit).run before =
      .ok () { before with
        cursor := before.cursor.advance count h
        scratch := before.scratch ++
          before.cursor.data.extract before.cursor.pos (before.cursor.pos + count) } := by
  rw [EStateM.run_bind, run_take_of_le h]
  rfl

/-- **The loop is one slice**, where there are as many bytes as it has turns. -/
theorem run_forIndexes_gather_of_le (h : count ≤ before.cursor.remaining) (index : Nat) :
    (LengthInt.forIndexes (fun _ => gather) count index).run before =
      (do let bytes ← take count; keepAll bytes : Decode Unit).run before := by
  rw [run_take_keepAll_of_le h]
  exact run_forIndexes_gather_eq_ok.mpr ⟨_, _, Cursor.size_extract_of_le h,
    before.cursor.passes_advance count h, rfl⟩

/-- **At every turn of the loop there is a byte to read**, where there are as many as turns. -/
theorem exists_run_byte_of_turn (h : count ≤ before.cursor.remaining) {turn : Nat}
    (hturn : turn < count) : ∃ between byte after,
      (LengthInt.forIndexes (fun _ => gather) turn 0).run before = .ok () between ∧
        Decode.byte.run between = .ok byte after := by
  have hearlier : turn ≤ before.cursor.remaining := Nat.le_of_lt (Nat.lt_of_lt_of_le hturn h)
  have hloop := run_forIndexes_gather_of_le hearlier 0
  rw [run_take_keepAll_of_le hearlier] at hloop
  have hlt : (before.cursor.advance turn hearlier).pos <
      (before.cursor.advance turn hearlier).data.size := by
    have hpos := before.cursor.pos_add_remaining
    change before.cursor.pos + turn < before.cursor.data.size
    omega
  exact ⟨_, _, _, hloop, run_byte_of_lt hlt⟩

/-- Bytes that are there are gathered, and nothing else is in the scratch buffer afterwards. -/
theorem run_gatherAll_of_le (h : count ≤ before.cursor.remaining) :
    (gatherAll count).run before =
      .ok (before.cursor.data.extract before.cursor.pos (before.cursor.pos + count))
        { before with
          cursor := before.cursor.advance count h
          scratch := before.cursor.data.extract before.cursor.pos
            (before.cursor.pos + count) } := by
  have hpass := before.cursor.passes_advance count h
  exact run_gatherAll_eq_ok.mpr ⟨Cursor.size_extract_of_le h, _, hpass, rfl⟩

end Decode

/-! ### The number in front -/

/-- **A length is the number that stands in the first bytes**, as many as the format asks for. -/
theorem LengthInt.exists_run_decode_eq (h : format.width.bytes ≤ before.cursor.remaining) :
    ∃ length : LengthInt, length.value = format.order.decode (before.cursor.data.extract
        before.cursor.pos (before.cursor.pos + format.width.bytes)).data.toList ∧
      (LengthInt.decode format).run before =
        .ok length { before with cursor := before.cursor.advance format.width.bytes h } := by
  simp only [LengthInt.decode, Decode.onCursor, EStateM.run, h, dif_pos]
  exact ⟨_, rfl, rfl⟩

/-- Bytes of the data that stand between two positions of it, the last of them apart. -/
theorem StringConst.ofTerminated_extract {data : ByteArray} {start count : Nat} (hcount : 0 < count)
    (hend : start + count - 1 < data.size) :
    ofTerminated (data.extract start (start + count)) =
      present (data.extract start (start + count - 1)) (some data[start + count - 1]) := by
  have hlast := ByteArray.extract_add_one hend
  have hsplit : data.extract start (start + count) =
      data.extract start (start + count - 1) ++ [data[start + count - 1]].toByteArray := by
    rw [← hlast, Nat.sub_add_cancel (by omega)]
    exact ByteArray.extract_eq_extract_append_extract _ (by omega) (by omega)
  rw [hsplit, ofTerminated_append_singleton]

/-! ### The two layouts -/

section Layouts

variable {length : LengthInt} {between : DecodeState}

/-- What is left behind a number is what was left in front of it, without its bytes. -/
theorem Cursor.remaining_advance (cursor : Cursor) (count : Nat) (h : count ≤ cursor.remaining) :
    (cursor.advance count h).remaining = cursor.remaining - count := by
  have hpos := cursor.pos_add_remaining
  change cursor.data.size - (cursor.pos + count) = _
  omega

/-- Where the number is not there, the record is not, either. -/
theorem Layout.outcome_of_field_lt {layout : Layout} (hlayout : layout ≠ .compact)
    (h : before.cursor.remaining < format.width.bytes) :
    (layout.decodeTraced format).outcome before =
      (.error (.truncated format.width.bytes before.cursor.remaining), before.cursor) := by
  have hfield := LengthInt.run_decode_of_lt h
  rw [outcome_decodeTraced]
  cases layout with
  | legacy =>
    rw [decode, Decode.outcome_transaction, Legacy.decode_eq, Decode.outcome_bind_of_error hfield]
  | compact => exact absurd rfl hlayout
  | modern =>
    rw [decode, Decode.outcome_transaction, Modern.decode_eq, Decode.outcome_bind_of_error hfield]

/-- **Behind the number, the legacy layout finds as many bytes as it says**, or says how many there
are. -/
theorem Legacy.outcome_of_field
    (hfield : (LengthInt.decode format).run before = .ok length between) :
    (Layout.legacy.decodeTraced format).outcome before =
      if h : length.value ≤ between.cursor.remaining then
        (.ok (.ofTerminated (between.cursor.data.extract between.cursor.pos
          (between.cursor.pos + length.value))), between.cursor.advance length.value h)
      else (.error (.truncated length.value between.cursor.remaining), before.cursor) := by
  rw [Layout.outcome_decodeTraced, Layout.decode, Decode.outcome_transaction, Legacy.decode_eq,
    Decode.outcome_bind_of_ok hfield]
  by_cases h : length.value ≤ between.cursor.remaining
  · rw [dif_pos h, Decode.outcome_bind_of_ok (Decode.run_gatherAll_of_le h)]
    rfl
  · rw [dif_neg h,
      Decode.outcome_bind_of_error (Decode.run_gatherAll_of_lt (Nat.lt_of_not_le h))]

/-- **Behind the number, the modern layout finds one byte less than it says**, or says how many
there are. Behind zero it looks for none, and finds no string. -/
theorem Modern.outcome_of_field
    (hfield : (LengthInt.decode format).run before = .ok length between) :
    (Layout.modern.decodeTraced format).outcome before =
      if length.value = 0 then (.ok .null, between.cursor)
      else if h : length.value - 1 ≤ between.cursor.remaining then
        (.ok (.ofBytes (between.cursor.data.extract between.cursor.pos
          (between.cursor.pos + (length.value - 1)))), between.cursor.advance (length.value - 1) h)
      else (.error (.truncated (length.value - 1) between.cursor.remaining), before.cursor) := by
  rw [Layout.outcome_decodeTraced, Layout.decode, Decode.outcome_transaction, Modern.decode_eq,
    Decode.outcome_bind_of_ok hfield]
  by_cases hzero : length.value = 0
  · rw [if_pos hzero, if_pos hzero]
    rfl
  rw [if_neg hzero, if_neg hzero]
  by_cases h : length.value - 1 ≤ between.cursor.remaining
  · rw [dif_pos h, Decode.outcome_bind_of_ok (Decode.run_gatherAll_of_le h)]
    rfl
  · rw [dif_neg h,
      Decode.outcome_bind_of_error (Decode.run_gatherAll_of_lt (Nat.lt_of_not_le h))]

end Layouts

/-! ### What is accepted -/

/-- **Legacy and modern records are accepted exactly by their grammar.** If fewer bytes are left
than the number in front takes, so many are lacking. Otherwise the number is read from them, and
with it the number of bytes behind: for the absent string none; else, in the legacy layout, as
many as it says, the last of which stands behind the string, and in the modern layout one less. If
they are there, they are the answer and the cursor is behind them; if not, it is where it was, and
the bytes that are asked for and those that are left are reported. What was gathered or logged
before does not matter.

The loops that gather the bytes come to what one slice comes to, and no read in them fails: at
every turn there is a byte. In machine words it all comes to the same, whatever the number
is. -/
theorem Layout.decodeTraced_lengthPrefix (format : ChunkFormat) (before : DecodeState) :
    let data := before.cursor.data
    let width := format.width.bytes
    let start := before.cursor.pos + width
    let length := format.order.decode (data.extract before.cursor.pos start).data.toList
    let left := before.cursor.remaining - width
    let legacyRead := (legacy.decodeTraced format).outcome before
    let modernRead := (modern.decodeTraced format).outcome before
    let lacks := fun needed available : Nat =>
      ((.error (.truncated needed available), before.cursor) : Except Fault StringConst × Cursor)
    -- the number is not there
    (before.cursor.remaining < width →
      legacyRead = lacks width before.cursor.remaining ∧
      modernRead = lacks width before.cursor.remaining) ∧
    (width ≤ before.cursor.remaining →
      -- the absent string
      (length = 0 → ∃ h,
        legacyRead = (.ok .null, ⟨data, start, h⟩) ∧
        modernRead = (.ok .null, ⟨data, start, h⟩)) ∧
      -- a string
      (0 < length →
        (length ≤ left → ∃ (hlast : start + length - 1 < data.size) (h : _),
          legacyRead = (.ok (.present (data.extract start (start + length - 1))
            (some data[start + length - 1])), ⟨data, start + length, h⟩)) ∧
        (left < length → legacyRead = lacks length left) ∧
        (length - 1 ≤ left → ∃ h,
          modernRead = (.ok (.present (data.extract start (start + length - 1)) none),
            ⟨data, start + length - 1, h⟩)) ∧
        (left < length - 1 → modernRead = lacks (length - 1) left))) ∧
    -- the loops, behind the look at how many bytes there are
    (∀ length : LengthInt,
      let slice := fun count : Nat =>
        (do let bytes ← Decode.take count; Decode.keepAll bytes : Decode Unit).run before
      ((Decode.ensure length.value).run before = .ok () before →
        (length.iterate fun _ => Decode.gather).run before = slice length.value ∧
        ∀ turn < length.value, ∃ between byte after,
          (LengthInt.forIndexes (fun _ => Decode.gather) turn 0).run before = .ok () between ∧
            Decode.byte.run between = .ok byte after) ∧
      ((Decode.ensure (length.value - 1)).run before = .ok () before →
        (length.iterate fun index => if 0 < index then Decode.gather else pure ()).run before =
          slice (length.value - 1) ∧
        ∀ turn, 0 < turn → turn < length.value → ∃ between byte after,
          (LengthInt.forIndexes (fun index => if 0 < index then Decode.gather else pure ())
            turn 0).run before = .ok () between ∧ Decode.byte.run between = .ok byte after)) ∧
    -- in machine words
    ∀ layout : Layout, data.size < 2 ^ 64 → Agrees Eq data
      ((WordDecode.record layout format).run (InWords.inWords before))
      ((layout.decodeTraced format).run before) := by
  intro data width start length left legacyRead modernRead lacks
  refine ⟨fun hlt => ?_, fun hwidth => ?_, ?_,
    fun layout hsize => WordDecode.refines_record format layout before hsize⟩
  · exact ⟨outcome_of_field_lt (by decide) hlt, outcome_of_field_lt (by decide) hlt⟩
  · -- the number is there, and what each layout makes of it is known
    obtain ⟨number, hnumber, hfield⟩ := LengthInt.exists_run_decode_eq hwidth
    have hvalue : number.value = length := hnumber
    have hleft : (before.cursor.advance width hwidth).remaining = left :=
      before.cursor.remaining_advance width hwidth
    have hend : start + left = data.size := by
      rw [← hleft]
      exact (before.cursor.advance width hwidth).pos_add_remaining
    have hlegacy := Legacy.outcome_of_field hfield
    have hmodern := Modern.outcome_of_field hfield
    rw [hvalue] at hlegacy hmodern
    refine ⟨fun hzero => ?_, fun hpos =>
      ⟨fun hle => ?_, fun hlt => ?_, fun hle => ?_, fun hlt => ?_⟩⟩
    · rw [hzero] at hlegacy hmodern
      refine ⟨by omega, (hlegacy.trans (dif_pos (Nat.zero_le _))).trans ?_,
        hmodern.trans (if_pos rfl)⟩
      rw [StringConst.ofTerminated, dif_neg (by simp)]
      rfl
    · have hlast : start + length - 1 < data.size := by omega
      refine ⟨hlast, by omega, (hlegacy.trans (dif_pos (hleft.symm ▸ hle))).trans ?_⟩
      exact congrArg (fun constant => (Except.ok constant, _))
        (StringConst.ofTerminated_extract hpos hlast)
    · refine (hlegacy.trans (dif_neg ?_)).trans ?_
      · exact hleft.symm ▸ Nat.not_le.mpr hlt
      · rw [hleft]
    · have hshift : start + length - 1 = start + (length - 1) := Nat.add_sub_assoc hpos start
      rw [hshift]
      exact ⟨by omega,
        (hmodern.trans (if_neg (Nat.ne_of_gt hpos))).trans (dif_pos (hleft.symm ▸ hle))⟩
    · refine (hmodern.trans (if_neg (Nat.ne_of_gt hpos))).trans ((dif_neg ?_).trans ?_)
      · exact hleft.symm ▸ Nat.not_le.mpr hlt
      · rw [hleft]
  · intro number slice
    refine ⟨fun hensure => ?_, fun hensure => ?_⟩
    · have hle := (Decode.run_ensure_eq_ok.mp hensure).1
      exact ⟨Decode.run_forIndexes_gather_of_le hle 0,
        fun turn hturn => Decode.exists_run_byte_of_turn hle hturn⟩
    · have hle := (Decode.run_ensure_eq_ok.mp hensure).1
      refine ⟨?_, fun turn hfirst hturn => ?_⟩
      · rw [LengthInt.iterate, LengthInt.forIndexes_skipFirst]
        exact Decode.run_forIndexes_gather_of_le hle 0
      · rw [LengthInt.forIndexes_skipFirst]
        exact Decode.exists_run_byte_of_turn hle (by omega)

/-- The greatest length of all, with two bytes behind it. -/
theorem Layout.decodeTraced_lengthPrefix_greatest :
    let format : ChunkFormat := ⟨0x50, ⟨8, by decide, by decide⟩, .big, false⟩
    let before : DecodeState := .start ⟨Array.replicate 8 0xff ++ #[0x68, 0x69]⟩
    (legacy.decodeTraced format).outcome before =
        (.error (.truncated (2 ^ 64 - 1) 2), before.cursor) ∧
      (modern.decodeTraced format).outcome before =
        (.error (.truncated (2 ^ 64 - 2) 2), before.cursor) := by
  intro format before
  obtain ⟨-, hread, -⟩ := decodeTraced_lengthPrefix format before
  obtain ⟨-, hstring⟩ := hread (by decide)
  obtain ⟨-, hlegacy, -, hmodern⟩ := hstring (by decide)
  exact ⟨(hlegacy (by decide)).trans (by decide), (hmodern (by decide)).trans (by decide)⟩

end ChunkStrings
