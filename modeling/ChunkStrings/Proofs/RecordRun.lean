import ChunkStrings.Proofs.Record

/-!
# Records in a row

Reading one record after another finds a row of records (`RecordReader.yields_readN_iff`): so
many of them, standing one behind the other from the cursor on. The equivalence of
`Layout.yields_decode_iff` is iterated here once; since it does not mention the scratch buffer,
what an earlier record has left in it is of no concern to a later one.

The same equivalence gives the reading of records at given positions, in any order
(`Layout.decodeAll_of_holds`).
-/

namespace ChunkStrings

/-! ### One record after another -/

namespace RecordReader

variable {reader : RecordReader} {before : DecodeState} {cursor : Cursor} {log : Array LogLine}

theorem yields_read_iff {constant : StringConst} :
    reader.read.Yields before constant cursor log ↔
      ∃ record : Record reader.format reader.layout, record.value = constant ∧
        before.cursor.Passes record.bytes cursor ∧ log = before.log ++ record.lines :=
  Layout.yields_decodeTraced_iff

/-- **Reading so many records finds a row of as many.** The induction is on the number of records,
with the state left general: the first record ends where the others begin. -/
theorem yields_readOnto_iff {count : Nat} {earlier constants : Array StringConst} :
    (reader.readOnto count earlier).Yields before constants cursor log ↔
      ∃ records : List (Record reader.format reader.layout), records.length = count ∧
        constants = earlier ++ records.map Record.value ∧
        before.cursor.Passes (joinBytes (records.map Record.bytes)) cursor ∧
        log = before.log ++ records.flatMap Record.lines := by
  induction count generalizing earlier before with
  | zero =>
    rw [readOnto, Decode.yields_pure_iff]
    constructor
    · rintro ⟨rfl, rfl, rfl⟩
      exact ⟨[], rfl, by simp, Cursor.passes_empty_iff.mpr rfl, by simp⟩
    · rintro ⟨records, hlength, rfl, hpass, rfl⟩
      obtain rfl := List.length_eq_zero_iff.mp hlength
      exact ⟨by simp, Cursor.passes_empty_iff.mp hpass, by simp⟩
  | succ count ih =>
    rw [readOnto, Decode.yields_bind_iff]
    constructor
    · rintro ⟨constant, between, hread, hrest⟩
      obtain ⟨record, rfl, hpass, hlog⟩ := yields_read_iff.mp (Decode.yields_of_run hread)
      obtain ⟨records, hlength, rfl, hpass', rfl⟩ := ih.mp hrest
      refine ⟨record :: records, congrArg (· + 1) hlength, ?_, hpass.append hpass', ?_⟩
      · exact Array.ext' (by simp)
      · rw [hlog]
        exact Array.ext' (by simp)
    · rintro ⟨records, hlength, rfl, hpass, rfl⟩
      obtain ⟨record, rest, rfl⟩ := List.exists_cons_of_length_eq_add_one hlength
      obtain ⟨between, hfirst, hrest⟩ := hpass.split
      obtain ⟨scratch, hread⟩ := yields_read_iff.mpr ⟨record, rfl, hfirst, rfl⟩
      refine ⟨_, _, hread, ih.mpr ⟨rest, Nat.succ.inj hlength, ?_, hrest, ?_⟩⟩
      · exact Array.ext' (by simp)
      · exact Array.ext' (by simp)

/-- **Reading so many records at once finds the same row**, since a transaction that succeeds
leaves everything as it is. -/
theorem yields_readN_iff {count : Nat} {constants : Array StringConst} :
    (reader.readN count).Yields before constants cursor log ↔
      ∃ records : List (Record reader.format reader.layout), records.length = count ∧
        constants = (records.map Record.value).toArray ∧
        before.cursor.Passes (joinBytes (records.map Record.bytes)) cursor ∧
        log = before.log ++ records.flatMap Record.lines := by
  rw [readN, Decode.yields_transaction_iff, yields_readOnto_iff]
  simp

/-- **Reading on until no data is left finds a row of records that makes up the rest of the
data**, if it may read as many: no record is empty, so there is data left in front of each. -/
theorem fst_readUntil_of_passes {records : List (Record reader.format reader.layout)} {most : Nat}
    (hpass : before.cursor.Passes (joinBytes (records.map Record.bytes)) cursor)
    (hend : cursor.pos = cursor.data.size) (hmost : records.length ≤ most) :
    (reader.readUntil most before).1 = records.map fun record => .ok record.value := by
  induction records generalizing most before with
  | nil =>
    obtain rfl := Cursor.passes_empty_iff.mp hpass
    cases most with
    | zero => rfl
    | succ most =>
      have hmore : before.cursor.hasMore = false := by simp [Cursor.hasMore, hend]
      rw [readUntil, hmore]
      rfl
  | cons record records ih =>
    obtain ⟨most, rfl⟩ : ∃ most', most = most' + 1 := ⟨most - 1, by simp at hmost; omega⟩
    obtain ⟨between, hfirst, hrest⟩ := hpass.split
    obtain ⟨scratch, hread⟩ := yields_read_iff.mpr ⟨record, rfl, hfirst, rfl⟩
    have hmore : before.cursor.hasMore = true :=
      before.cursor.hasMore_iff.mpr (Nat.lt_of_lt_of_le record.size_bytes_pos hfirst.size_le)
    have hlater : (reader.readUntil most ⟨between, scratch, before.log ++ record.lines⟩).1 = _ :=
      ih hrest (Nat.le_of_succ_le_succ hmost)
    rw [readUntil, hmore, if_pos rfl, hread, List.map_cons, ← hlater]

end RecordReader

/-! ### Records at given positions -/

namespace Layout

variable {layout : Layout} {format : ChunkFormat}

/-- **A record stands at a position of the data**, and this is the constant it stands for. -/
def Holds (layout : Layout) (format : ChunkFormat) (data : ByteArray) (pos : Nat)
    (constant : StringConst) : Prop :=
  ∃ (h : pos ≤ data.size) (record : Record format layout) (cursor : Cursor),
    record.value = constant ∧ Cursor.Passes ⟨data, pos, h⟩ record.bytes cursor

variable {data : ByteArray}

/-- The record at a position is read wherever the cursor stands and whatever was read before. -/
theorem attempt_decodeAt_of_holds {pos : Nat} {constant : StringConst} {state : DecodeState}
    (hdata : state.cursor.data = data) (hholds : layout.Holds format data pos constant) :
    ∃ after, (layout.decodeAt format pos).attempt state = (.ok constant, after) ∧
      after.cursor.data = data := by
  obtain ⟨h, record, cursor, hvalue, hpass⟩ := hholds
  subst hdata
  obtain ⟨scratch, hrun⟩ : (layout.decodeTraced format).Yields
      { state with cursor := ⟨state.cursor.data, pos, h⟩ } constant cursor _ :=
    yields_decodeTraced_iff.mpr ⟨record, hvalue, hpass, rfl⟩
  have hat : (layout.decodeAt format pos).run state = .ok constant _ :=
    Decode.run_bind_eq_ok.mpr ⟨(), _, Decode.run_seek_of_le h, hrun⟩
  exact ⟨_, by rw [Decode.attempt, hat], hpass.data_eq⟩

/-- Reading at several positions is reading at the first, and at the others from where that one
left off. -/
theorem decodeEach_cons (pos : Nat) (positions : List Nat) (state : DecodeState) :
    layout.decodeEach format (pos :: positions) state =
      (((layout.decodeAt format pos).attempt state).1 ::
          (layout.decodeEach format positions ((layout.decodeAt format pos).attempt state).2).1,
        (layout.decodeEach format positions ((layout.decodeAt format pos).attempt state).2).2) := by
  rw [decodeEach, List.mapM_cons]
  rfl

/-- Records at given positions are read one after another, each whatever came before it. -/
theorem decodeEach_of_holds {spots : List (Nat × StringConst)} {state : DecodeState}
    (hdata : state.cursor.data = data)
    (h : ∀ spot ∈ spots, layout.Holds format data spot.1 spot.2) :
    (layout.decodeEach format (spots.map (·.1)) state).1 = spots.map fun spot => .ok spot.2 := by
  induction spots generalizing state with
  | nil => rfl
  | cons spot spots ih =>
    obtain ⟨after, hattempt, hafter⟩ :=
      attempt_decodeAt_of_holds hdata (h spot List.mem_cons_self)
    have hrest := ih hafter fun spot hspot => h spot (List.mem_cons_of_mem _ hspot)
    rw [List.map_cons, decodeEach_cons, hattempt, hrest, List.map_cons]

/-- **Records at given positions are read in the order of the positions**, of which any may be
given more than once. -/
theorem decodeAll_of_holds {spots : List (Nat × StringConst)}
    (h : ∀ spot ∈ spots, layout.Holds format data spot.1 spot.2) :
    (layout.decodeAll format data (spots.map (·.1))).1 = .ok (spots.map (·.2)) := by
  have heach : (layout.decodeEach format (spots.map (·.1)) (.start data)).1 = _ :=
    decodeEach_of_holds rfl h
  change ((layout.decodeEach format _ _).1.mapM id) = _
  rw [heach, List.mapM_map]
  exact List.mapM_pure

end Layout

end ChunkStrings
