import Mathlib.Data.List.Basic
import ChunkStrings.Proofs.Truncation

/-!
# Records read by several workers

The records at given positions can be shared out among workers that have nothing in common: each
goes over its share with a scratch buffer of its own, in which every record leaves something for
the next one to find. What is found at a position is the same all the same, since reading a
record streams (`Decode.Streams.fst_attempt_congr`). So it does not matter who reads a record,
and after what: put in the order of the positions, the results are those of a reader that
starts afresh at every position (`Layout.decodeFresh`).

From this it follows what reading at several positions comes to, be it by one worker or by many:
the constants at all positions, or the fault of the first position at which there is none
(`Layout.decodeAll_divided`). Records that were read in a row are found again at the positions
where they begin.
-/

namespace ChunkStrings

/-! ### Running over a list until one fails -/

section Lists

variable {α β ε : Type} {f : α → Except ε β} {x : α} {xs : List α}

theorem mapM_cons_of_error {fault : ε} (h : f x = .error fault) :
    (x :: xs).mapM f = .error fault := by
  rw [List.mapM_cons, h]
  rfl

theorem mapM_cons_of_ok {y : β} (h : f x = .ok y) :
    (x :: xs).mapM f = (xs.mapM f).map (y :: ·) := by
  rw [List.mapM_cons, h]
  cases xs.mapM f <;> rfl

/-- A list of results is got where every element gives one. -/
theorem mapM_eq_ok_iff {ys : List β} : xs.mapM f = .ok ys ↔ xs.map f = ys.map .ok := by
  induction xs generalizing ys with
  | nil => cases ys <;> simp [pure, Except.pure]
  | cons x xs ih =>
    cases hx : f x with
    | error fault => cases ys <;> simp [mapM_cons_of_error hx, hx]
    | ok y =>
      rw [mapM_cons_of_ok hx, List.map_cons, hx]
      cases ys with
      | nil => cases xs.mapM f <;> simp [Except.map]
      | cons y' ys =>
        rw [List.map_cons, List.cons.injEq, ← ih]
        cases xs.mapM f <;> simp [Except.map]

/-- **A fault is got where an element gives it and all before it give results.** -/
theorem mapM_eq_error_iff {fault : ε} : xs.mapM f = .error fault ↔
    ∃ earlier x later, xs = earlier ++ x :: later ∧ (∀ y ∈ earlier, ∃ z, f y = .ok z) ∧
      f x = .error fault := by
  induction xs with
  | nil => simp [pure, Except.pure]
  | cons x xs ih =>
    cases hx : f x with
    | error other =>
      rw [mapM_cons_of_error hx]
      constructor
      · rintro ⟨⟩
        exact ⟨[], x, xs, rfl, by simp, hx⟩
      · rintro ⟨earlier, x', later, heq, hearlier, hfault⟩
        cases earlier with
        | nil =>
          obtain ⟨rfl, -⟩ := List.cons.inj heq
          rw [Except.error.inj (hx.symm.trans hfault)]
        | cons y earlier =>
          -- the first element fails, so it is not one of those that give results
          obtain ⟨rfl, -⟩ := List.cons.inj heq
          obtain ⟨z, hz⟩ := hearlier x List.mem_cons_self
          rw [hx] at hz
          cases hz
    | ok y =>
      rw [mapM_cons_of_ok hx]
      have hmap : (xs.mapM f).map (y :: ·) = .error fault ↔ xs.mapM f = .error fault := by
        cases xs.mapM f <;> simp [Except.map]
      rw [hmap, ih]
      constructor
      · rintro ⟨earlier, x', later, rfl, hearlier, hfault⟩
        exact ⟨x :: earlier, x', later, rfl, List.forall_mem_cons.mpr ⟨⟨y, hx⟩, hearlier⟩, hfault⟩
      · rintro ⟨earlier, x', later, heq, hearlier, hfault⟩
        cases earlier with
        | nil =>
          obtain ⟨rfl, -⟩ := List.cons.inj heq
          rw [hx] at hfault
          cases hfault
        | cons y' earlier =>
          obtain ⟨-, rfl⟩ := List.cons.inj heq
          exact ⟨earlier, x', later, rfl, (List.forall_mem_cons.mp hearlier).2, hfault⟩

end Lists

/-! ### Reading at a position -/

namespace Layout

/-- What is found at a position of the data by a reader that starts afresh. -/
def decodeFresh (layout : Layout) (format : ChunkFormat) (data : ByteArray) (pos : Nat) :
    Except Fault StringConst :=
  ((layout.decodeAt format pos).attempt (.start data)).1

variable {layout : Layout} {format : ChunkFormat} {data : ByteArray} {pos : Nat}

theorem run_decodeAt_of_le (state : DecodeState) (h : pos ≤ state.cursor.data.size) :
    (layout.decodeAt format pos).run state =
      (layout.decodeTraced format).run { state with cursor := ⟨state.cursor.data, pos, h⟩ } := by
  rw [decodeAt, EStateM.run_bind, Decode.run_seek_of_le h]

theorem run_decodeAt_of_lt (state : DecodeState) (h : state.cursor.data.size < pos) :
    (layout.decodeAt format pos).run state = .error .outOfBounds state := by
  rw [decodeAt, EStateM.run_bind, Decode.run_seek_of_lt h]

/-- **What is found at a position is what is found there afresh**, wherever the cursor is and
whatever is in the scratch buffer; and the data stays the same for the positions to come. -/
theorem attempt_decodeAt (state : DecodeState) (pos : Nat) :
    ((layout.decodeAt format pos).attempt state).1 =
        layout.decodeFresh format state.cursor.data pos ∧
      ((layout.decodeAt format pos).attempt state).2.cursor.data = state.cursor.data := by
  rcases Nat.lt_or_ge state.cursor.data.size pos with hbeyond | hle
  · rw [decodeFresh, Decode.attempt, Decode.attempt, run_decodeAt_of_lt state hbeyond,
      run_decodeAt_of_lt (.start state.cursor.data) hbeyond]
    exact ⟨rfl, rfl⟩
  · have hkeeps := layout.steady_decodeTraced format
      { state with cursor := ⟨state.cursor.data, pos, hle⟩ }
    constructor
    · rw [decodeFresh, Decode.attempt, Decode.attempt, run_decodeAt_of_le state hle,
        run_decodeAt_of_le (.start state.cursor.data) hle]
      exact streams_decodeTraced.fst_attempt_congr rfl
    · rw [Decode.attempt, run_decodeAt_of_le state hle]
      generalize (layout.decodeTraced format).run _ = result at hkeeps
      cases hkeeps with
      | ok h => exact h
      | error h =>
        have hdata := congrArg Cursor.data h
        exact hdata

/-- Behind the end of the data there is nothing to find. -/
theorem decodeFresh_of_lt (h : data.size < pos) :
    layout.decodeFresh format data pos = .error .outOfBounds := by
  rw [decodeFresh, Decode.attempt, run_decodeAt_of_lt (.start data) h]

/-- In the data, nothing but bytes can be lacking. -/
theorem exists_truncated_of_decodeFresh (h : pos ≤ data.size) {fault : Fault}
    (hfault : layout.decodeFresh format data pos = .error fault) :
    ∃ needed available, fault = .truncated needed available := by
  obtain ⟨after, hrun⟩ := Decode.fst_attempt_eq_error.mp hfault
  rw [run_decodeAt_of_le (.start data) h] at hrun
  obtain ⟨_, stop, needed, -, -, -, rfl⟩ := streams_decodeTraced.exists_lacks hrun
  exact ⟨needed, stop.remaining, rfl⟩

/-- A constant is found in the data only. -/
theorem le_size_of_decodeFresh {constant : StringConst}
    (h : layout.decodeFresh format data pos = .ok constant) : pos ≤ data.size := by
  refine Nat.le_of_not_lt fun hlt => ?_
  rw [decodeFresh_of_lt hlt] at h
  cases h

/-- Reading at several positions is reading afresh at each. -/
theorem decodeEach_eq (positions : List Nat) (state : DecodeState) :
    (layout.decodeEach format positions state).1 =
      positions.map (layout.decodeFresh format state.cursor.data) := by
  induction positions generalizing state with
  | nil => rfl
  | cons pos positions ih =>
    obtain ⟨hvalue, hdata⟩ : _ = layout.decodeFresh format state.cursor.data pos ∧ _ :=
      attempt_decodeAt state pos
    rw [decodeEach_cons, ih, hdata, hvalue, List.map_cons]

theorem decodeAll_eq (positions : List Nat) :
    (layout.decodeAll format data positions).1 =
      positions.mapM (layout.decodeFresh format data) := by
  have heach : (layout.decodeEach format positions (.start data)).1 = _ :=
    decodeEach_eq positions (.start data)
  change (layout.decodeEach format positions (.start data)).1.mapM id = _
  rw [heach, List.mapM_map]
  rfl

end Layout

/-! ### Positions that are shared out -/

/-- What one worker has to do. -/
structure Worker (count : Nat) where
  /-- Which of the positions it reads at, by their places in the list, in this order. -/
  share : List (Fin count)
  /-- What is in its scratch buffer when it begins. -/
  scratch : ByteArray

/-- Several workers that have so much to do together. -/
structure Division (count : Nat) where
  /-- The workers. -/
  workers : List (Worker count)
  /-- Every place is in the share of one worker, and there once. -/
  shares_perm : (workers.flatMap Worker.share).Perm (List.finRange count)

namespace Layout

variable {layout : Layout} {format : ChunkFormat} {data : ByteArray} {positions : List Nat}

/-- Reads the records at these positions one after another, each with a cursor of its own, and all
through one scratch buffer. -/
def decodeShare (layout : Layout) (format : ChunkFormat) (data : ByteArray) :
    (positions : List Nat) → (scratch : ByteArray) → List (Except Fault StringConst)
  | [], _ => []
  | pos :: positions, scratch =>
    let (result, after) := (layout.decodeAt format pos).attempt ⟨.start data, scratch, #[]⟩
    result :: layout.decodeShare format data positions after.scratch

/-- The results of a worker, each with the place that it belongs to. -/
def workerResults (layout : Layout) (format : ChunkFormat) (data : ByteArray)
    (positions : List Nat) (worker : Worker positions.length) :
    List (Fin positions.length × Except Fault StringConst) :=
  worker.share.zip (layout.decodeShare format data (worker.share.map positions.get) worker.scratch)

/-- The results of all workers, put in the order of the positions. -/
def decodeDivided (layout : Layout) (format : ChunkFormat) (data : ByteArray)
    (positions : List Nat) (division : Division positions.length) :
    List (Except Fault StringConst) :=
  let results := division.workers.flatMap (layout.workerResults format data positions)
  (List.finRange positions.length).filterMap fun place => results.lookup place

/-- What a worker has found before is of no concern to what it finds. -/
theorem decodeShare_eq (positions : List Nat) (scratch : ByteArray) :
    layout.decodeShare format data positions scratch =
      positions.map (layout.decodeFresh format data) := by
  induction positions generalizing scratch with
  | nil => rfl
  | cons pos positions ih =>
    obtain ⟨hvalue, -⟩ : _ = layout.decodeFresh format data pos ∧ _ :=
      attempt_decodeAt ⟨.start data, scratch, #[]⟩ pos
    rw [List.map_cons, ← hvalue, ← ih]
    rfl

theorem workerResults_eq (worker : Worker positions.length) :
    layout.workerResults format data positions worker =
      worker.share.map fun place =>
        (place, layout.decodeFresh format data (positions.get place)) := by
  rw [workerResults, decodeShare_eq, List.map_map]
  exact List.map_prod_left_eq_zip.symm

/-- **However the positions are shared out, the results are those of reading afresh at each.** Every
place is in some share, and what is found there does not depend on whose share it is. -/
theorem decodeDivided_eq (division : Division positions.length) :
    layout.decodeDivided format data positions division =
      positions.map (layout.decodeFresh format data) := by
  have hresults : division.workers.flatMap (layout.workerResults format data positions) =
      (division.workers.flatMap Worker.share).map fun place =>
        (place, layout.decodeFresh format data (positions.get place)) := by
    rw [List.map_flatMap]
    exact List.flatMap_congr fun worker _ => workerResults_eq worker
  have hlookup : ∀ place ∈ List.finRange positions.length,
      (division.workers.flatMap (layout.workerResults format data positions)).lookup place =
        some (layout.decodeFresh format data (positions.get place)) := by
    intro place hplace
    rw [hresults]
    exact List.lookup_graph _ (division.shares_perm.mem_iff.mpr hplace)
  rw [decodeDivided, List.filterMap_congr hlookup, List.filterMap_eq_map']
  rw [← Function.comp_def, ← List.map_map, List.map_get_finRange]

end Layout

/-! ### Records in a row -/

namespace RecordReader

/-- The positions at which so many records begin, as the reader comes to them. -/
def starts (reader : RecordReader) : (count : Nat) → DecodeState → List Nat
  | 0, _ => []
  | count + 1, before =>
    match reader.read.run before with
    | .ok _ after => before.cursor.pos :: reader.starts count after
    | .error _ _ => [before.cursor.pos]

variable {reader : RecordReader} {before : DecodeState} {cursor : Cursor}

/-- Where records stand in a row, the reader comes to the beginning of each, and finds it there
again. -/
theorem exists_spots_of_passes {records : List (Record reader.format reader.layout)}
    (hpass : before.cursor.Passes (joinBytes (records.map Record.bytes)) cursor) :
    ∃ spots : List (Nat × StringConst),
      reader.starts records.length before = spots.map (·.1) ∧
      records.map Record.value = spots.map (·.2) ∧
      ∀ spot ∈ spots, reader.layout.Holds reader.format before.cursor.data spot.1 spot.2 := by
  induction records generalizing before with
  | nil => exact ⟨[], rfl, rfl, by simp⟩
  | cons record records ih =>
    obtain ⟨between, hfirst, hrest⟩ := hpass.split
    obtain ⟨scratch, hread⟩ := yields_read_iff.mpr ⟨record, rfl, hfirst, rfl⟩
    obtain ⟨spots, hstarts, hvalues, hholds⟩ :
        ∃ spots : List (Nat × StringConst),
          reader.starts records.length ⟨between, scratch, before.log ++ record.lines⟩ = _ ∧ _ :=
      ih hrest
    refine ⟨(before.cursor.pos, record.value) :: spots, ?_, ?_, ?_⟩
    · rw [List.length_cons, starts, hread]
      exact congrArg _ hstarts
    · rw [List.map_cons, List.map_cons, hvalues]
    · refine List.forall_mem_cons.mpr ⟨?_, fun spot hspot => ?_⟩
      · exact ⟨before.cursor.pos_le, record, between, rfl, hfirst⟩
      · have hholds := hholds spot hspot
        rwa [hfirst.data_eq] at hholds

/-- Records that are read in a row are found again at the positions where they begin. -/
theorem decodeAll_starts {count : Nat} {constants : Array StringConst} {after : DecodeState}
    (h : (reader.readN count).run before = .ok constants after) :
    (reader.starts count before).length = count ∧
      (reader.layout.decodeAll reader.format before.cursor.data
        (reader.starts count before)).1 = .ok constants.toList := by
  obtain ⟨records, rfl, rfl, hpass, -⟩ := yields_readN_iff.mp (Decode.yields_of_run h)
  obtain ⟨spots, hstarts, hvalues, hholds⟩ := exists_spots_of_passes hpass
  have hlength := congrArg List.length hvalues
  rw [List.length_map, List.length_map] at hlength
  refine ⟨by rw [hstarts, List.length_map, hlength], ?_⟩
  rw [hstarts, hvalues]
  exact Layout.decodeAll_of_holds hholds

end RecordReader

/-! ### What it all comes to -/

namespace Layout

/-- **Reading by many workers, by one, and afresh at every position is the same.** However the
positions are shared out and whatever is in the scratch buffers, the results in the order of
the positions are those of reading afresh. If there is a record at every position, all of them
are found, in this order; else it is told what is wrong at the first position without one, which
is outside of the data or has too few bytes behind it. Records that are read in a row are found
again at the positions where they begin. -/
theorem decodeAll_divided (layout : Layout) (format : ChunkFormat) (data : ByteArray)
    (positions : List Nat) :
    let fresh := layout.decodeFresh format data
    let all := (layout.decodeAll format data positions).1
    -- many workers, and one
    (∀ division : Division positions.length,
      layout.decodeDivided format data positions division = positions.map fresh ∧
      (layout.decodeDivided format data positions division).mapM id = all) ∧
    (∀ state : DecodeState, state.cursor.data = data →
      (layout.decodeEach format positions state).1 = positions.map fresh) ∧
    -- what is told about all positions
    ((∃ constants, all = .ok constants) ↔
      ∀ pos ∈ positions, pos ≤ data.size ∧ ∃ constant, fresh pos = .ok constant) ∧
    (∀ constants, all = .ok constants ↔ positions.map fresh = constants.map .ok) ∧
    (∀ fault, all = .error fault ↔ ∃ earlier pos later, positions = earlier ++ pos :: later ∧
      (∀ pos' ∈ earlier, ∃ constant, fresh pos' = .ok constant) ∧ fresh pos = .error fault) ∧
    -- what is wrong at a position
    (∀ pos, data.size < pos → fresh pos = .error .outOfBounds) ∧
    (∀ pos ≤ data.size, ∀ fault, fresh pos = .error fault →
      ∃ needed available, fault = .truncated needed available) ∧
    -- records in a row
    ∀ before after count constants, before.cursor.data = data →
      (RecordReader.readN ⟨layout, format⟩ count).run before = .ok constants after →
      let starts := RecordReader.starts ⟨layout, format⟩ count before
      starts.length = count ∧
        (layout.decodeAll format data starts).1 = .ok constants.toList := by
  intro fresh all
  have hall : all = positions.mapM fresh := decodeAll_eq positions
  refine ⟨fun division => ?_, ?_, ?_, ?_, ?_, ?_, ?_, ?_⟩
  · have hdivided : layout.decodeDivided format data positions division = positions.map fresh :=
      decodeDivided_eq division
    refine ⟨hdivided, ?_⟩
    rw [hdivided, hall, List.mapM_map]
    rfl
  · rintro state rfl
    exact decodeEach_eq positions state
  · rw [hall]
    constructor
    · rintro ⟨constants, hok⟩ pos hpos
      have hmem : fresh pos ∈ constants.map .ok :=
        mapM_eq_ok_iff.mp hok ▸ List.mem_map_of_mem hpos
      obtain ⟨constant, -, hconstant⟩ := List.mem_map.mp hmem
      exact ⟨le_size_of_decodeFresh hconstant.symm, constant, hconstant.symm⟩
    · intro hfound
      cases hmapM : positions.mapM fresh with
      | ok constants => exact ⟨constants, rfl⟩
      | error fault =>
        obtain ⟨earlier, pos, later, rfl, -, hfault⟩ := mapM_eq_error_iff.mp hmapM
        obtain ⟨-, constant, hconstant⟩ := hfound pos (by simp)
        rw [hfault] at hconstant
        cases hconstant
  · intro constants
    rw [hall, mapM_eq_ok_iff]
  · intro fault
    rw [hall, mapM_eq_error_iff]
  · exact fun pos h => decodeFresh_of_lt h
  · exact fun pos h fault hfault => exists_truncated_of_decodeFresh h hfault
  · rintro before after count constants rfl h
    exact RecordReader.decodeAll_starts h

/-- Two workers, one of which begins with a byte in its scratch buffer, and a position outside of
the data; then two records in a row. -/
theorem decodeAll_divided_compact :
    let format : ChunkFormat := ⟨0x53, ⟨4, by decide, by decide⟩, .little, true⟩
    let data := [0, 2, 0x61, 0].toByteArray
    let positions := [0, 9, 1, 3]
    let division : Division positions.length :=
      ⟨[⟨[3, 1], [7].toByteArray⟩, ⟨[2, 0], .empty⟩], by decide⟩
    let reader : RecordReader := ⟨.compact, format⟩
    let constants := #[.null, .ofBytes [0x61, 1].toByteArray]
    (compact.decodeDivided format data positions division).mapM id = .error .outOfBounds ∧
      (∃ after, (reader.readN 2).run (.start data) = .ok constants after) ∧
      (compact.decodeAll format data (reader.starts 2 (.start data))).1 =
        .ok constants.toList := by
  intro format data positions division reader constants
  have hall : (compact.decodeAll format data positions).1 = .error .outOfBounds := by
    decide +kernel
  have hread : ∃ after, (reader.readN 2).run (.start data) = .ok constants after :=
    Decode.fst_attempt_eq_ok.mp (by decide +kernel)
  have hdivided := (decodeAll_divided compact format data positions).1 division
  obtain ⟨after, h⟩ := hread
  have hrow := (decodeAll_divided compact format data positions).2.2.2.2.2.2.2
    (.start data) after 2 constants rfl h
  exact ⟨hdivided.2.trans hall, ⟨after, h⟩, hrow.2⟩

end Layout

end ChunkStrings
