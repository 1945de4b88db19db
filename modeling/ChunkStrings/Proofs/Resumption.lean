import ChunkStrings.Proofs.PrintedProducts
import ChunkStrings.Proofs.Spelling
import ChunkStrings.Proofs.Tracing
import Mathlib.Algebra.Ring.Nat

/-!
# Listings that are taken up again

What `decode` prints can be continued: the offset of every entry, typed in as it is printed, is
where the same program lists that entry and those behind it. The records of a listing therefore
stand one behind another in the file.

`Lists` is the relation behind this. It says which entries list the records between two cursors,
without mention of the table that they are gathered in or of the scratch buffer, and without
tracing; so it can be cut in two at any place (`lists_append_iff`), and the second half is a
listing in its own right. The loop of the program finds such a listing or stops where it ends
(`readEntries_of_lists`, `exists_lists_of_readEntries`).

What is left is that the program comes to that loop with the right cursor: the offset of an entry
is the position of a cursor in the file, and reads back as this position
(`CommandLine.readNumber_offsetText`).
-/

namespace ChunkStrings.CommandLine

/-! ### Listings -/

/-- **The entries that list the records in a row** between two cursors. -/
inductive Lists (reader : RecordReader) : Cursor → List RecordEntry → Cursor → Prop where
  /-- Nothing is listed between a cursor and itself. -/
  | nil (cursor : Cursor) : Lists reader cursor [] cursor
  /-- A record is listed, and then those behind it. -/
  | cons {cursor middle after : Cursor} {constant : StringConst} {entries : List RecordEntry}
      (hread : reader.read.outcome ⟨cursor, .empty, #[]⟩ = (.ok constant, middle))
      (hrest : Lists reader middle entries after) :
      Lists reader cursor (.ofRecord cursor.pos (middle.pos - cursor.pos) constant :: entries)
        after

variable {reader : RecordReader} {cursor middle after : Cursor} {constant : StringConst}
  {front rest entries : List RecordEntry}

/-- **Two listings in a row are one, and one is two at every place in it.** -/
theorem lists_append_iff : Lists reader cursor (front ++ rest) after ↔
    ∃ middle, Lists reader cursor front middle ∧ Lists reader middle rest after := by
  constructor
  · intro h
    induction front generalizing cursor with
    | nil => exact ⟨cursor, .nil cursor, h⟩
    | cons entry front ih =>
      cases h with
      | cons hread hrest =>
        obtain ⟨middle, hfront, hrest⟩ := ih hrest
        exact ⟨middle, .cons hread hfront, hrest⟩
  · rintro ⟨middle, hfront, hrest⟩
    induction hfront with
    | nil cursor => exact hrest
    | cons hread _ ih => exact .cons hread (ih hrest)

/-- A reader that reads alike lists alike. -/
theorem Lists.of_alike {reader' : RecordReader} (h : Lists reader cursor entries after)
    (halike : Decode.Alike reader.read reader'.read) : Lists reader' cursor entries after := by
  induction h with
  | nil cursor => exact .nil cursor
  | cons hread _ ih =>
    rw [halike _ ⟨_, .empty, #[]⟩ rfl] at hread
    exact .cons hread ih

/-! ### Where the entries stand -/

/-- A record that is read takes up bytes of the same data. -/
theorem moves_of_read (hread : reader.read.outcome ⟨cursor, .empty, #[]⟩ = (.ok constant, middle)) :
    middle.data = cursor.data ∧ cursor.pos < middle.pos := by
  obtain ⟨between, hrun, rfl⟩ := Decode.outcome_eq_ok.mp hread
  obtain ⟨record, -, hpass, -⟩ := RecordReader.yields_read_iff.mp (Decode.yields_of_run hrun)
  refine ⟨hpass.data_eq, ?_⟩
  rw [hpass.pos_eq]
  exact Nat.lt_add_of_pos_right record.size_bytes_pos

theorem Lists.data_eq (h : Lists reader cursor entries after) : after.data = cursor.data := by
  induction h with
  | nil cursor => rfl
  | cons hread _ ih => exact ih.trans (moves_of_read hread).1

/-- Every entry takes up a byte at least. -/
theorem Lists.length_le (h : Lists reader cursor entries after) :
    cursor.pos + entries.length ≤ after.pos := by
  induction h with
  | nil cursor => exact Nat.le_refl _
  | cons hread _ ih =>
    have hmoves := (moves_of_read hread).2
    rw [List.length_cons]
    omega

/-- The first entry of a listing stands where the listing begins. -/
theorem Lists.offset_head {entry : RecordEntry} (h : Lists reader cursor (entry :: rest) after) :
    entry.offset = RecordEntry.offsetText cursor.pos := by
  cases h with
  | cons hread hrest => rfl

/-- **A listing goes on from every entry of it**, at the offset that is printed there. -/
theorem Lists.drop (h : Lists reader cursor entries after) {j : Nat} (hj : j < entries.length) :
    ∃ middle, Lists reader middle (entries.drop j) after ∧ middle.data = cursor.data ∧
      entries[j].offset = RecordEntry.offsetText middle.pos := by
  rw [← List.take_append_drop j entries] at h
  obtain ⟨middle, hfront, hrest⟩ := lists_append_iff.mp h
  refine ⟨middle, hrest, hfront.data_eq, ?_⟩
  rw [List.drop_eq_getElem_cons hj] at hrest
  exact hrest.offset_head

/-- **The records of a listing stand one behind another**, from its beginning on, and the last one
ends in the data. -/
theorem Lists.exists_places (h : Lists reader cursor entries after) :
    ∃ place : Nat → Nat, place 0 = cursor.pos ∧
      (∀ j (hj : j < entries.length), entries[j].offset = RecordEntry.offsetText (place j) ∧
        place (j + 1) = place j + entries[j].size) ∧
      place entries.length ≤ cursor.data.size := by
  induction h with
  | nil cursor => exact ⟨fun _ => cursor.pos, rfl, fun j hj => absurd hj j.not_lt_zero, cursor.pos_le⟩
  | @cons cursor middle after constant entries hread _ ih =>
    obtain ⟨hdata, hmoves⟩ := moves_of_read hread
    obtain ⟨place, hzero, hstep, hlast⟩ := ih
    -- the places of the entries behind it come one later
    refine ⟨fun j => Nat.casesOn j cursor.pos place, rfl, ?_, hdata ▸ hlast⟩
    intro j hj
    cases j with
    | zero => exact ⟨rfl, hzero.trans (Nat.add_sub_cancel' (Nat.le_of_lt hmoves)).symm⟩
    | succ j => exact hstep j (Nat.lt_of_succ_lt_succ hj)

/-! ### The loop that lists -/

/-- **Along a listing, the loop gathers its entries** and goes on behind them. -/
theorem readEntries_of_lists (h : Lists reader cursor entries after) (count : Nat)
    (earlier : Array RecordEntry) {state : DecodeState} (hcursor : state.cursor = cursor) :
    ∃ state', state'.cursor = after ∧
      readEntries reader (entries.length + count) earlier state =
        readEntries reader count (earlier ++ entries) state' := by
  induction h generalizing earlier state with
  | nil cursor => exact ⟨state, hcursor, by simp⟩
  | @cons cursor middle after constant entries hread _ ih =>
    subst hcursor
    rw [RecordReader.outcome_read] at hread
    obtain ⟨between, hrun, rfl⟩ := Decode.outcome_eq_ok.mp hread
    obtain ⟨state', hcursor', hloop⟩ := ih (earlier.push
      (.ofRecord state.cursor.pos (between.cursor.pos - state.cursor.pos) constant)) rfl
    refine ⟨state', hcursor', ?_⟩
    rw [List.length_cons, Nat.add_right_comm, readEntries, hrun]
    refine hloop.trans (congrArg (readEntries reader count · state') ?_)
    exact Array.ext' (by simp)

/-- **A loop that comes to its end has gathered a listing.** -/
theorem exists_lists_of_readEntries {count : Nat} {earlier gathered : Array RecordEntry}
    {state : DecodeState} (h : (readEntries reader count earlier state).1 = .ok gathered) :
    ∃ entries after, Lists reader state.cursor entries after ∧ entries.length = count ∧
      gathered = earlier ++ entries := by
  induction count generalizing earlier state with
  | zero =>
    cases h
    exact ⟨[], state.cursor, .nil _, rfl, by simp⟩
  | succ count ih =>
    rw [readEntries] at h
    rcases hrun : reader.read.run state with ⟨constant, between⟩ | ⟨fault, between⟩
    · rw [hrun] at h
      obtain ⟨entries, after, hlists, hlength, rfl⟩ := ih h
      have hread : reader.read.outcome ⟨state.cursor, .empty, #[]⟩ =
          (.ok constant, between.cursor) := by
        rw [RecordReader.outcome_read, Decode.outcome_of_ok hrun]
      refine ⟨_, after, .cons hread hlists, congrArg (· + 1) hlength, ?_⟩
      exact Array.ext' (by simp)
    · rw [hrun] at h
      cases h

/-- A listing that is gathered in a table. -/
theorem listRecords_of_lists (h : Lists reader cursor entries after)
    (hfits : entrySize * entries.length ≤ memoryLimit) :
    (listRecords reader cursor entries.length).1 = .ok entries.toArray := by
  obtain ⟨state, -, hloop⟩ : ∃ state : DecodeState, state.cursor = after ∧
      readEntries reader entries.length #[] ⟨cursor, .empty, #[]⟩ = _ :=
    readEntries_of_lists h 0 #[] rfl
  rw [listRecords, if_pos hfits, hloop, readEntries]
  simp

/-- A table that is full holds a listing. -/
theorem exists_lists_of_listRecords {count : Nat} {gathered : Array RecordEntry}
    (h : (listRecords reader cursor count).1 = .ok gathered) :
    ∃ entries after, Lists reader cursor entries after ∧ entries.length = count ∧
      entrySize * count ≤ memoryLimit ∧ gathered = entries.toArray := by
  rw [listRecords] at h
  split at h
  · rename_i hfits
    obtain ⟨entries, after, hlists, hlength, rfl⟩ := exists_lists_of_readEntries h
    exact ⟨entries, after, hlists, hlength, hfits, by simp⟩
  · cases h

/-- **Where a listing ends and no record can be read, the loop stops** and tells the position; but
a table that memory cannot hold is refused before. -/
theorem listRecords_of_stuck (h : Lists reader cursor entries after) {count : Nat}
    (hlt : entries.length < count) {fault : Fault}
    (hstuck : (reader.read.outcome ⟨after, .empty, #[]⟩).1 = .error fault) :
    (listRecords reader cursor count).1 =
      .error (if entrySize * count ≤ memoryLimit then .record after.pos fault
        else .tableTooLarge count) := by
  obtain ⟨more, rfl⟩ := Nat.exists_eq_add_of_lt hlt
  obtain ⟨state, hcursor, hloop⟩ : ∃ state : DecodeState, state.cursor = after ∧
      readEntries reader (entries.length + (more + 1)) #[] ⟨cursor, .empty, #[]⟩ = _ :=
    readEntries_of_lists h (more + 1) #[] rfl
  subst hcursor
  rw [RecordReader.outcome_read] at hstuck
  obtain ⟨between, hrun⟩ := Decode.fst_attempt_eq_error.mp hstuck
  rw [listRecords, Nat.add_assoc, hloop, readEntries, hrun]
  split <;> rfl

/-- Records that are read in a row can be listed. -/
theorem exists_lists_of_readOnto {count : Nat} {earlier constants : Array StringConst}
    {before last : DecodeState}
    (h : (reader.readOnto count earlier).run before = .ok constants last) :
    ∃ entries, Lists reader before.cursor entries last.cursor ∧ entries.length = count := by
  induction count generalizing earlier before with
  | zero =>
    cases h
    exact ⟨[], .nil _, rfl⟩
  | succ count ih =>
    obtain ⟨constant, between, hrun, hrest⟩ := Decode.run_bind_eq_ok.mp h
    obtain ⟨entries, hlists, hlength⟩ := ih hrest
    have hread : reader.read.outcome ⟨before.cursor, .empty, #[]⟩ =
        (.ok constant, between.cursor) := by
      rw [RecordReader.outcome_read, Decode.outcome_of_ok hrun]
    exact ⟨_, .cons hread hlists, congrArg (· + 1) hlength⟩

theorem exists_lists_of_readN {count : Nat} {constants : Array StringConst}
    (h : (reader.readN count).outcome ⟨cursor, .empty, #[]⟩ = (.ok constants, after)) :
    ∃ entries, Lists reader cursor entries after ∧ entries.length = count := by
  obtain ⟨last, hrun, rfl⟩ := Decode.outcome_eq_ok.mp h
  exact exists_lists_of_readOnto (Decode.run_transaction_eq_ok.mp hrun)

/-! ### The command -/

variable {options : FormatOptions} {offset : Option String} {path : String} {count : Nat}
  {files : String → DiskEntry} {bytes : ByteArray} {start : Nat} {format : ChunkFormat}
  {layout : Layout}

/-- Whether strings are logged is no part of what the options say about the format. -/
theorem resolve_eq (options : FormatOptions) (traced : Bool) :
    options.resolve traced = (options.resolve false).map (·.withTracing traced) := by
  change _ = (fun format : ChunkFormat => format.withTracing traced) <$> options.resolve false
  simp only [FormatOptions.resolve, map_bind, map_pure]
  rfl

/-- A reader whose format is traced reads as the one whose format is not. -/
theorem alike_withTracing (layout : Layout) (format : ChunkFormat) (traced : Bool) :
    Decode.Alike (RecordReader.read ⟨layout, format⟩)
      (RecordReader.read ⟨layout, format.withTracing traced⟩) :=
  Layout.alike_decodeTraced traced

/-- The first record is where the offset says, or else at the beginning. -/
theorem locate_eq (path : String) (entry : DiskEntry) (offset : Option String) :
    locate path entry offset = (do
      let source ← (Source.load entry).mapError (.load path)
      let start ← offset.elim (.ok 0) readNumber
      (source.cursorAt start).mapError (.position start)) := by
  cases offset <;> rfl

/-- The first record is looked for in a file that is not empty, at an offset that is a position of
it. -/
theorem locate_eq_ok {entry : DiskEntry} : locate path entry offset = .ok cursor ↔
    ∃ bytes start h, entry = .file bytes ∧ 0 < bytes.size ∧
      offset.elim (.ok 0) readNumber = .ok start ∧ cursor = ⟨bytes, start, h⟩ := by
  rw [locate_eq]
  constructor
  · intro h
    obtain ⟨source, hsource, h⟩ := bind_eq_ok.mp h
    obtain ⟨start, hstart, h⟩ := bind_eq_ok.mp h
    obtain ⟨hle, rfl⟩ := Source.cursorAt_eq_ok.mp (mapError_eq_ok.mp h)
    have hentry := Source.load_eq_ok.mp (mapError_eq_ok.mp hsource)
    exact ⟨source.data, start, hle, hentry, source.nonempty, hstart, rfl⟩
  · rintro ⟨bytes, start, h, rfl, hnonempty, hstart, rfl⟩
    refine bind_eq_ok.mpr ⟨⟨bytes, hnonempty⟩, mapError_eq_ok.mpr (Source.load_eq_ok.mpr rfl), ?_⟩
    exact bind_eq_ok.mpr ⟨start, hstart, mapError_eq_ok.mpr (Source.cursorAt_eq_ok.mpr ⟨h, rfl⟩)⟩

/-- **What a decoding comes to:** the format and the first offset are settled one after the other,
and then the records are listed. -/
theorem result_perform_decode (traced : Bool) :
    ((Command.decode path options offset count).perform traced files).result = (do
      let format ← options.resolve false
      let layout ← (Layout.ofFormat format).mapError .generation
      let cursor ← locate path (files path) offset
      let entries ← (listRecords ⟨layout, format.withTracing traced⟩ cursor count).1
      .ok (.records layout entries)) := by
  simp only [Command.perform, Command.options, resolve_eq options traced]
  cases options.resolve false with
  | error failure => rfl
  | ok format =>
    have hlayout : Layout.ofFormat (format.withTracing traced) = Layout.ofFormat format := rfl
    simp only [Except.map, RecordReader.ofFormat, hlayout, ok_bind]
    cases Layout.ofFormat format with
    | error fault => rfl
    | ok layout =>
      simp only [Except.mapError, decodeFile, ok_bind]
      cases locate path (files path) offset with
      | error failure => rfl
      | ok cursor =>
        simp only [ok_bind]
        cases (listRecords ⟨layout, format.withTracing traced⟩ cursor count).1 <;> rfl

/-- A decoding that has settled the format and the first offset. -/
theorem result_of_settled (traced : Bool) (hformat : options.resolve false = .ok format)
    (hlayout : Layout.ofFormat format = .ok layout)
    (hcursor : locate path (files path) offset = .ok cursor) :
    ((Command.decode path options offset count).perform traced files).result =
      (listRecords ⟨layout, format.withTracing traced⟩ cursor count).1.map (.records layout) := by
  rw [result_perform_decode, hformat, ok_bind, hlayout, hcursor]
  rfl

/-- **Where a row of records can be listed, the command lists it**, traced or not. -/
theorem result_of_lists (traced : Bool) (hformat : options.resolve false = .ok format)
    (hlayout : Layout.ofFormat format = .ok layout)
    (hcursor : locate path (files path) offset = .ok cursor)
    (hlists : Lists ⟨layout, format⟩ cursor entries after)
    (hfits : entrySize * entries.length ≤ memoryLimit) :
    ((Command.decode path options offset entries.length).perform traced files).result =
      .ok (.records layout entries.toArray) := by
  have htraced := hlists.of_alike (alike_withTracing layout format traced)
  rw [result_of_settled traced hformat hlayout hcursor, listRecords_of_lists htraced hfits]
  rfl

/-- **What the command lists is a row of records.** -/
theorem exists_lists_of_result {traced : Bool} {product : Product}
    (h : ((Command.decode path options offset count).perform traced files).result =
      .ok product) :
    ∃ format layout cursor entries after, options.resolve false = .ok format ∧
      Layout.ofFormat format = .ok layout ∧ locate path (files path) offset = .ok cursor ∧
      Lists ⟨layout, format⟩ cursor entries after ∧ entries.length = count ∧
      entrySize * count ≤ memoryLimit ∧ product = .records layout entries.toArray := by
  rw [result_perform_decode] at h
  obtain ⟨format, hformat, h⟩ := bind_eq_ok.mp h
  obtain ⟨layout, hlayout, h⟩ := bind_eq_ok.mp h
  obtain ⟨cursor, hcursor, h⟩ := bind_eq_ok.mp h
  obtain ⟨gathered, hgathered, h⟩ := bind_eq_ok.mp h
  obtain ⟨entries, after, hlists, hlength, hfits, rfl⟩ := exists_lists_of_listRecords hgathered
  cases h
  -- the listing is that of the reader that is not traced, too
  have halike := alike_withTracing layout (format.withTracing traced) format.traced
  exact ⟨format, layout, cursor, entries, after, hformat, mapError_eq_ok.mp hlayout, hcursor,
    hlists.of_alike halike, hlength, hfits, rfl⟩

/-- **Where a record cannot be read, the command fails** and tells its position. -/
theorem result_of_stuck (traced : Bool) (hformat : options.resolve false = .ok format)
    (hlayout : Layout.ofFormat format = .ok layout)
    (hcursor : locate path (files path) offset = .ok cursor)
    (hlists : Lists ⟨layout, format⟩ cursor entries after) (hlt : entries.length < count)
    {fault : Fault}
    (hstuck : (RecordReader.read ⟨layout, format⟩ |>.outcome ⟨after, .empty, #[]⟩).1 =
      .error fault) :
    ((Command.decode path options offset count).perform traced files).result =
      .error (if entrySize * count ≤ memoryLimit then .record after.pos fault
        else .tableTooLarge count) := by
  have halike := alike_withTracing layout format traced
  rw [halike _ ⟨after, .empty, #[]⟩ rfl] at hstuck
  rw [result_of_settled traced hformat hlayout hcursor,
    listRecords_of_stuck (hlists.of_alike halike) hlt hstuck]
  rfl

/-! ### What is printed about a record that cannot be read -/

/-- Whether a character is inside of a line. -/
def Failure.isInLine (c : Char) : Bool := c != '\n' && c != '\r'

/-- A text without an end of line in it is a line. -/
theorem Failure.textLines_eq_singleton {text : String} (h : text.toList.all isInLine = true) :
    textLines text = [text] := by
  have hin : ∀ c ∈ text.toList, isInLine c = true := List.all_eq_true.mp h
  have hfeed : '\n' ∉ text.toList := fun hmem => Bool.false_ne_true (hin _ hmem)
  have hreturn : text.toList.getLast? ≠ some '\r' := fun hlast =>
    Bool.false_ne_true (hin _ (List.mem_of_getLast? hlast))
  rw [textLines, List.splitOn_eq_singleton hfeed, List.map_singleton, Function.comp_apply,
    withoutReturn, if_neg hreturn, String.ofList_toList]

/-- The lines about a record that cannot be read, because bytes are lacking. -/
theorem Failure.lines_record (offset needed available : Nat) :
    (record offset (.truncated needed available)).lines =
      ["Error: failed to decode string record at 0x" ++ String.ofList (Hex.ofNat offset), "",
        "Caused by:", "    " ++ (Fault.truncated needed available).message] := by
  have hdigits : ∀ d < 16, isInLine (Nat.digitChar d) = true := by decide
  have hfront : "Error: " ++ "failed to decode string record at 0x" =
      "Error: failed to decode string record at 0x" := by decide
  have hline : textLines ("Error: failed to decode string record at 0x" ++
      String.ofList (Hex.ofNat offset)) =
        ["Error: failed to decode string record at 0x" ++ String.ofList (Hex.ofNat offset)] := by
    refine textLines_eq_singleton ?_
    rw [String.toList_append, List.all_append, Bool.and_eq_true]
    refine ⟨rfl, ?_⟩
    rw [String.toList_ofList, List.all_eq_true]
    intro c hc
    obtain ⟨d, hd, rfl⟩ := Hex.exists_of_mem_ofNat hc
    exact hdigits d hd
  change textLines ("Error: " ++
    ("failed to decode string record at 0x" ++ String.ofList (Hex.ofNat offset))) ++ _ = _
  rw [← String.append_assoc, hfront, hline]
  rfl

/-! ### The program -/

/-- Unless it was asked for, and not as JSON, nothing is logged. -/
theorem logLines_eq_nil {settings : Settings} (h : settings.verbose = false ∨ settings.json = true)
    (log : List String) : logLines settings log = [] := by
  rcases h with h | h <;> simp [logLines, h]

/-- What the user sees of a command is settled by what the command comes to. -/
theorem run_eq_outcome {arguments : List String} {settings : Settings} {command : Command}
    (h : Request.ofArguments arguments = .ok (.run settings command)) :
    run arguments files = outcome settings (command.perform settings.verbose files) := by
  rw [run, h]
  rfl

/-- **The command line asks for a listing as JSON.** -/
def AsksForJson (arguments : List String) (path : String) (options : FormatOptions)
    (offset : Option String) (count : Nat) : Prop :=
  ∃ settings : Settings, settings.json = true ∧
    Request.ofArguments arguments = .ok (.run settings (.decode path options offset count))

variable {arguments : List String}

/-- What the user sees of a listing as JSON is settled by what the command comes to. -/
theorem AsksForJson.exists_run_eq (h : AsksForJson arguments path options offset count)
    (files : String → DiskEntry) : ∃ traced, run arguments files =
      match ((Command.decode path options offset count).perform traced files).result with
      | .ok product => ⟨0, product.toJson.lines, []⟩
      | .error failure => ⟨failure.exit, [], failure.lines⟩ := by
  obtain ⟨settings, hjson, hread⟩ := h
  refine ⟨settings.verbose, ?_⟩
  have hlog := logLines_eq_nil (.inr hjson)
  rw [run_eq_outcome hread, outcome]
  cases ((Command.decode path options offset count).perform settings.verbose files).result with
  | ok product => simp only [hlog, hjson, if_true]
  | error failure => simp only [hlog, List.nil_append]

/-- **Where a row of records can be listed, it is printed.** -/
theorem AsksForJson.run_of_lists (hasks : AsksForJson arguments path options offset count)
    (hformat : options.resolve false = .ok format) (hlayout : Layout.ofFormat format = .ok layout)
    (hcursor : locate path (files path) offset = .ok cursor)
    (hlists : Lists ⟨layout, format⟩ cursor entries after) (hlength : entries.length = count)
    (hfits : entrySize * count ≤ memoryLimit) :
    run arguments files = ⟨0, (Product.records layout entries.toArray).toJson.lines, []⟩ := by
  subst hlength
  obtain ⟨traced, hrun⟩ := hasks.exists_run_eq files
  rw [hrun, result_of_lists traced hformat hlayout hcursor hlists hfits]

/-- **Where a record cannot be read, its position is printed.** -/
theorem AsksForJson.run_of_stuck
    (hasks : AsksForJson arguments path options offset (entries.length + 1))
    (hformat : options.resolve false = .ok format) (hlayout : Layout.ofFormat format = .ok layout)
    (hcursor : locate path (files path) offset = .ok cursor)
    (hlists : Lists ⟨layout, format⟩ cursor entries after) {fault : Fault}
    (hstuck : (RecordReader.read ⟨layout, format⟩ |>.outcome ⟨after, .empty, #[]⟩).1 =
      .error fault) :
    run arguments files =
      if entrySize * (entries.length + 1) ≤ memoryLimit then
        ⟨1, [], ["Error: failed to decode string record at 0x" ++
          String.ofList (Hex.ofNat after.pos), "", "Caused by:", "    " ++ fault.message]⟩
      else ⟨101, [], Failure.breakdownLines "capacity overflow"⟩ := by
  obtain ⟨traced, hrun⟩ := hasks.exists_run_eq files
  rw [hrun, result_of_stuck traced hformat hlayout hcursor hlists (Nat.lt_succ_self _) hstuck]
  obtain ⟨last, hread⟩ := Decode.fst_attempt_eq_error.mp hstuck
  obtain ⟨_, stop, needed, -, -, -, rfl⟩ := Layout.streams_decodeTraced.exists_lacks hread
  by_cases hfits : entrySize * (entries.length + 1) ≤ memoryLimit
  · rw [if_pos hfits, if_pos hfits]
    simp only [Failure.lines_record, Failure.exit]
  · rw [if_neg hfits, if_neg hfits]
    rfl

/-- A file of less than 2 ^ 56 bytes has no room for more records than a table. -/
theorem Lists.fits (hlists : Lists reader cursor entries after) (h : cursor.data.size < 2 ^ 56) :
    entrySize * (entries.length + 1) ≤ memoryLimit := by
  have hlength := hlists.length_le
  have hafter := after.pos_le
  rw [hlists.data_eq] at hafter
  simp only [entrySize, memoryLimit]
  omega

/-- **The offset of an entry leads to the listing from there on.** -/
theorem Lists.exists_locate {entry : DiskEntry} (hlists : Lists reader cursor entries after)
    (hcursor : locate path entry offset = .ok cursor) (hsize : cursor.data.size < Numeral.limit)
    {j : Nat} (hj : j < entries.length) :
    ∃ middle, locate path entry (some entries[j].offset) = .ok middle ∧
      Lists reader middle (entries.drop j) after := by
  obtain ⟨middle, hrest, hdata, hoffset⟩ := hlists.drop hj
  obtain ⟨bytes, start, hstart, rfl, hnonempty, -, rfl⟩ := locate_eq_ok.mp hcursor
  have hmiddle := middle.pos_le
  rw [hdata] at hmiddle
  have hnumber : readNumber entries[j].offset = .ok middle.pos :=
    hoffset ▸ readNumber_offsetText (Nat.lt_of_le_of_lt hmiddle hsize)
  exact ⟨middle, locate_eq_ok.mpr ⟨bytes, middle.pos, hmiddle, rfl, hnonempty, hnumber,
    Cursor.ext_pos hdata rfl⟩, hrest⟩

/-- **What is asked for can be asked for from another offset on**, for no more records. -/
theorem AsksForJson.resumed (hasks : AsksForJson arguments path options offset count)
    (offset' : String) {count' : Nat} (h : count' ≤ count) :
    AsksForJson (decodeArguments ⟨true, false⟩ path options (some offset') count') path options
      (some offset') count' := by
  obtain ⟨settings, -, hread⟩ := hasks
  have hcount := (written_of_ofArguments hread).2.1
  exact ⟨⟨true, false⟩, rfl,
    Request.ofArguments_decodeArguments hread _ _ (Nat.lt_of_le_of_lt h hcount)⟩

/-- **Listings can be taken up again, and fail where no record can be read.** A command line asks
for a listing as JSON, of a file with these bytes. If the program exits with 0, it has printed a
listing of as many records as were asked for: what is printed is read as the entries. The records
stand one behind another: the first at the offset that was asked for, each other one where the one
before it ends, and the last one ends in the file. At the offset of each entry, as it is printed,
every command line that asks for the entries from there on prints what is read as exactly these,
and there is such a command line. (The size of the file is below the limit of numerals: it is a
machine word.)

If the first records can be read but the next one cannot, the program exits with 1 and tells the
position of this one; but a table for more records than memory can hold is refused before the
first is read, which no file of less than 2 ^ 56 bytes can bring about. -/
theorem decode_resumes (hasks : AsksForJson arguments path options offset count)
    (hfile : files path = .file bytes) :
    let listing := ((Command.decode path options offset count).perform false files).result
    -- what is printed
    ((run arguments files).exit = 0 → ∃ layout entries, listing = .ok (.records layout entries)) ∧
    (∀ layout (entries : Array RecordEntry), listing = .ok (.records layout entries) →
      run arguments files = ⟨0, (Product.records layout entries).toJson.lines, []⟩ ∧
      Listing.read? (run arguments files).stdout = some ⟨layout.name, entries.toList⟩ ∧
      entries.size = count ∧
      -- where the records stand
      (∃ place : Nat → Nat, offset.elim (.ok 0) readNumber = .ok (place 0) ∧
        (∀ j (h : j < entries.size), entries[j].offset = RecordEntry.offsetText (place j) ∧
          place (j + 1) = place j + entries[j].size) ∧
        place count ≤ bytes.size) ∧
      -- from each of them on
      (bytes.size < Numeral.limit → ∀ j (h : j < entries.size),
        AsksForJson
          (decodeArguments ⟨true, false⟩ path options (some entries[j].offset) (count - j))
          path options (some entries[j].offset) (count - j) ∧
        ∀ arguments', AsksForJson arguments' path options (some entries[j].offset) (count - j) →
          run arguments' files =
            ⟨0, (Product.records layout (entries.drop j)).toJson.lines, []⟩ ∧
          Listing.read? (run arguments' files).stdout =
            some ⟨layout.name, entries.toList.drop j⟩)) ∧
    -- where a record cannot be read
    ∀ format layout start (h : start ≤ bytes.size) j constants middle fault,
      options.resolve false = .ok format → Layout.ofFormat format = .ok layout →
      0 < bytes.size → offset.elim (.ok 0) readNumber = .ok start → count = j + 1 →
      let reader : RecordReader := ⟨layout, format⟩
      (reader.readN j).outcome ⟨⟨bytes, start, h⟩, .empty, #[]⟩ = (.ok constants, middle) →
      (reader.read.outcome ⟨middle, .empty, #[]⟩).1 = .error fault →
      run arguments files =
        (if entrySize * count ≤ memoryLimit then
          ⟨1, [], ["Error: failed to decode string record at 0x" ++
            String.ofList (Hex.ofNat middle.pos), "", "Caused by:", "    " ++ fault.message]⟩
        else ⟨101, [], Failure.breakdownLines "capacity overflow"⟩) ∧
      (bytes.size < 2 ^ 56 → entrySize * count ≤ memoryLimit) := by
  intro listing
  obtain ⟨traced, hrun⟩ := hasks.exists_run_eq files
  refine ⟨fun hexit => ?_, fun layout entries hlisting => ?_, ?_⟩
  · rw [hrun] at hexit
    cases hresult : ((Command.decode path options offset count).perform traced files).result with
    | error failure =>
      rw [hresult] at hexit
      cases failure <;> cases hexit
    | ok product =>
      obtain ⟨format, layout, cursor, entries, after, hformat, hlayout, hcursor, hlists, rfl,
        hfits, -⟩ := exists_lists_of_result hresult
      exact ⟨layout, _, result_of_lists false hformat hlayout hcursor hlists hfits⟩
  · obtain ⟨format, layout', cursor, listed, after, hformat, hlayout, hcursor, hlists, rfl, hfits,
      hproduct⟩ := exists_lists_of_result hlisting
    cases hproduct
    obtain ⟨data, start, hstart, hdata, -, hoffset, hstands⟩ := locate_eq_ok.mp hcursor
    rw [hfile] at hdata
    cases hdata
    have hprints : run arguments files =
        ⟨0, (Product.records layout listed.toArray).toJson.lines, []⟩ := by
      rw [hrun, result_of_lists traced hformat hlayout hcursor hlists hfits]
    refine ⟨hprints, ?_, List.size_toArray, ?_, ?_⟩
    · rw [hprints]
      exact Listing.read?_lines layout listed.toArray
    · subst hstands
      obtain ⟨place, hzero, hstep, hlast⟩ := hlists.exists_places
      exact ⟨place, hzero ▸ hoffset, hstep, hlast⟩
    · intro hsize j hj
      refine ⟨hasks.resumed _ (Nat.sub_le _ _), fun arguments' hasks' => ?_⟩
      obtain ⟨middle, hcursor', hrest⟩ := hlists.exists_locate hcursor (hstands ▸ hsize) hj
      rw [show listed.toArray.drop j = (listed.drop j).toArray from List.toArray_drop.symm]
      have hprints' := hasks'.run_of_lists hformat hlayout hcursor' hrest List.length_drop
        (Nat.le_trans (Nat.mul_le_mul_left _ (Nat.sub_le _ _)) hfits)
      refine ⟨hprints', ?_⟩
      rw [hprints']
      exact Listing.read?_lines layout (listed.drop j).toArray
  · intro format layout start h j constants middle fault hformat hlayout hnonempty hoffset hcount
      reader hread hstuck
    have hcursor : locate path (files path) offset = .ok ⟨bytes, start, h⟩ :=
      locate_eq_ok.mpr ⟨bytes, start, h, hfile, hnonempty, hoffset, rfl⟩
    obtain ⟨entries, hlists, rfl⟩ := exists_lists_of_readN hread
    subst hcount
    exact ⟨hasks.run_of_stuck hformat hlayout hcursor hlists hstuck, hlists.fits⟩

/-- Three records behind a byte that is none of them, and the beginning of a fourth. The listing is
taken up at its second entry, in another way of writing; and a listing of four fails. -/
theorem decode_resumes_modern :
    let bytes := [0x1b, 2, 0x61, 0, 3, 0x62, 0x63, 9, 1].toByteArray
    let files : String → DiskEntry := fun _ => .file bytes
    let options : FormatOptions := ⟨"0x54", 1, false, none⟩
    let rest : List RecordEntry :=
      [⟨"0x000003", 1, "null", none, none⟩, ⟨"0x000004", 3, "string", none, some "bc"⟩]
    let entries : List RecordEntry := ⟨"0x000001", 2, "string", none, some "a"⟩ :: rest
    let line := ["decode", "-g0x54", "--size-t", "1", "--json", "chunk"]
    let answer := run (line ++ ["--offset=1", "-n", "3"]) files
    let resumed := run (line ++ ["--offset", "0x000003", "-n2"]) files
    AsksForJson (line ++ ["--offset=1", "-n", "3"]) "chunk" options (some "1") 3 ∧
      answer = ⟨0, (Product.records .modern entries.toArray).toJson.lines, []⟩ ∧
      Listing.read? answer.stdout = some ⟨"modern", entries⟩ ∧
      resumed = ⟨0, (Product.records .modern rest.toArray).toJson.lines, []⟩ ∧
      Listing.read? resumed.stdout = some ⟨"modern", rest⟩ ∧
      run (line ++ ["--offset=1", "-n", "4"]) files =
        ⟨1, [], ["Error: failed to decode string record at 0x7", "", "Caused by:",
          "    Truncated input - needed 8 bytes, 1 available"]⟩ := by
  intro bytes files options rest entries line answer resumed
  have hasks : ∀ arguments offset count, Request.ofArguments arguments =
      .ok (.run ⟨true, false⟩ (.decode "chunk" options offset count)) →
        AsksForJson arguments "chunk" options offset count :=
    fun arguments offset count h => ⟨_, rfl, h⟩
  have hthree := hasks (line ++ ["--offset=1", "-n", "3"]) (some "1") 3 (by decide +kernel)
  have hfour := hasks (line ++ ["--offset=1", "-n", "4"]) (some "1") 4 (by decide +kernel)
  have hrest := hasks (line ++ ["--offset", "0x000003", "-n2"]) (some "0x000003") 2
    (by decide +kernel)
  have hfile : files "chunk" = .file bytes := rfl
  have hlisting : ((Command.decode "chunk" options (some "1") 3).perform false files).result =
      .ok (.records .modern entries.toArray) := by decide +kernel
  obtain ⟨hrun, hread, -, -, hresume⟩ := (decode_resumes hthree hfile).2.1 .modern _ hlisting
  obtain ⟨hresumed, hread'⟩ := (hresume (by decide) 1 (by decide)).2 _ hrest
  refine ⟨hthree, hrun, hread, hresumed, hread', ?_⟩
  obtain ⟨hstuck, -⟩ := (decode_resumes hfour hfile).2.2
    ⟨0x54, ⟨1, by decide, by decide⟩, .little, false⟩ .modern 1 (by decide) 3
    #[.ofText "a", .null, .ofText "bc"] ⟨bytes, 7, by decide⟩ (.truncated 8 1)
    (by decide +kernel) rfl (by decide) (by decide +kernel) rfl (by decide +kernel)
    (by decide +kernel)
  rw [hstuck]
  decide +kernel

end ChunkStrings.CommandLine
