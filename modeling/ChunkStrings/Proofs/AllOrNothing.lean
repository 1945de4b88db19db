import ChunkStrings.Proofs.Switches
import ChunkStrings.Proofs.Verdict

/-!
# All or nothing

A command that fails prints nothing on the standard output, however much of its work was done
before, and one that does not fail has printed everything. What makes this so is that nothing is
printed before the result is there, which is why the proofs look at results only
(`Command.yields_or_fails`).

Every failure but one is a refusal, with the exit status 1 (`Command.Fails.exit_eq`). The one is
the table for the records of a listing: it is laid out for all of them before the first is read,
and if memory could not even be asked for that much, the program breaks down with the exit status
101, whatever stands in the file. The records that can be read do not matter then.

That everything is printed is said of what can be read of it: the entries of a listing as JSON
(`Listing.read?`), and what the rows of a table show of them (`TextRow.Shows`).

To log more changes what is logged and nothing else (`run_switchOn_verbose`).
-/

namespace ChunkStrings.CommandLine

variable {arguments : List String} {settings : Settings} {command : Command}
  {files : String → DiskEntry} {failure : Failure}

/-! ### Exit statuses -/

/-- **The table overflows:** the records could be read, as far as the checks in front of them tell,
but memory could not hold a table for so many. -/
def Command.Overflows (files : String → DiskEntry) (command : Command) : Prop :=
  ∃ reader cursor count, command.Starts files reader cursor count ∧
    memoryLimit < entrySize * count

/-- A text that is no number is refused. -/
theorem exit_of_readNumber {text : String} (h : readNumber text = .error failure) :
    failure.exit = 1 := by
  unfold readNumber at h
  split at h <;> cases h
  rfl

theorem FormatOptions.Refused.exit_eq {options : FormatOptions} (h : options.Refused failure) :
    failure.exit = 1 := by
  cases h with
  | tag h =>
    rcases bind_eq_error.mp h with h | ⟨value, -, h⟩
    · exact exit_of_readNumber h
    · split at h <;> cases h
      rfl
  | order htag h =>
    unfold FormatOptions.order at h
    split at h
    · obtain ⟨fault, -, rfl⟩ := mapError_eq_error.mp h
      rfl
    · cases h
  | width htag horder h => rfl
  | generation hformat h => rfl

theorem Mislocated.exit_eq {path : String} {entry : DiskEntry} {offset : Option String}
    (h : Mislocated path entry offset failure) : failure.exit = 1 := by
  cases h with
  | load h => rfl
  | offset hload h =>
    cases offset with
    | none => cases h
    | some text => exact exit_of_readNumber h
  | position hload hstart h => rfl

/-- **Every failure is a refusal, but for a table that overflows.** -/
theorem Command.Fails.exit_eq (h : command.Fails files failure) :
    failure.exit = 1 ∧ ¬command.Overflows files ∨
      failure.exit = 101 ∧ command.Overflows files := by
  by_cases hover : command.Overflows files
  · obtain ⟨reader, cursor, count, hstarts, hlarge⟩ := hover
    have htable := (Fails.table hstarts hlarge).result_eq false
    cases (h.result_eq false).symm.trans htable
    exact .inr ⟨rfl, reader, cursor, count, hstarts, hlarge⟩
  · refine .inl ⟨?_, hover⟩
    cases h with
    | format h => exact h.exit_eq
    | place hreader h => exact h.exit_eq
    | table hstarts h => exact absurd ⟨_, _, _, hstarts, h⟩ hover
    | record hstarts hfits hlists hlt h => rfl
    | encoding hreader h => rfl

/-- A command with a product does not overflow. -/
theorem Command.Yields.not_overflows {product : Product} (h : command.Yields files product) :
    ¬command.Overflows files := by
  rintro ⟨reader, cursor, count, hstarts, hlarge⟩
  cases (h.result_eq false).symm.trans ((Fails.table hstarts hlarge).result_eq false)

/-! ### Logs -/

/-- **To log more changes the log and nothing else.** -/
theorem run_switchOn_verbose (hasks : Request.ofArguments arguments = .ok (.run settings command))
    (hoff : settings.verbose = false) (files : String → DiskEntry) :
    let answer := run arguments files
    run ("-v" :: arguments) files = ⟨answer.exit, answer.stdout,
      logLines (settings.switchOn .verbose) (command.perform true files).log ++ answer.stderr⟩ := by
  intro answer
  have hasks' := Request.ofArguments_switch .verbose hasks hoff
  have hquiet := logLines_eq_nil (.inl hoff)
  obtain ⟨product, h⟩ | ⟨failure, h⟩ := command.yields_or_fails files
  · have hanswer : answer = _ := run_of_yields hasks h
    rw [hanswer, hquiet, List.append_nil]
    exact run_of_yields hasks' h
  · have hanswer : answer = _ := run_of_fails hasks h
    rw [hanswer, hquiet, List.nil_append]
    exact run_of_fails hasks' h

/-! ### The program -/

/-- **The program exits with 0 exactly if the command has a product.** -/
theorem exit_eq_zero_iff (hasks : Request.ofArguments arguments = .ok (.run settings command)) :
    (run arguments files).exit = 0 ↔ ∃ product, command.Yields files product := by
  constructor
  · intro hexit
    refine (command.yields_or_fails files).resolve_right ?_
    rintro ⟨failure, h⟩
    rw [run_of_fails hasks h] at hexit
    rcases h.exit_eq with ⟨hone, -⟩ | ⟨hone, -⟩ <;> cases hone.symm.trans hexit
  · rintro ⟨product, h⟩
    rw [run_of_yields hasks h]

/-- **Without a product nothing is printed** on the standard output. -/
theorem exit_eq_zero_or (hasks : Request.ofArguments arguments = .ok (.run settings command)) :
    (run arguments files).exit = 0 ∨ (run arguments files).stdout = [] ∧
      ((run arguments files).exit = 1 ∨ (run arguments files).exit = 101) := by
  rcases command.yields_or_fails files with hyields | ⟨failure, h⟩
  · exact .inl ((exit_eq_zero_iff hasks).mpr hyields)
  · rw [run_of_fails hasks h]
    exact .inr ⟨rfl, h.exit_eq.imp And.left And.left⟩

/-- **The program breaks down exactly if the table overflows.** -/
theorem exit_eq_crash_iff (hasks : Request.ofArguments arguments = .ok (.run settings command)) :
    (run arguments files).exit = 101 ↔ command.Overflows files := by
  obtain ⟨product, h⟩ | ⟨failure, h⟩ := command.yields_or_fails files
  · rw [run_of_yields hasks h]
    exact iff_of_false (by rintro ⟨⟩) h.not_overflows
  · rw [run_of_fails hasks h]
    rcases h.exit_eq with ⟨hone, hover⟩ | ⟨hone, hover⟩
    · exact iff_of_false (fun hcrash => absurd (hone.symm.trans hcrash) (by decide)) hover
    · exact iff_of_true hone hover

/-- **Another exit status than 0 is that of the check or record that goes wrong first**, and the
standard error output ends with what is said about it. -/
theorem exists_fails_of_exit_ne_zero
    (hasks : Request.ofArguments arguments = .ok (.run settings command))
    (hexit : (run arguments files).exit ≠ 0) : ∃ failure, command.Fails files failure ∧
      (run arguments files).exit = failure.exit ∧
      ∃ log : List String, (settings.verbose = false ∨ settings.json = true → log = []) ∧
        (run arguments files).stderr = log ++ failure.lines := by
  rcases command.yields_or_fails files with hyields | ⟨failure, h⟩
  · exact absurd ((exit_eq_zero_iff hasks).mpr hyields) hexit
  · rw [run_of_fails hasks h]
    exact ⟨failure, h, rfl, _, fun hquiet => logLines_eq_nil hquiet _, rfl⟩

/-- The product of a decoding is a listing. -/
theorem Command.yields_decode_iff {path : String} {options : FormatOptions}
    {offset : Option String} {count : Nat} {product : Product} :
    (Command.decode path options offset count).Yields files product ↔
      ∃ reader entries, (∃ cursor after, options.reader = .ok reader ∧
        locate path (files path) offset = .ok cursor ∧ entrySize * count ≤ memoryLimit ∧
        Lists reader cursor entries after ∧ entries.length = count) ∧
      product = .records reader.layout entries.toArray := by
  constructor
  · intro h
    cases h with
    | listing hstarts hfits hlists hlength =>
      cases hstarts with
      | decode hreader hlocate =>
        exact ⟨_, _, ⟨_, _, hreader, hlocate, hfits, hlists, hlength⟩, rfl⟩
  · rintro ⟨reader, entries, ⟨cursor, after, hreader, hlocate, hfits, hlists, hlength⟩, rfl⟩
    exact .listing (.decode hreader hlocate) hfits hlists hlength

/-! ### What is printed of a listing -/

/-- The offsets and sizes of a listing are machine words if the size of the data is one. -/
theorem Lists.addressed {reader : RecordReader} {cursor after : Cursor}
    {entries : List RecordEntry} (h : Lists reader cursor entries after)
    (hsize : cursor.data.size < Numeral.limit) : ∀ entry ∈ entries, entry.Addressed := by
  induction h with
  | nil cursor => exact nofun
  | @cons cursor middle after constant entries hread _ ih =>
    obtain ⟨hdata, -⟩ := moves_of_read hread
    have hmiddle := middle.pos_le
    rw [hdata] at hmiddle
    rw [hdata] at ih
    have hpos := Nat.lt_of_le_of_lt cursor.pos_le hsize
    have htaken : middle.pos - cursor.pos < Numeral.limit :=
      Nat.lt_of_le_of_lt (Nat.le_trans (Nat.sub_le _ _) hmiddle) hsize
    exact List.forall_mem_cons.mpr ⟨⟨_, hpos, _, htaken, constant, rfl⟩, ih hsize⟩

/-- **The output is all or nothing.** A command line asks for a decoding or an encoding. The program
exits with 0, or it prints nothing on the standard output and exits with 1, or with 101. The last
is so exactly if all checks go well but the table overflows. If it does not exit with 0, there is a
check or a record that goes wrong first, and what is printed about it is what ends the standard
error output.

For a decoding of any number of records, it exits with 0 exactly if the format is accepted and the
first record is found, memory could be asked for the table, and so many records can be read in a
row. Then these are printed: what is printed as JSON is read as their entries, and the text shows
each of them, in their order. (For the text, the size of the file is below the limit of numerals: it
is a machine word. Whether memory has room for a table that it can be asked for is not part of the
account.)

Behind `-v` in front, where the log was not asked for, the exit status and the standard output are
the same; and the standard error output is the same for JSON, or else has lines of the log in front
of it. -/
theorem run_allOrNothing (hasks : Request.ofArguments arguments = .ok (.run settings command))
    (files : String → DiskEntry) :
    let answer := run arguments files
    (answer.exit = 0 ∨ answer.stdout = [] ∧ (answer.exit = 1 ∨ answer.exit = 101)) ∧
    (answer.exit = 101 ↔ command.Overflows files) ∧
    (answer.exit ≠ 0 → ∃ failure, command.Fails files failure ∧ answer.exit = failure.exit ∧
      ∃ log : List String, (settings.verbose = false ∨ settings.json = true → log = []) ∧
        answer.stderr = log ++ failure.lines) ∧
    -- what is decoded
    (∀ path options offset count, command = .decode path options offset count →
      let listed := fun (reader : RecordReader) (entries : List RecordEntry) => ∃ cursor after,
        options.reader = .ok reader ∧ locate path (files path) offset = .ok cursor ∧
          entrySize * count ≤ memoryLimit ∧ Lists reader cursor entries after ∧
          entries.length = count
      (answer.exit = 0 ↔ ∃ reader entries, listed reader entries) ∧
      ∀ reader entries, listed reader entries →
        (answer.stdout =
          if settings.json then (Product.records reader.layout entries.toArray).toJson.lines
          else (Product.records reader.layout entries.toArray).toLines) ∧
        (settings.json = true →
          Listing.read? answer.stdout = some ⟨reader.layout.name, entries⟩) ∧
        (settings.json = false →
          (∀ bytes, files path = .file bytes → bytes.size < Numeral.limit) →
            ∃ rows, TextListing.read? answer.stdout = some ⟨reader.layout.name, rows⟩ ∧
              List.Forall₂ TextRow.Shows rows entries)) ∧
    -- what is logged
    (settings.verbose = false →
      let louder := run ("-v" :: arguments) files
      louder.exit = answer.exit ∧ louder.stdout = answer.stdout ∧
      (settings.json = true → louder.stderr = answer.stderr) ∧
      (settings.json = false → ∃ lines : List String,
        louder.stderr = lines.map ("[DEBUG] " ++ ·) ++ answer.stderr)) := by
  intro answer
  refine ⟨exit_eq_zero_or hasks, exit_eq_crash_iff hasks, exists_fails_of_exit_ne_zero hasks, ?_,
    fun hoff => ?_⟩
  · rintro path options offset count rfl listed
    refine ⟨(exit_eq_zero_iff hasks).trans ?_, fun reader entries h => ?_⟩
    · constructor
      · rintro ⟨product, h⟩
        obtain ⟨reader, entries, h, -⟩ := Command.yields_decode_iff.mp h
        exact ⟨reader, entries, h⟩
      · rintro ⟨reader, entries, h⟩
        exact ⟨_, Command.yields_decode_iff.mpr ⟨reader, entries, h, rfl⟩⟩
    · have hanswer : answer = _ :=
        run_of_yields hasks (Command.yields_decode_iff.mpr ⟨reader, entries, h, rfl⟩)
      rw [hanswer]
      refine ⟨rfl, fun hjson => ?_, fun hjson hwords => ?_⟩
      · rw [if_pos hjson]
        exact Listing.read?_lines reader.layout entries.toArray
      · rw [if_neg (Bool.eq_false_iff.mp hjson)]
        obtain ⟨cursor, after, -, hlocate, -, hlists, -⟩ := h
        obtain ⟨bytes, start, hstart, hfile, -, -, rfl⟩ := locate_eq_ok.mp hlocate
        exact TextListing.read?_toLines reader.layout (hlists.addressed (hwords bytes hfile))
  · intro louder
    have hlouder : louder = _ := run_switchOn_verbose hasks hoff files
    rw [hlouder]
    refine ⟨rfl, rfl, fun hjson => ?_, fun hjson => ⟨(command.perform true files).log, ?_⟩⟩
    · simp [logLines, Settings.switchOn, hjson, answer]
    · simp [logLines, Settings.switchOn, hjson, answer]

/-- The absent string, and the beginning of a record that goes on behind the end of the file. Of two
records the first one is read, and not printed; asked for alone, it is. -/
theorem run_allOrNothing_cut :
    let files : String → DiskEntry := fun _ => .file [0, 5, 0x41].toByteArray
    let arguments := ["decode", "-g", "0x53", "-n", "2", "chunk"]
    let answer := run arguments files
    let louder := run ("-v" :: arguments) files
    let shorter := run ["decode", "-g", "0x53", "chunk"] files
    answer.exit = 1 ∧ answer.stdout = [] ∧ louder.exit = 1 ∧ louder.stdout = [] ∧
      (∃ lines : List String, louder.stderr = lines.map ("[DEBUG] " ++ ·) ++
        ["Error: failed to decode string record at 0x1", "", "Caused by:",
          "    Truncated input - needed 5 bytes, 1 available"]) ∧
      shorter.exit = 0 ∧ ∃ rows, TextListing.read? shorter.stdout = some ⟨"compact", rows⟩ ∧
        List.Forall₂ TextRow.Shows rows [⟨"0x000000", 1, "null", none, none⟩] := by
  intro files arguments answer louder shorter
  let options : FormatOptions := ⟨"0x53", 8, false, none⟩
  have hasks : Request.ofArguments arguments =
      .ok (.run ⟨false, false⟩ (.decode "chunk" options none 2)) := by decide +kernel
  have hexit : answer.exit = 1 := by decide +kernel
  have hstderr : answer.stderr = ["Error: failed to decode string record at 0x1", "",
      "Caused by:", "    Truncated input - needed 5 bytes, 1 available"] := by decide +kernel
  obtain ⟨hall, -, -, -, hlouder⟩ := run_allOrNothing hasks files
  obtain ⟨hsame, hstdout, -, hlines⟩ := hlouder rfl
  have hempty : answer.stdout = [] := (hall.resolve_left fun hzero => by
    rw [show (run arguments files).exit = 1 from hexit] at hzero
    cases hzero).1
  have hasks' : Request.ofArguments ["decode", "-g", "0x53", "chunk"] =
      .ok (.run ⟨false, false⟩ (.decode "chunk" options none 1)) := by decide +kernel
  let cursor : Cursor := ⟨[0, 5, 0x41].toByteArray, 0, by decide⟩
  let reader : RecordReader := ⟨.compact, 0x53, ⟨8, by decide, by decide⟩, .little, false⟩
  have hlists : Lists reader cursor [⟨"0x000000", 1, "null", none, none⟩]
      ⟨[0, 5, 0x41].toByteArray, 1, by decide⟩ := by
    have hentry : RecordEntry.ofRecord 0 1 .null = ⟨"0x000000", 1, "null", none, none⟩ := by
      decide +kernel
    rw [← hentry]
    exact @Lists.cons reader cursor ⟨[0, 5, 0x41].toByteArray, 1, by decide⟩ _ .null []
      (by decide +kernel) (.nil _)
  obtain ⟨-, -, -, hdecode, -⟩ := run_allOrNothing hasks' files
  obtain ⟨hzero, hprints⟩ := hdecode "chunk" options none 1 rfl
  have hlisted : ∃ cursor after, options.reader = .ok reader ∧
      locate "chunk" (files "chunk") none = .ok cursor ∧ entrySize * 1 ≤ memoryLimit ∧
      Lists reader cursor [⟨"0x000000", 1, "null", none, none⟩] after ∧ 1 = 1 :=
    ⟨cursor, _, by decide +kernel, by decide +kernel, by decide, hlists, rfl⟩
  have hshown := (hprints reader _ hlisted).2.2 rfl (by
    rintro bytes hfile
    cases hfile
    decide)
  exact ⟨hexit, hempty, hsame.trans hexit, hstdout.trans hempty, hstderr ▸ hlines rfl,
    hzero.mpr ⟨_, _, hlisted⟩, hshown⟩

/-- **Asked for more records than a table can hold, the program breaks down**: it does not look at
the file, in which there is a record, but not a second one. -/
theorem run_overflow :
    let files : String → DiskEntry := fun _ => .file [0].toByteArray
    let arguments := ["decode", "-g", "0x53", "-n", "18446744073709551615", "chunk"]
    let answer := run arguments files
    Request.ofArguments arguments = .ok (.run ⟨false, false⟩
        (.decode "chunk" ⟨"0x53", 8, false, none⟩ none 18446744073709551615)) ∧
      answer = ⟨101, [], ["",
        "thread 'main' (4) panicked at /rustc/b940084d7eb6a299eb4bfeb8e34901bc051e7ac4/library/" ++
          "alloc/src/raw_vec/mod.rs:28:5:",
        "capacity overflow",
        "note: run with `RUST_BACKTRACE=1` environment variable to display a backtrace"]⟩ ∧
      ¬(answer.exit = 0 ∨ answer.exit = 1 ∧ answer.stdout = []) := by
  decide +kernel

end ChunkStrings.CommandLine
