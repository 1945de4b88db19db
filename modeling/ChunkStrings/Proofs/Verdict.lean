import ChunkStrings.Proofs.Resumption

/-!
# What a command comes to

A command has a product or fails, and here is told which, without the order in which the program
goes about it: `Command.Yields` says what a product consists of, and `Command.Fails` names the
check or the record that ended the command. Each constructor asks for its own check to go wrong
and for those in front of it to have gone well.

Every command comes to one of the two (`Command.yields_or_fails`), and what it comes to is its
result, traced or not (`Command.Yields.result_eq`, `Command.Fails.result_eq`). The last case is
that of a listing: the loop reads records as long as it can, and either it has read all of them or
there is a first one that it cannot read (`exists_lists_or_stuck`).
-/

namespace ChunkStrings.CommandLine

/-! ### The format -/

/-- The reader that the options describe. -/
def FormatOptions.reader (options : FormatOptions) : Except Failure RecordReader := do
  let format ← options.resolve false
  (RecordReader.ofFormat format).mapError .generation

/-- **Why format options are refused:** the first of the checks that goes wrong. -/
inductive FormatOptions.Refused (options : FormatOptions) : Failure → Prop where
  /-- The generation is no tag. -/
  | tag {failure : Failure} (h : readGeneration options.generation = .error failure) :
      Refused options failure
  /-- The byte order flag is none. -/
  | order {tag : UInt8} {failure : Failure} (htag : readGeneration options.generation = .ok tag)
      (h : options.order = .error failure) : Refused options failure
  /-- The width is none. -/
  | width {tag : UInt8} {order : ByteOrder} {fault : Fault}
      (htag : readGeneration options.generation = .ok tag) (horder : options.order = .ok order)
      (h : Width.ofNat options.width.toNat = .error fault) : Refused options (.format fault)
  /-- No layout belongs to the generation. -/
  | generation {format : ChunkFormat} {fault : Fault} (hformat : options.resolve false = .ok format)
      (h : Layout.ofFormat format = .error fault) : Refused options (.generation fault)

variable {options : FormatOptions} {reader : RecordReader} {failure : Failure}

theorem FormatOptions.reader_eq_ok : options.reader = .ok reader ↔
    options.resolve false = .ok reader.format ∧
      Layout.ofFormat reader.format = .ok reader.layout := by
  rw [FormatOptions.reader, bind_eq_ok]
  constructor
  · rintro ⟨format, hformat, h⟩
    obtain ⟨layout, hlayout, rfl⟩ := map_eq_ok.mp (mapError_eq_ok.mp h)
    exact ⟨hformat, hlayout⟩
  · rintro ⟨hformat, hlayout⟩
    exact ⟨_, hformat, mapError_eq_ok.mpr (map_eq_ok.mpr ⟨_, hlayout, rfl⟩)⟩

/-- **Options that describe no reader are refused** for the first thing that is wrong. -/
theorem FormatOptions.reader_eq_error : options.reader = .error failure ↔
    options.Refused failure := by
  rw [FormatOptions.reader, bind_eq_error]
  constructor
  · rintro (h | ⟨format, hformat, h⟩)
    · rcases bind_eq_error.mp h with h | ⟨tag, htag, h⟩
      · exact .tag h
      rcases bind_eq_error.mp h with h | ⟨order, horder, h⟩
      · exact .order htag h
      rcases bind_eq_error.mp h with h | ⟨format, -, h⟩
      · obtain ⟨fault, hwidth, rfl⟩ := mapError_eq_error.mp h
        exact .width htag horder (map_eq_error.mp hwidth)
      · cases h
    · obtain ⟨fault, hlayout, rfl⟩ := mapError_eq_error.mp h
      exact .generation hformat (map_eq_error.mp hlayout)
  · rintro (h | ⟨htag, h⟩ | ⟨htag, horder, h⟩ | ⟨hformat, h⟩)
    · exact .inl (bind_eq_error.mpr (.inl h))
    · exact .inl (bind_eq_error.mpr (.inr ⟨_, htag, bind_eq_error.mpr (.inl h)⟩))
    · refine .inl (bind_eq_error.mpr (.inr ⟨_, htag, bind_eq_error.mpr (.inr ⟨_, horder, ?_⟩)⟩))
      refine bind_eq_error.mpr (.inl (mapError_eq_error.mpr ⟨_, ?_, rfl⟩))
      exact map_eq_error.mpr h
    · exact .inr ⟨_, hformat, mapError_eq_error.mpr ⟨_, map_eq_error.mpr h, rfl⟩⟩

/-! ### The first record -/

/-- **Why no first record is found:** the first of the checks that goes wrong. -/
inductive Mislocated (path : String) (entry : DiskEntry) (offset : Option String) :
    Failure → Prop where
  /-- The file cannot be loaded. -/
  | load {fault : Fault} (h : Source.load entry = .error fault) :
      Mislocated path entry offset (.load path fault)
  /-- The offset is no number. -/
  | offset {source : Source} {failure : Failure} (hload : Source.load entry = .ok source)
      (h : offset.elim (.ok 0) readNumber = .error failure) : Mislocated path entry offset failure
  /-- The offset is past the end. -/
  | position {source : Source} {start : Nat} (hload : Source.load entry = .ok source)
      (hstart : offset.elim (.ok 0) readNumber = .ok start) (h : source.data.size < start) :
      Mislocated path entry offset (.position start .outOfBounds)

variable {path : String} {entry : DiskEntry} {offset : Option String}

theorem locate_eq_error : locate path entry offset = .error failure ↔
    Mislocated path entry offset failure := by
  rw [locate_eq, bind_eq_error]
  constructor
  · rintro (h | ⟨source, hload, h⟩)
    · obtain ⟨fault, hload, rfl⟩ := mapError_eq_error.mp h
      exact .load hload
    have hload := mapError_eq_ok.mp hload
    rcases bind_eq_error.mp h with h | ⟨start, hstart, h⟩
    · exact .offset hload h
    · obtain ⟨fault, hseek, rfl⟩ := mapError_eq_error.mp h
      obtain ⟨hlt, rfl⟩ := Source.cursorAt_eq_error.mp hseek
      exact .position hload hstart hlt
  · rintro (h | ⟨hload, h⟩ | ⟨hload, hstart, h⟩)
    · exact .inl (mapError_eq_error.mpr ⟨_, h, rfl⟩)
    · exact .inr ⟨_, mapError_eq_ok.mpr hload, bind_eq_error.mpr (.inl h)⟩
    · refine .inr ⟨_, mapError_eq_ok.mpr hload, bind_eq_error.mpr (.inr ⟨_, hstart, ?_⟩)⟩
      exact mapError_eq_error.mpr ⟨_, Source.cursorAt_eq_error.mpr ⟨h, rfl⟩, rfl⟩

/-! ### Listings that end -/

variable {cursor : Cursor}

/-- **So many records can be listed, or there is a first one that cannot be read.** The induction is
on the number of records that are asked for. -/
theorem exists_lists_or_stuck (reader : RecordReader) (cursor : Cursor) (count : Nat) :
    ∃ entries after, Lists reader cursor entries after ∧
      (entries.length = count ∨ entries.length < count ∧
        ∃ fault, (reader.read.outcome ⟨after, .empty, #[]⟩).1 = .error fault) := by
  induction count generalizing cursor with
  | zero => exact ⟨[], cursor, .nil cursor, .inl rfl⟩
  | succ count ih =>
    rcases hread : reader.read.outcome ⟨cursor, .empty, #[]⟩ with ⟨fault | constant, middle⟩
    · exact ⟨[], cursor, .nil cursor, .inr ⟨Nat.succ_pos count, fault, congrArg Prod.fst hread⟩⟩
    · obtain ⟨entries, after, hlists, hend⟩ := ih middle
      refine ⟨_, after, .cons hread hlists, ?_⟩
      rw [List.length_cons, Nat.add_right_cancel_iff, Nat.add_lt_add_iff_right]
      exact hend

/-! ### Commands -/

section Commands

variable {files : String → DiskEntry} {command : Command} {product : Product}

/-- **The command reads records** with this reader, from this cursor on, and so many. -/
inductive Command.Starts (files : String → DiskEntry) :
    Command → RecordReader → Cursor → Nat → Prop where
  /-- The options describe the reader, and the cursor is found. -/
  | decode {path : String} {options : FormatOptions} {offset : Option String} {count : Nat}
      {reader : RecordReader} {cursor : Cursor} (hreader : options.reader = .ok reader)
      (hlocate : locate path (files path) offset = .ok cursor) :
      Starts files (.decode path options offset count) reader cursor count

/-- **What a command produces.** -/
inductive Command.Yields (files : String → DiskEntry) : Command → Product → Prop where
  /-- Records that are listed, as many as are asked for, in a table that memory can hold. -/
  | listing {command : Command} {reader : RecordReader} {cursor after : Cursor} {count : Nat}
      {entries : List RecordEntry} (hstarts : command.Starts files reader cursor count)
      (hfits : entrySize * count ≤ memoryLimit) (hlists : Lists reader cursor entries after)
      (hlength : entries.length = count) :
      Yields files command (.records reader.layout entries.toArray)
  /-- A record that is written. -/
  | encoding {options : FormatOptions} {text : Option String} {reader : RecordReader}
      {bytes : ByteArray} (hreader : options.reader = .ok reader)
      (h : reader.layout.encode reader.format (text.elim .null .ofText) = .ok bytes) :
      Yields files (.encode options text) (.encoding reader.layout bytes)

/-- **Why a command fails:** the first check or record that goes wrong. -/
inductive Command.Fails (files : String → DiskEntry) : Command → Failure → Prop where
  /-- The format is refused. -/
  | format {command : Command} {failure : Failure} (h : command.options.Refused failure) :
      Fails files command failure
  /-- No first record is found. -/
  | place {path : String} {options : FormatOptions} {offset : Option String} {count : Nat}
      {reader : RecordReader} {failure : Failure} (hreader : options.reader = .ok reader)
      (h : Mislocated path (files path) offset failure) :
      Fails files (.decode path options offset count) failure
  /-- Memory cannot hold a table for so many records. -/
  | table {command : Command} {reader : RecordReader} {cursor : Cursor} {count : Nat}
      (hstarts : command.Starts files reader cursor count)
      (h : memoryLimit < entrySize * count) : Fails files command (.tableTooLarge count)
  /-- Behind records that are listed there is one that cannot be read. -/
  | record {command : Command} {reader : RecordReader} {cursor middle : Cursor} {count : Nat}
      {entries : List RecordEntry} {fault : Fault}
      (hstarts : command.Starts files reader cursor count)
      (hfits : entrySize * count ≤ memoryLimit) (hlists : Lists reader cursor entries middle)
      (hlt : entries.length < count)
      (h : (reader.read.outcome ⟨middle, .empty, #[]⟩).1 = .error fault) :
      Fails files command (.record middle.pos fault)
  /-- The string cannot be written. -/
  | encoding {options : FormatOptions} {text : Option String} {reader : RecordReader}
      {fault : Fault} (hreader : options.reader = .ok reader)
      (h : reader.layout.encode reader.format (text.elim .null .ofText) = .error fault) :
      Fails files (.encode options text) (.encoding fault)

/-- **Every command has a product or fails.** -/
theorem Command.yields_or_fails (command : Command) (files : String → DiskEntry) :
    (∃ product, command.Yields files product) ∨ ∃ failure, command.Fails files failure := by
  cases hreader : command.options.reader with
  | error failure => exact .inr ⟨failure, .format (FormatOptions.reader_eq_error.mp hreader)⟩
  | ok reader =>
    cases command with
    | encode options text =>
      cases h : reader.layout.encode reader.format (text.elim .null .ofText) with
      | error fault => exact .inr ⟨_, .encoding hreader h⟩
      | ok bytes => exact .inl ⟨_, .encoding hreader h⟩
    | decode path options offset count =>
      cases hlocate : locate path (files path) offset with
      | error failure => exact .inr ⟨failure, .place hreader (locate_eq_error.mp hlocate)⟩
      | ok cursor =>
        have hstarts :
            Command.Starts files (.decode path options offset count) reader cursor count :=
          .decode hreader hlocate
        rcases Nat.lt_or_ge memoryLimit (entrySize * count) with hlarge | hfits
        · exact .inr ⟨_, .table hstarts hlarge⟩
        obtain ⟨entries, after, hlists, hlength | ⟨hlt, fault, hstuck⟩⟩ :=
          exists_lists_or_stuck reader cursor count
        · exact .inl ⟨_, .listing hstarts hfits hlists hlength⟩
        · exact .inr ⟨_, .record hstarts hfits hlists hlt hstuck⟩

/-- Whether strings are logged is no part of how a record is written. -/
theorem encodeText_withTracing (reader : RecordReader) (traced : Bool) (text : Option String) :
    encodeText ⟨reader.layout, reader.format.withTracing traced⟩ text = encodeText reader text := by
  obtain ⟨layout, format⟩ := reader
  cases layout <;> cases text <;> rfl

/-- **What an encoding comes to:** the format is settled, and then the record is written. -/
theorem result_perform_encode {text : Option String} (traced : Bool) :
    ((Command.encode options text).perform traced files).result =
      options.reader >>= fun reader => encodeText reader text := by
  simp only [Command.perform, Command.options, resolve_eq options traced, FormatOptions.reader]
  cases options.resolve false with
  | error failure => rfl
  | ok format =>
    have hlayout : Layout.ofFormat (format.withTracing traced) = Layout.ofFormat format := rfl
    simp only [Except.map, RecordReader.ofFormat, hlayout, ok_bind]
    cases Layout.ofFormat format with
    | error fault => rfl
    | ok layout => exact encodeText_withTracing ⟨layout, format⟩ traced text

/-- What a decoding comes to, once the format is settled. -/
theorem result_perform_decode_eq_bind {count : Nat} (traced : Bool) :
    ((Command.decode path options offset count).perform traced files).result = (do
      let reader ← options.reader
      let cursor ← locate path (files path) offset
      let entries ← (listRecords ⟨reader.layout, reader.format.withTracing traced⟩ cursor count).1
      .ok (.records reader.layout entries)) := by
  rw [result_perform_decode, FormatOptions.reader, bind_assoc]
  refine congrArg _ (funext fun format => ?_)
  rw [RecordReader.ofFormat]
  cases Layout.ofFormat format <;> rfl

/-- **The product is the result**, traced or not. -/
theorem Command.Yields.result_eq (h : command.Yields files product) (traced : Bool) :
    (command.perform traced files).result = .ok product := by
  cases h with
  | listing hstarts hfits hlists hlength =>
    cases hstarts with
    | decode hreader hlocate =>
      obtain ⟨hformat, hlayout⟩ := FormatOptions.reader_eq_ok.mp hreader
      subst hlength
      exact result_of_lists traced hformat hlayout hlocate hlists hfits
  | encoding hreader h =>
    rw [result_perform_encode, hreader, ok_bind, encodeText, h]
    rfl

/-- **The failure is the result**, traced or not. -/
theorem Command.Fails.result_eq (h : command.Fails files failure) (traced : Bool) :
    (command.perform traced files).result = .error failure := by
  cases h with
  | format h =>
    have hreader := FormatOptions.reader_eq_error.mpr h
    cases command with
    | decode path options offset count =>
      rw [result_perform_decode_eq_bind, show options.reader = _ from hreader]
      rfl
    | encode options text =>
      rw [result_perform_encode, show options.reader = _ from hreader]
      rfl
  | place hreader h =>
    rw [result_perform_decode_eq_bind, hreader, ok_bind, locate_eq_error.mpr h]
    rfl
  | table hstarts h =>
    cases hstarts with
    | decode hreader hlocate =>
      rw [result_perform_decode_eq_bind, hreader, ok_bind, hlocate, ok_bind, listRecords,
        if_neg (Nat.not_le.mpr h)]
      rfl
  | record hstarts hfits hlists hlt h =>
    cases hstarts with
    | decode hreader hlocate =>
      obtain ⟨hformat, hlayout⟩ := FormatOptions.reader_eq_ok.mp hreader
      rw [result_of_stuck traced hformat hlayout hlocate hlists hlt h, if_pos hfits]
  | encoding hreader h =>
    rw [result_perform_encode, hreader, ok_bind, encodeText, h]
    rfl

/-! ### What is printed -/

variable {arguments : List String} {settings : Settings}

theorem run_of_yields (hasks : Request.ofArguments arguments = .ok (.run settings command))
    (h : command.Yields files product) : run arguments files =
      ⟨0, if settings.json then product.toJson.lines else product.toLines,
        logLines settings (command.perform settings.verbose files).log⟩ := by
  rw [run_eq_outcome hasks, outcome, h.result_eq]

theorem run_of_fails (hasks : Request.ofArguments arguments = .ok (.run settings command))
    (h : command.Fails files failure) : run arguments files =
      ⟨failure.exit, [],
        logLines settings (command.perform settings.verbose files).log ++ failure.lines⟩ := by
  rw [run_eq_outcome hasks, outcome, h.result_eq]

end Commands

end ChunkStrings.CommandLine
