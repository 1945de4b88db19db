import ChunkStrings.Proofs.EncodedSize
import ChunkStrings.Proofs.PrintedProducts
import ChunkStrings.Proofs.Switches
import ChunkStrings.Proofs.TableRoundTrip
import ChunkStrings.Proofs.Verdict

/-!
# A text that is encoded and decoded again

The two commands of the program, put one behind the other: what `encode` prints as pairs of digits
are bytes, and where these bytes stand in a file, `decode` finds the text again, whatever is in
front of them and behind them (`encode_decodes`). This holds for the legacy and the modern layout.

Nothing is shared between the two commands but the options for the format, and these are what the
proof goes along: they describe one reader (`FormatOptions.reader`), with whose layout the text is
written and read. What is written is a record of that layout (`Layout.exists_record_of_encode`),
and a record is read wherever it stands (`Record.exists_run_decodeTraced`); in between are the
digits, which read back as the bytes (`Hex.readPairs?_pairs`), and the offset, which is a number
that can be typed in (`readNumber_offsetText`). What is printed as JSON is said twice, as lines and
as what these are read as (`Encoding.read?_lines`, `Listing.read?_lines`).
-/

namespace ChunkStrings

namespace CommandLine

variable {options : FormatOptions} {format : ChunkFormat} {layout : Layout} {text : Option String}

/-! ### What is encoded -/

/-- **A text can be encoded exactly if its bytes and one more can be counted** in the width; no text
at all can always be encoded. -/
theorem exists_encode_text_iff :
    (∃ bytes, layout.encode format (text.elim .null .ofText) = .ok bytes) ↔
      ¬∃ given, text = some given ∧ 256 ^ format.width.bytes ≤ given.utf8ByteSize + 1 := by
  cases text with
  | none => simp [Layout.encode_null]
  | some given =>
    rw [← format.width.limit_eq_pow]
    refine Layout.exists_encode_iff.trans ?_
    simp

/-! ### What is decoded -/

/-- The entry of a text that is read again, or of the absent string. -/
def textEntry (layout : Layout) (offset size : Nat) : Option String → RecordEntry
  | none => ⟨RecordEntry.offsetText offset, size, "null", none, none⟩
  | some given => ⟨RecordEntry.offsetText offset, size, "string",
      if layout = .legacy then some "0x00" else none, some (Escape.text given.toByteArray)⟩

/-- **Between any bytes, what was encoded is listed as the text.** -/
theorem lists_of_encode (hlayout : layout ≠ .compact) {bytes : ByteArray}
    (h : layout.encode format (text.elim .null .ofText) = .ok bytes) (front rest : ByteArray) :
    Lists ⟨layout, format⟩ (.between front (bytes ++ rest))
      [textEntry layout front.size bytes.size text] (.between (front ++ bytes) rest) := by
  obtain ⟨record, rfl, hvalue⟩ := Layout.exists_record_of_encode hlayout h
  obtain ⟨after, hrun, hafter⟩ := record.exists_run_decodeTraced front rest .empty #[]
  have hread : (RecordReader.read ⟨layout, format⟩).outcome
      ⟨.between front (record.bytes ++ rest), .empty, #[]⟩ =
        (.ok record.value, .between (front ++ record.bytes) rest) := by
    rw [← hafter]
    exact Decode.outcome_of_ok hrun
  have hentry : textEntry layout front.size record.bytes.size text = .ofRecord front.size
      ((Cursor.between (front ++ record.bytes) rest).pos - front.size) record.value := by
    have hsize : (front ++ record.bytes).size - front.size = record.bytes.size := by simp
    rw [Cursor.pos_between, hsize, hvalue]
    cases text <;> cases layout <;> rfl
  rw [hentry]
  exact .cons hread (.nil _)

variable {arguments : List String} {settings : Settings}

/-- **A listing of what was encoded, from where it begins.** -/
theorem run_decode_of_encode (hformat : options.resolve false = .ok format)
    (hlayout : Layout.ofFormat format = .ok layout) (hcodec : layout ≠ .compact) {bytes : ByteArray}
    (h : layout.encode format (text.elim .null .ofText) = .ok bytes) {front rest : ByteArray}
    {path : String} {offset : Option String} {files : String → DiskEntry}
    (hasks : AsksForJson arguments path options offset 1)
    (hoffset : offset.elim (.ok 0) readNumber = .ok front.size)
    (hfile : files path = .file (front ++ bytes ++ rest)) : run arguments files =
      ⟨0, (Product.records layout #[textEntry layout front.size bytes.size text]).toJson.lines,
        []⟩ := by
  have hnonempty : 0 < (front ++ (bytes ++ rest)).size := by
    obtain ⟨record, rfl, -⟩ := Layout.exists_record_of_encode hcodec h
    have hsize := record.size_bytes_pos
    simp only [ByteArray.size_append]
    omega
  have hcursor : locate path (files path) offset = .ok (.between front (bytes ++ rest)) := by
    rw [ByteArray.append_assoc] at hfile
    exact locate_eq_ok.mpr ⟨_, _, _, hfile, hnonempty, hoffset, rfl⟩
  exact hasks.run_of_lists hformat hlayout hcursor (lists_of_encode hcodec h front rest) rfl
    (by decide)

/-- **What is encoded can be decoded.** A command line asks for a text to be encoded, or for the
absent string, in a format whose layout is the legacy or the modern one. The program exits with 1
if the bytes of the text and one more cannot be counted in the width, and else with 0.

In that case there are bytes whose pairs of digits are printed, by every such command line, and
with `--json`, which can be put in front, their number and they are read from what is printed. If
they stand in a file, with any bytes in front of them and behind them, every command line that asks
for one record in the same format, from where they begin, to be listed as JSON gets the text again,
and its entry is read from what is printed, and no other; and there is such a command line. -/
theorem encode_decodes
    (hasks : Request.ofArguments arguments = .ok (.run settings (.encode options text)))
    (hformat : options.resolve false = .ok format)
    (hlayout : Layout.ofFormat format = .ok layout) (hcodec : layout ≠ .compact)
    (files : String → DiskEntry) :
    let answer := run arguments files
    let tooLong := ∃ given, text = some given ∧
      256 ^ format.width.bytes ≤ given.utf8ByteSize + 1
    (answer.exit = 0 ∨ answer.exit = 1) ∧ (answer.exit = 1 ↔ tooLong) ∧
    (answer.exit = 0 → ∃ bytes : ByteArray,
      -- what is printed
      (∀ settings' arguments' files',
        Request.ofArguments arguments' = .ok (.run settings' (.encode options text)) →
        (settings'.json = false → ∃ line, (run arguments' files').stdout = [line] ∧
          Hex.readPairs? line.toList = some bytes.data.toList) ∧
        (settings'.json = true → (run arguments' files').stdout =
            (Json.object [("codec", .text layout.name), ("size", .number bytes.size),
              ("bytes", .text (String.ofList (Hex.pairs bytes.data.toList)))]).lines ∧
          Encoding.read? (run arguments' files').stdout =
            some ⟨layout.name, bytes.size, bytes.data.toList⟩)) ∧
      (settings.json = false → Request.ofArguments ("--json" :: arguments) =
        .ok (.run { settings with json := true } (.encode options text))) ∧
      -- what is found again
      ∀ (front rest : ByteArray) (path : String),
        (∀ offset arguments' files', AsksForJson arguments' path options offset 1 →
          offset.elim (.ok 0) readNumber = .ok front.size →
          files' path = .file (front ++ bytes ++ rest) →
            run arguments' files' = ⟨0, (Product.records layout
              #[textEntry layout front.size bytes.size text]).toJson.lines, []⟩ ∧
            Listing.read? (run arguments' files').stdout =
              some ⟨layout.name, [textEntry layout front.size bytes.size text]⟩) ∧
        (path ≠ "" → front.size < Numeral.limit →
          let offset := RecordEntry.offsetText front.size
          readNumber offset = .ok front.size ∧ AsksForJson
            (decodeArguments ⟨true, false⟩ path options (some offset) 1) path options
              (some offset) 1)) := by
  have hreader : options.reader = .ok ⟨layout, format⟩ :=
    FormatOptions.reader_eq_ok.mpr ⟨hformat, hlayout⟩
  intro answer tooLong
  cases h : layout.encode format (text.elim .null .ofText) with
  | error fault =>
    have hanswer : answer = _ := run_of_fails hasks (.encoding hreader h)
    have hlong : tooLong := by
      by_contra hshort
      obtain ⟨bytes, hbytes⟩ := exists_encode_text_iff.mpr hshort
      cases h.symm.trans hbytes
    rw [hanswer]
    exact ⟨.inr rfl, iff_of_true rfl hlong, fun hzero => absurd hzero Nat.one_ne_zero⟩
  | ok bytes =>
    have hyields : (Command.encode options text).Yields files (.encoding layout bytes) :=
      .encoding hreader h
    have hanswer : answer = _ := run_of_yields hasks hyields
    rw [hanswer]
    refine ⟨.inl rfl, iff_of_false Nat.zero_ne_one (exists_encode_text_iff.mp ⟨bytes, h⟩),
      fun _ => ?_⟩
    refine ⟨bytes, fun settings' arguments' files' hasks' => ?_,
      Request.ofArguments_switch .json hasks, fun front rest path => ⟨?_, ?_⟩⟩
    · rw [run_of_yields hasks' (.encoding hreader h)]
      constructor
      · intro hjson
        refine ⟨String.ofList (Hex.pairs bytes.data.toList),
          if_neg (Bool.eq_false_iff.mp hjson), ?_⟩
        rw [String.toList_ofList, Hex.readPairs?_pairs]
      · intro hjson
        refine ⟨if_pos hjson, ?_⟩
        rw [if_pos hjson]
        exact Encoding.read?_lines layout bytes
    · intro offset arguments' files' hasks' hoffset hfile
      have hrun := run_decode_of_encode hformat hlayout hcodec h hasks' hoffset hfile
      refine ⟨hrun, ?_⟩
      rw [hrun]
      exact Listing.read?_lines layout _
    · intro hpath hsize offset
      have hwritten : path.isEmpty = false := by simpa using hpath
      exact ⟨readNumber_offsetText hsize, ⟨true, false⟩, rfl,
        Request.ofArguments_of_written hwritten (by decide) (not_conflict_of_ofArguments hasks) _ _⟩

/-- A text of two letters, its record between two bytes that are none of it, and the text again. -/
theorem encode_decodes_letters :
    let files : String → DiskEntry :=
      fun _ => .file ([0xff].toByteArray ++ [3, 0, 0x68, 0x69, 0].toByteArray ++ [0xee].toByteArray)
    let entry : RecordEntry := ⟨"0x000001", 5, "string", some "0x00", some "hi"⟩
    let answer :=
      run ["decode", "-g0x51", "--size-t=2", "--json", "--offset", "1", "chunk"] files
    run ["encode", "-g", "0x51", "--size-t", "2", "hi"] files = ⟨0, ["03 00 68 69 00"], []⟩ ∧
      Encoding.read? (run ["--json", "encode", "-g", "0x51", "--size-t", "2", "hi"] files).stdout =
        some ⟨"legacy", 5, [3, 0, 0x68, 0x69, 0]⟩ ∧
      answer = ⟨0, (Product.records .legacy #[entry]).toJson.lines, []⟩ ∧
      Listing.read? answer.stdout = some ⟨"legacy", [entry]⟩ := by
  intro files entry answer
  let options : FormatOptions := ⟨"0x51", 2, false, none⟩
  have hasks : Request.ofArguments ["encode", "-g", "0x51", "--size-t", "2", "hi"] =
      .ok (.run ⟨false, false⟩ (.encode options (some "hi"))) := by decide +kernel
  have hrun : run ["encode", "-g", "0x51", "--size-t", "2", "hi"] files =
      ⟨0, ["03 00 68 69 00"], []⟩ := by decide +kernel
  have hdecode : AsksForJson ["decode", "-g0x51", "--size-t=2", "--json", "--offset", "1", "chunk"]
      "chunk" options (some "1") 1 := ⟨⟨true, false⟩, rfl, by decide +kernel⟩
  have hformat : options.resolve false =
      .ok ⟨0x51, ⟨2, by decide, by decide⟩, .little, false⟩ := by decide +kernel
  obtain ⟨-, -, hbytes⟩ := encode_decodes hasks hformat rfl (by decide) files
  obtain ⟨bytes, hprints, hjson, hreads⟩ := hbytes (congrArg Outcome.exit hrun)
  obtain ⟨line, hline, hpairs⟩ := (hprints _ _ files hasks).1 rfl
  rw [hrun] at hline
  cases hline
  have hread : Hex.readPairs? "03 00 68 69 00".toList = some [3, 0, 0x68, 0x69, 0] := by
    decide +kernel
  have hsame : bytes.data.toList = [3, 0, 0x68, 0x69, 0] :=
    Option.some.inj (hpairs.symm.trans hread)
  have hrecord : bytes = [3, 0, 0x68, 0x69, 0].toByteArray :=
    ByteArray.ext (Array.ext' (hsame.trans (by decide)))
  subst hrecord
  have hfound := (hreads [0xff].toByteArray [0xee].toByteArray "chunk").1 (some "1") _ files hdecode
    (by decide +kernel) rfl
  have hentry : textEntry .legacy [0xff].toByteArray.size [3, 0, 0x68, 0x69, 0].toByteArray.size
      (some "hi") = entry := by decide +kernel
  rw [hentry] at hfound
  exact ⟨hrun, ((hprints _ _ files (hjson rfl)).2 rfl).2, hfound⟩

end CommandLine

end ChunkStrings
