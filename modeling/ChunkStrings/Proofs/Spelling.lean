import ChunkStrings.CommandLine.Outcome
import ChunkStrings.Proofs.ArgumentItems
import ChunkStrings.Proofs.Numerals

/-!
# One way to write a command line

The grammar of the command line leaves much open: the order of the options, letters or long
names, values that are attached or stand by themselves. For what is said about decoding, one
way of writing is enough, `decodeArguments`: every option by its long name with its value
attached, and the path behind two dashes. Whatever command line asks for a decoding, this way
of writing asks for the same (`Request.ofArguments_decodeArguments`).

For this, what has been read is followed in both directions. Forwards, an option that is written
this way is added to what was collected, whatever its value looks like
(`readArguments_argument`). Backwards, what holds at first and is kept when an option or a word
is added holds in the end (`readArguments_preserves`). The path and the count that a command
line asks for are therefore ones that can be written: the path is not empty, and the count is
below the limit of numerals. And no command is asked for, be it to decode or to encode, with a
byte order that is told in two ways (`not_conflict_of_ofArguments`).
-/

namespace ChunkStrings.CommandLine

/-! ### Options by their long names -/

/-- An option as a single argument: its long name, and its value behind an equals sign if it takes
one. -/
def OptionName.argument (name : OptionName) (value : String) : String :=
  String.ofList ('-' :: '-' :: name.long.toList ++
    if name.takesValue then '=' :: value.toList else [])

/-- The options that may stand at a place are found there by their long names. -/
theorem Level.byName?_long {level : Level} {name : OptionName} (h : name ∈ level.options) :
    level.byName? name.long = some name := by
  have hall : ∀ name ∈ level.options, level.byName? name.long = some name := by
    cases level <;> decide
  exact hall name h

theorem Shape.ofArgument_argument (name : OptionName) (value : String) :
    ofArgument (name.argument value) =
      .long (name.long.toList ++ if name.takesValue then '=' :: value.toList else []) := by
  have hfirst : ∃ c chars, name.long.toList = c :: chars := by
    cases name <;> exact ⟨_, _, rfl⟩
  obtain ⟨c, chars, hlong⟩ := hfirst
  rw [ofArgument, OptionName.argument, String.toList_ofList, hlong]
  rfl

variable {level : Level} {collected collected' : Collected} {name : OptionName}

/-- The value of an option that takes none does not count. -/
theorem Collected.add_of_not_takesValue (h : name.takesValue = false) (value : String) :
    collected.add name value = collected.add name "" := by
  cases name <;> first | rfl | cases h

/-- A long name ends where the equals sign is. -/
theorem readLong_argument (h : name ∈ level.options) (value : String) :
    readLong level collected
        (name.long.toList ++ if name.takesValue then '=' :: value.toList else []) =
      (collected.add name value).map (·, none) := by
  have hname : ∀ c ∈ name.long.toList, (c != '=') = true := by
    rw [← List.all_eq_true]
    cases name <;> rfl
  rw [readLong, List.takeWhile_append_of_pos hname, List.dropWhile_append_of_pos hname]
  cases htakes : name.takesValue with
  | false =>
    simp only [Bool.false_eq_true, if_false, List.takeWhile_nil, List.dropWhile_nil,
      List.append_nil, String.ofList_toList, Level.byName?_long h, htakes]
    rw [Collected.add_of_not_takesValue htakes value]
    cases collected.add name "" <;> rfl
  | true =>
    simp only [if_true, List.takeWhile_cons, List.dropWhile_cons, bne_self_eq_false,
      Bool.false_eq_true, if_false, List.append_nil, String.ofList_toList,
      Level.byName?_long h, htakes]
    cases collected.add name value <;> rfl

/-- **An option by its long name is added to what was collected.** -/
theorem readArguments_argument (h : name ∈ level.options) (value : String)
    (arguments : List String) :
    readArguments level collected (name.argument value :: arguments) =
      collected.add name value >>= fun collected => readArguments level collected arguments := by
  have hshape := Shape.ofArgument_argument name value
  rw [readArguments_of_options (by rw [hshape]; nofun) (by rw [hshape]; nofun), hshape, readOption,
    readLong_argument h]
  cases collected.add name value <;> rfl

/-- Adds an option if it is given. -/
def Collected.addGiven (collected : Collected) (option : OptionName × Option String) :
    Except Ending Collected :=
  match option.2 with
  | none => .ok collected
  | some value => collected.add option.1 value

/-- Options by their long names are added one after another. -/
theorem readArguments_options {options : List (OptionName × Option String)}
    (h : ∀ option ∈ options, option.1 ∈ level.options) (arguments : List String) :
    readArguments level collected
        (options.filterMap (fun option => option.2.map option.1.argument) ++ arguments) =
      options.foldlM Collected.addGiven collected >>=
        fun collected => readArguments level collected arguments := by
  induction options generalizing collected with
  | nil => rfl
  | cons option options ih =>
    obtain ⟨name, value⟩ := option
    obtain ⟨hfirst, hrest⟩ := List.forall_mem_cons.mp h
    rw [List.foldlM_cons, bind_assoc]
    cases value with
    | none => exact ih hrest
    | some value =>
      refine (readArguments_argument hfirst value _).trans ?_
      exact congrArg _ (funext fun collected => ih hrest)

/-! ### One way to write a decoding -/

/-- The options of a decoding, each with its value if it is given. -/
def decodeOptions (settings : Settings) (format : FormatOptions) (offset : Option String)
    (count : Nat) : List (OptionName × Option String) :=
  [(.json, if settings.json then some "" else none),
    (.verbose, if settings.verbose then some "" else none),
    (.bigEndian, if format.bigEndian then some "" else none),
    (.orderFlag, format.orderFlag.map fun flag => toString flag.toNat), (.offset, offset),
    (.generation, some format.generation), (.width, some (toString format.width.toNat)),
    (.count, some (toString count))]

/-- **The command line that asks for a decoding**, with every option by its long name. -/
def decodeArguments (settings : Settings) (path : String) (format : FormatOptions)
    (offset : Option String) (count : Nat) : List String :=
  "decode" ::
    ((decodeOptions settings format offset count).filterMap
        (fun option => option.2.map option.1.argument) ++
      ["--", path])

/-- What has been read of a decoding before its path. -/
def Collected.ofDecode (settings : Settings) (format : FormatOptions) (offset : Option String)
    (count : Nat) : Collected where
  json := settings.json
  verbose := settings.verbose
  generation := some format.generation
  width := some format.width
  bigEndian := format.bigEndian
  orderFlag := format.orderFlag
  offset := offset
  count := some count
  null := false
  word := none

variable {settings : Settings} {format : FormatOptions} {offset : Option String} {count : Nat}

/-- The options of a decoding are all different, so none is refused. -/
theorem foldlM_decodeOptions (hcount : count < Numeral.limit) :
    (decodeOptions settings format offset count).foldlM Collected.addGiven .empty =
      .ok (.ofDecode settings format offset count) := by
  obtain ⟨json, verbose⟩ := settings
  obtain ⟨generation, width, bigEndian, orderFlag⟩ := format
  have hstep : ∀ {option options} {first : Collected} (next : Collected),
      first.addGiven option = .ok next →
      (option :: options).foldlM Collected.addGiven first =
        options.foldlM Collected.addGiven next := by
    intro option options first next h
    rw [List.foldlM_cons, h]
    rfl
  have hbyte : ∀ name byte, accept name (byte? (toString (UInt8.toNat byte))) = .ok byte :=
    fun name byte => accept_eq_ok.mpr (byte?_toString byte)
  have hnumber : ∀ name, accept name (count? (toString count)) = .ok count :=
    fun name => accept_eq_ok.mpr (count?_toString hcount)
  rw [decodeOptions]
  -- one option after another is looked at, each of which finds its field empty
  rw [hstep { Collected.empty with json } (by cases json <;> rfl),
    hstep { Collected.empty with json, verbose } (by cases verbose <;> rfl),
    hstep { Collected.empty with json, verbose, bigEndian } (by cases bigEndian <;> rfl)]
  rw [hstep { Collected.empty with json, verbose, bigEndian, orderFlag } (by
    cases orderFlag with
    | none => rfl
    | some flag =>
      simp only [Collected.addGiven, Collected.add, Option.map_some, hbyte]
      rfl)]
  rw [hstep { Collected.empty with json, verbose, bigEndian, orderFlag, offset } (by
    cases offset <;> rfl)]
  simp only [List.foldlM_cons, List.foldlM_nil, Collected.addGiven, Collected.add, hbyte, hnumber]
  rfl

/-- They may all stand behind the name of the command. -/
theorem mem_options_of_mem_decodeOptions :
    ∀ option ∈ decodeOptions settings format offset count, option.1 ∈ Level.decode.options := by
  simp [decodeOptions, Level.options]

/-! ### What can be written -/

/-- **What is collected for a decoding can be written**: the path is not empty, and the count is
below the limit of numerals. -/
structure Collected.Written (collected : Collected) : Prop where
  /-- The path of a file is not empty. -/
  word_ne : ∀ word, collected.word = some word → word.isEmpty = false
  /-- A count is a numeral. -/
  count_lt : ∀ count, collected.count = some count → count < Numeral.limit

theorem Collected.written_empty : Collected.empty.Written := ⟨nofun, nofun⟩

/-- A word that was not there yet is a word at the place of decoding. -/
theorem keptByWord_written : KeptByWord .decode Collected.Written := by
  intro collected collected' word hwritten h
  unfold Collected.addWord at h
  split at h
  · cases h
  · cases h
  · split at h
    · cases h
    · rename_i hword
      cases h
      refine ⟨fun other hother => ?_, hwritten.count_lt⟩
      cases hother
      exact Bool.eq_false_iff.mpr hword
  · rename_i hlevel _
    cases hlevel

theorem keptByAdd_written : KeptByAdd Collected.Written := by
  intro collected collected' name value hwritten h
  cases name with
  | count =>
    obtain ⟨number, haccept, h⟩ := bind_eq_ok.mp h
    obtain ⟨count, hset, h⟩ := bind_eq_ok.mp h
    cases h
    refine ⟨hwritten.word_ne, fun other hother => ?_⟩
    obtain ⟨-, rfl⟩ := setOnce_eq_ok.mp hset
    cases hother
    exact count?_lt (accept_eq_ok.mp haccept)
  | help => cases h
  | version => cases h
  | json | verbose | bigEndian | null | generation | offset =>
    obtain ⟨_, -, h⟩ := bind_eq_ok.mp h
    cases h
    exact ⟨hwritten.word_ne, hwritten.count_lt⟩
  | width | orderFlag =>
    obtain ⟨_, -, h⟩ := bind_eq_ok.mp h
    obtain ⟨_, -, h⟩ := bind_eq_ok.mp h
    cases h
    exact ⟨hwritten.word_ne, hwritten.count_lt⟩

variable {arguments : List String} {path : String} {command : Command}

/-- To ask for help on a command is not to ask for the command. -/
theorem readCommand_help_ne {before : Collected} :
    readCommand before .help arguments ≠ .ok (.run settings command) := by
  intro h
  simp only [readCommand] at h
  split at h
  · cases h
  · split at h <;> cases h
  · cases h

/-- Behind the name of a command, its arguments are collected. -/
theorem exists_collected_of_readCommand {before : Collected} {name : CommandName}
    (h : readCommand before name arguments = .ok (.run settings command)) :
    ∃ collected : Collected,
      collected.Written ∧ collected.decode = .ok command ∨ collected.encode = .ok command := by
  cases name with
  | decode =>
    obtain ⟨⟨collected, rest⟩, hread, h⟩ := bind_eq_ok.mp h
    obtain ⟨command, hdecode, h⟩ := bind_eq_ok.mp h
    cases h
    exact ⟨collected, .inl ⟨readArguments_preserves keptByAdd_written keptByWord_written
      Collected.written_empty hread, hdecode⟩⟩
  | encode =>
    obtain ⟨⟨collected, rest⟩, -, h⟩ := bind_eq_ok.mp h
    obtain ⟨command, hencode, h⟩ := bind_eq_ok.mp h
    cases h
    exact ⟨collected, .inr hencode⟩
  | help => exact absurd h readCommand_help_ne

/-- What is asked for is what the arguments read as, unless help or the version is. -/
theorem Request.ofArguments_run_iff :
    ofArguments arguments = .ok (.run settings command) ↔
      read arguments = .ok (.run settings command) := by
  constructor
  · intro h
    unfold ofArguments at h
    split at h
    · rename_i hread
      cases h
      exact hread
    · cases h
    · cases h
    · cases h
  · intro h
    rw [ofArguments, h]

/-- What asks for a command has collected one. -/
theorem exists_collected_of_ofArguments
    (h : Request.ofArguments arguments = .ok (.run settings command)) :
    ∃ collected : Collected,
      collected.Written ∧ collected.decode = .ok command ∨ collected.encode = .ok command := by
  obtain ⟨⟨before, rest⟩, -, h⟩ := bind_eq_ok.mp (Request.ofArguments_run_iff.mp h)
  cases rest with
  | none => cases h
  | some rest => exact exists_collected_of_readCommand h

/-- A decoding that has been collected. -/
theorem Collected.decode_eq_ok {collected : Collected} (h : collected.decode = .ok command) :
    ∃ path format, collected.word = some path ∧ collected.format = .ok format ∧
      command = .decode path format collected.offset (collected.count.getD 1) := by
  obtain ⟨path, hword, h⟩ := bind_eq_ok.mp h
  obtain ⟨format, hformat, h⟩ := bind_eq_ok.mp h
  cases h
  exact ⟨path, format, need_eq_ok.mp hword, hformat, rfl⟩

/-- An encoding that has been collected. -/
theorem Collected.encode_eq_ok {collected : Collected} (h : collected.encode = .ok command) :
    ∃ format text, collected.format = .ok format ∧ command = .encode format text := by
  obtain ⟨format, hformat, h⟩ := bind_eq_ok.mp h
  refine ⟨format, ?_⟩
  split at h <;> cases h
  · exact ⟨none, hformat, rfl⟩
  · exact ⟨some _, hformat, rfl⟩

/-- The two ways to tell the byte order exclude each other. -/
theorem Collected.not_conflict_of_format {collected : Collected}
    (h : collected.format = .ok format) :
    (format.bigEndian && format.orderFlag.isSome) = false := by
  obtain ⟨generation, -, h⟩ := bind_eq_ok.mp h
  split at h
  · cases h
  · rename_i hconflict
    cases h
    exact Bool.eq_false_iff.mpr hconflict

/-- **No command is asked for with a byte order that is told in both ways.** -/
theorem not_conflict_of_ofArguments
    (h : Request.ofArguments arguments = .ok (.run settings command)) :
    (command.options.bigEndian && command.options.orderFlag.isSome) = false := by
  obtain ⟨collected, ⟨-, h⟩ | h⟩ := exists_collected_of_ofArguments h
  · obtain ⟨path, format, -, hformat, rfl⟩ := Collected.decode_eq_ok h
    exact Collected.not_conflict_of_format hformat
  · obtain ⟨format, text, hformat, rfl⟩ := Collected.encode_eq_ok h
    exact Collected.not_conflict_of_format hformat

/-- **A decoding that can be asked for can be written down.** -/
theorem written_of_ofArguments
    (h : Request.ofArguments arguments = .ok (.run settings (.decode path format offset count))) :
    path.isEmpty = false ∧ count < Numeral.limit ∧
      (format.bigEndian && format.orderFlag.isSome) = false := by
  have hconflict := not_conflict_of_ofArguments h
  obtain ⟨collected, ⟨hwritten, h⟩ | h⟩ := exists_collected_of_ofArguments h
  · obtain ⟨word, options, hword, -, heq⟩ := Collected.decode_eq_ok h
    cases heq
    refine ⟨hwritten.word_ne _ hword, ?_, hconflict⟩
    cases hcount : collected.count with
    | none => decide
    | some count => exact hwritten.count_lt count hcount
  · obtain ⟨options, text, -, heq⟩ := Collected.encode_eq_ok h
    cases heq

/-- **What can be written down is asked for in the one way of writing it.** -/
theorem Request.ofArguments_of_written (hpath : path.isEmpty = false)
    (hcount : count < Numeral.limit)
    (hconflict : (format.bigEndian && format.orderFlag.isSome) = false) (settings : Settings)
    (offset : Option String) :
    ofArguments (decodeArguments settings path format offset count) =
      .ok (.run settings (.decode path format offset count)) := by
  have hcollected : readArguments .decode .empty
      ((decodeOptions settings format offset count).filterMap
          (fun option => option.2.map option.1.argument) ++ ["--", path]) =
        .ok ({ Collected.ofDecode settings format offset count with word := some path }, none) := by
    rw [readArguments_options mem_options_of_mem_decodeOptions, foldlM_decodeOptions hcount]
    refine (readArguments_of_separator rfl).trans ?_
    simp only [Collected.addWords, Collected.addWord, Collected.ofDecode, List.foldlM_cons, hpath]
    rfl
  have hformat : Collected.format
      { Collected.ofDecode settings format offset count with word := some path } =
        .ok format := by
    simp only [Collected.format, Collected.ofDecode, hconflict]
    rfl
  have hread : readCommand .empty .decode
      ((decodeOptions settings format offset count).filterMap
          (fun option => option.2.map option.1.argument) ++ ["--", path]) =
        .ok (.run settings (.decode path format offset count)) := by
    refine bind_eq_ok.mpr ⟨_, hcollected, bind_eq_ok.mpr ⟨.decode path format offset count, ?_, ?_⟩⟩
    · exact bind_eq_ok.mpr ⟨path, rfl, bind_eq_ok.mpr ⟨format, hformat, rfl⟩⟩
    · rfl
  exact ofArguments_run_iff.mpr (bind_eq_ok.mpr ⟨(.empty, some (.decode, _)), rfl, hread⟩)

/-- **Whatever can be asked for can be asked for in the one way of writing it**: if any command line
asks for a decoding of this file in this format, this one does, with any settings, offset and
count. -/
theorem Request.ofArguments_decodeArguments
    (h : ofArguments arguments = .ok (.run settings (.decode path format offset count)))
    (settings' : Settings) (offset' : Option String) {count' : Nat}
    (hcount : count' < Numeral.limit) :
    ofArguments (decodeArguments settings' path format offset' count') =
      .ok (.run settings' (.decode path format offset' count')) := by
  obtain ⟨hpath, -, hconflict⟩ := written_of_ofArguments h
  exact ofArguments_of_written hpath hcount hconflict settings' offset'

end ChunkStrings.CommandLine
