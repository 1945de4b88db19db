import ChunkStrings.Proofs.Spelling

/-!
# A switch in front of a command line

Two options belong to no command, `--json` and `--verbose`. If one of them is not among the
arguments of an invocation, it can be put in front of them, and nothing else changes in what is
asked for (`Request.ofArguments_switch`).

Arguments are items that are added one after another, whatever was collected before
(`exists_adds_readArguments`), so the switch may be on when the first of them is added. An item
is refused because of the switch only if it is the switch again; then it would be on in the end
without the one in front, too, since nothing switches it off.
-/

namespace ChunkStrings.CommandLine

/-- The options that belong to no command. -/
inductive Switch where
  /-- Print results as JSON. -/
  | json
  /-- Log what is done. -/
  | verbose
  deriving DecidableEq

/-- The option that a switch is. -/
def Switch.name : Switch → OptionName
  | json => .json
  | verbose => .verbose

/-- A switch as an argument. -/
def Switch.argument : Switch → String
  | json => "--json"
  | verbose => "-v"

/-- Whether a switch is on. -/
def Settings.has (settings : Settings) : Switch → Bool
  | .json => settings.json
  | .verbose => settings.verbose

/-- The same settings with a switch on. -/
def Settings.switchOn (settings : Settings) : Switch → Settings
  | .json => { settings with json := true }
  | .verbose => { settings with verbose := true }

/-- Whether a switch has been collected. -/
def Collected.has (collected : Collected) : Switch → Bool
  | .json => collected.json
  | .verbose => collected.verbose

/-- The same collection with a switch on. -/
def Collected.switchOn (collected : Collected) : Switch → Collected
  | .json => { collected with json := true }
  | .verbose => { collected with verbose := true }

variable {level : Level} {collected collected' : Collected} {switch : Switch} {name : OptionName}
  {items : List Item} {arguments : List String}

/-! ### Items behind a switch -/

/-- An option other than the switch is added all the same. -/
theorem Collected.add_switchOn (h : name ≠ switch.name) (value : String) :
    (collected.switchOn switch).add name value =
      (collected.add name value).map (·.switchOn switch) := by
  change _ = (fun added : Collected => added.switchOn switch) <$> collected.add name value
  cases switch <;> cases name <;> first
    | exact absurd rfl h
    | rfl
    | simp only [Collected.add, Collected.switchOn, map_bind, map_pure]

/-- A word is added all the same. -/
theorem Collected.addWord_switchOn (word : String) :
    (collected.switchOn switch).addWord level word =
      (collected.addWord level word).map (·.switchOn switch) := by
  have hword : (collected.switchOn switch).word = collected.word := by cases switch <;> rfl
  simp only [Collected.addWord, hword]
  cases level with
  | top => rfl
  | decode =>
    cases collected.word with
    | some _ => rfl
    | none =>
      dsimp only
      split
      · rfl
      · cases switch <;> rfl
  | encode =>
    cases collected.word with
    | some _ => rfl
    | none => cases switch <;> rfl

/-- Behind the switch itself, it is on. -/
theorem Collected.has_of_add_name {value : String}
    (h : collected.add switch.name value = .ok collected') : collected'.has switch = true := by
  cases switch <;>
  · obtain ⟨on, hon, h⟩ := bind_eq_ok.mp h
    cases h
    exact (switchOnce_eq_ok.mp hon).2

/-- To switch on what is on changes nothing. -/
theorem Collected.has_iff :
    collected.has switch = true ↔ collected.switchOn switch = collected := by
  obtain ⟨json, verbose, _, _, _, _, _, _, _, _⟩ := collected
  cases switch <;> simp [has, switchOn, eq_comm]

/-- No option switches it off. -/
theorem keptByAdd_has (switch : Switch) : KeptByAdd (·.has switch = true) := by
  intro collected collected' name value hon h
  by_cases hname : name = switch.name
  · subst hname
    exact Collected.has_of_add_name h
  · have hcommutes : (collected.switchOn switch).add name value = _ :=
      Collected.add_switchOn hname value
    rw [Collected.has_iff.mp hon, h] at hcommutes
    exact Collected.has_iff.mpr (Except.ok.inj hcommutes).symm

/-- No word switches it off. -/
theorem keptByWord_has (level : Level) (switch : Switch) :
    KeptByWord level (·.has switch = true) := by
  intro collected collected' word hon h
  have hcommutes : (collected.switchOn switch).addWord level word = _ :=
    Collected.addWord_switchOn word
  rw [Collected.has_iff.mp hon, h] at hcommutes
  exact Collected.has_iff.mpr (Except.ok.inj hcommutes).symm

/-- **Items that leave a switch off are added behind it, too.** -/
theorem foldlM_addItem_switchOn
    (h : items.foldlM (Collected.addItem level) collected = .ok collected')
    (hoff : collected'.has switch = false) :
    items.foldlM (Collected.addItem level) (collected.switchOn switch) =
      .ok (collected'.switchOn switch) := by
  induction items generalizing collected with
  | nil =>
    cases h
    rfl
  | cons item items ih =>
    rw [List.foldlM_cons] at h ⊢
    obtain ⟨added, hadded, hrest⟩ := bind_eq_ok.mp h
    refine bind_eq_ok.mpr ⟨added.switchOn switch, ?_, ih hrest⟩
    cases item with
    | word word => exact (Collected.addWord_switchOn word).trans (congrArg _ hadded)
    | option name value =>
      have hname : name ≠ switch.name := by
        rintro rfl
        have hon := foldlM_addItem_preserves (keptByAdd_has switch) (keptByWord_has level switch)
          (Collected.has_of_add_name hadded) hrest
        cases hoff.symm.trans hon
      exact (Collected.add_switchOn hname value).trans (congrArg _ hadded)

/-! ### Command lines behind a switch -/

theorem readArguments_switchOn {rest : Option (CommandName × List String)}
    (h : readArguments level collected arguments = .ok (collected', rest))
    (hoff : collected'.has switch = false) :
    readArguments level (collected.switchOn switch) arguments =
      .ok (collected'.switchOn switch, rest) := by
  obtain ⟨items, ending, hadds⟩ := exists_adds_readArguments level arguments
  obtain ⟨hadded, hending⟩ := hadds.eq_ok.mp h
  exact hadds.eq_ok.mpr ⟨foldlM_addItem_switchOn hadded hoff, hending⟩

/-- The first argument is a switch. -/
theorem readArguments_switch (switch : Switch) (arguments : List String) :
    readArguments .top .empty (switch.argument :: arguments) =
      readArguments .top (Collected.empty.switchOn switch) arguments := by
  have hread : readOption .top .empty (Shape.ofArgument switch.argument) =
      .ok (Collected.empty.switchOn switch, none) := by cases switch <;> rfl
  rw [readArguments_of_options (by cases switch <;> decide) (by cases switch <;> decide), hread]
  rfl

/-- **What was collected in front of the name of a command counts for the settings only.** -/
theorem exists_settings_of_readCommand {before : Collected} {name : CommandName}
    {settings : Settings} {command : Command}
    (h : readCommand before name arguments = .ok (.run settings command)) :
    ∃ behind, settings = readCommand.settings before behind ∧ ∀ before',
      readCommand before' name arguments =
        .ok (.run (readCommand.settings before' behind) command) := by
  cases name with
  | decode | encode =>
    obtain ⟨⟨behind, rest⟩, hread, h⟩ := bind_eq_ok.mp h
    obtain ⟨command, hcommand, h⟩ := bind_eq_ok.mp h
    cases h
    exact ⟨behind, rfl, fun before' =>
      bind_eq_ok.mpr ⟨_, hread, bind_eq_ok.mpr ⟨command, hcommand, rfl⟩⟩⟩
  | help => exact absurd h readCommand_help_ne

/-- **A switch in front of a command line that is without it** changes nothing but that it is on. -/
theorem Request.ofArguments_switch (switch : Switch) {settings : Settings} {command : Command}
    (h : ofArguments arguments = .ok (.run settings command)) (hoff : settings.has switch = false) :
    ofArguments (switch.argument :: arguments) =
      .ok (.run (settings.switchOn switch) command) := by
  obtain ⟨⟨before, rest⟩, hread, hrest⟩ := bind_eq_ok.mp (ofArguments_run_iff.mp h)
  cases rest with
  | none => cases hrest
  | some rest =>
    obtain ⟨behind, rfl, hcommand⟩ := exists_settings_of_readCommand hrest
    have hbefore : before.has switch = false := by
      cases switch <;> exact (Bool.or_eq_false_iff.mp hoff).1
    have hsettings : readCommand.settings (before.switchOn switch) behind =
        (readCommand.settings before behind).switchOn switch := by
      cases switch <;> rfl
    refine ofArguments_run_iff.mpr (bind_eq_ok.mpr ⟨(before.switchOn switch, some rest), ?_, ?_⟩)
    · exact (readArguments_switch switch arguments).trans (readArguments_switchOn hread hbefore)
    · exact hsettings ▸ hcommand (before.switchOn switch)

end ChunkStrings.CommandLine
