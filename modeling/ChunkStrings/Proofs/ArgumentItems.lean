import ChunkStrings.CommandLine.Arguments

/-!
# Arguments are items in a row

Reading the arguments of a place looks like a walk with many turns: letters that are joined, names
whose value is attached or comes next, words before and behind two dashes. What it does to the
collection is simple, though. It adds items one after another, options with their values and
words, until it comes to an end; and neither the items nor the end depend on what was collected
before (`exists_adds_readArguments`). A mistake in the arguments is such an end, and an item that
is refused is a mistake as well, but one that does depend on the collection.

So a statement about everything that is collected is an induction on items, and does not go
through the turns again. The first of them is that what is kept by every option and every word is
kept by all arguments (`readArguments_preserves`).
-/

namespace ChunkStrings.CommandLine

/-! ### What succeeds and what fails -/

section Results

variable {ε ε' α β : Type} {fault : ε} {first : Except ε α} {next : α → Except ε β}
  {make : ε → ε'} {change : α → β}

/-- Two readings in a row succeed if the first does and then the second. -/
theorem bind_eq_ok {result : β} :
    first >>= next = .ok result ↔ ∃ value, first = .ok value ∧ next value = .ok result := by
  cases first with
  | error fault =>
    constructor
    · rintro ⟨⟩
    · rintro ⟨value, h, -⟩
      cases h
  | ok value =>
    constructor
    · exact fun h => ⟨value, rfl, h⟩
    · rintro ⟨_, h, hnext⟩
      cases h
      exact hnext

/-- They fail if the first does, or else the second. -/
theorem bind_eq_error : first >>= next = .error fault ↔
    first = .error fault ∨ ∃ value, first = .ok value ∧ next value = .error fault := by
  cases first with
  | error given =>
    constructor
    · rintro ⟨⟩
      exact .inl rfl
    · rintro (h | ⟨value, h, -⟩)
      · cases h
        rfl
      · cases h
  | ok value =>
    constructor
    · exact fun h => .inr ⟨value, rfl, h⟩
    · rintro (h | ⟨_, h, hnext⟩)
      · cases h
      · cases h
        exact hnext

/-- What succeeded is passed on. -/
theorem ok_bind (value : α) (next : α → Except ε β) : (Except.ok value >>= next) = next value :=
  rfl

/-- A failure that is put into other words is no result. -/
theorem mapError_eq_ok {value : α} : first.mapError make = .ok value ↔ first = .ok value := by
  cases first with
  | error failure => exact ⟨nofun, nofun⟩
  | ok given =>
    constructor <;>
    · rintro ⟨⟩
      rfl

theorem mapError_eq_error {fault : ε'} :
    first.mapError make = .error fault ↔ ∃ cause, first = .error cause ∧ make cause = fault := by
  cases first with
  | error failure =>
    constructor
    · rintro ⟨⟩
      exact ⟨failure, rfl, rfl⟩
    · rintro ⟨_, ⟨⟩, rfl⟩
      rfl
  | ok given =>
    constructor
    · rintro ⟨⟩
    · rintro ⟨_, ⟨⟩, -⟩

theorem map_eq_ok {result : β} :
    first.map change = .ok result ↔ ∃ value, first = .ok value ∧ change value = result := by
  cases first <;> simp [Except.map]

theorem map_eq_error : first.map change = .error fault ↔ first = .error fault := by
  cases first <;> simp [Except.map]

end Results

section Fields

variable {α : Type} {value : α}

theorem accept_eq_ok {name : OptionName} {read : Option α} :
    accept name read = .ok value ↔ read = some value := by
  cases read <;> simp [accept]

theorem setOnce_eq_ok {name : OptionName} {old new : Option α} :
    setOnce name old value = .ok new ↔ old = none ∧ new = some value := by
  cases old <;> simp [setOnce, eq_comm]

theorem switchOnce_eq_ok {name : OptionName} {old new : Bool} :
    switchOnce name old = .ok new ↔ old = false ∧ new = true := by
  cases old <;> simp [switchOnce, eq_comm]

theorem need_eq_ok {name : String} {given : Option α} :
    need name given = .ok value ↔ given = some value := by
  cases given <;> simp [need]

end Fields

variable {level : Level} {collected collected' : Collected}

/-! ### The turns of the reading -/

section Turns

variable {argument : String} {arguments : List String}

/-- Reads on behind an argument that is made of options, whose last one may wait for its value. -/
def readPending (level : Level) (arguments : List String)
    (read : Collected × Option OptionName) :
    Except Ending (Collected × Option (CommandName × List String)) :=
  match read.2 with
  | none => readArguments level read.1 arguments
  | some name =>
    match arguments with
    | [] => throw (.fault (.valueMissing name.long))
    | value :: arguments =>
      if Shape.ofArgument value = .word then do
        readArguments level (← read.1.add name value) arguments
      else throw (.fault (.valueMissing name.long))

theorem readArguments_of_separator (h : Shape.ofArgument argument = .separator) :
    readArguments level collected (argument :: arguments) =
      (collected.addWords level arguments).map (·, none) := by
  unfold readArguments
  rw [h]
  cases collected.addWords level arguments <;> rfl

theorem readArguments_of_command (h : Shape.ofArgument argument = .word) {command : CommandName}
    (hcommand : CommandName.ofWord? argument = some command) :
    readArguments .top collected (argument :: arguments) =
      .ok (collected, some (command, arguments)) := by
  unfold readArguments
  rw [h, hcommand]

theorem readArguments_of_word (h : Shape.ofArgument argument = .word)
    (hcommand : level = .top → CommandName.ofWord? argument = none) :
    readArguments level collected (argument :: arguments) =
      collected.addWord level argument >>= (readArguments level · arguments) := by
  conv => lhs; unfold readArguments
  rw [h]
  dsimp only
  split
  · rename_i hword
    cases (hcommand rfl).symm.trans hword
  · rfl

theorem readArguments_of_options (hword : Shape.ofArgument argument ≠ .word)
    (hseparator : Shape.ofArgument argument ≠ .separator) :
    readArguments level collected (argument :: arguments) =
      readOption level collected (Shape.ofArgument argument) >>= readPending level arguments := by
  conv => lhs; unfold readArguments
  split
  · contradiction
  · contradiction
  · rfl

end Turns

/-! ### What is added -/

/-- What is added to a collection: an option and its value, or a word. -/
inductive Item where
  /-- An option; the value counts for those only that take one. -/
  | option (name : OptionName) (value : String)
  /-- A word that is no option. -/
  | word (word : String)

/-- Adds an item that is found at a place. -/
def Collected.addItem (level : Level) (collected : Collected) : Item → Except Ending Collected
  | .option name value => collected.add name value
  | .word word => collected.addWord level word

/-- **A reading that only adds**: whatever was collected before, it adds these items one after
another, and comes to an end that does not depend on it. -/
def Adds {α : Type} (level : Level) (items : List Item) (ending : Except Ending α)
    (reading : Collected → Except Ending (Collected × α)) : Prop :=
  ∀ collected, reading collected =
    items.foldlM (Collected.addItem level) collected >>= fun added => ending.map (added, ·)

section Adding

variable {α β : Type} {items front : List Item} {ending : Except Ending β} {arguments : List String}

/-- Such a reading succeeds where its items can be added and its end is a good one. -/
theorem Adds.eq_ok {reading : Collected → Except Ending (Collected × β)} {result : β}
    (h : Adds level items ending reading) : reading collected = .ok (collected', result) ↔
      items.foldlM (Collected.addItem level) collected = .ok collected' ∧ ending = .ok result := by
  rw [h collected]
  constructor
  · intro heq
    obtain ⟨added, hadded, hending⟩ := bind_eq_ok.mp heq
    obtain ⟨value, rfl, hvalue⟩ := map_eq_ok.mp hending
    cases hvalue
    exact ⟨hadded, rfl⟩
  · rintro ⟨hadded, rfl⟩
    exact bind_eq_ok.mpr ⟨_, hadded, rfl⟩

/-- What adds nothing comes to its end at once. -/
theorem adds_nil (level : Level) (ending : Except Ending α) :
    Adds level [] ending fun collected => ending.map (collected, ·) :=
  fun _ => rfl

theorem Adds.cons {reading : Collected → Except Ending (Collected × β)}
    (h : Adds level items ending reading) (item : Item) :
    Adds level (item :: items) ending
      fun collected => collected.addItem level item >>= reading := by
  intro collected
  rw [List.foldlM_cons, bind_assoc]
  exact congrArg _ (funext h)

/-- **Readings in a row add what they add, in a row.** -/
theorem Adds.bind {first : Collected → Except Ending (Collected × α)}
    {next : Collected × α → Except Ending (Collected × β)} {value : α}
    (hfirst : Adds level front (.ok value) first)
    (hnext : Adds level items ending fun collected => next (collected, value)) :
    Adds level (front ++ items) ending fun collected => first collected >>= next := by
  intro collected
  simp only [hfirst collected, List.foldlM_append, bind_assoc]
  exact congrArg _ (funext hnext)

/-- Behind a reading that comes to a bad end, nothing is added any more. -/
theorem Adds.bind_error {first : Collected → Except Ending (Collected × α)}
    {next : Collected × α → Except Ending (Collected × β)} {fault : Ending}
    (h : Adds level front (.error fault) first) :
    Adds level front (.error fault) fun collected => first collected >>= next := by
  intro collected
  simp only [h collected, bind_assoc]
  rfl

theorem exists_adds_readLetters (level : Level) (letters : List Char) :
    ∃ items ending, Adds level items ending (readLetters level · letters) := by
  induction letters with
  | nil => exact ⟨[], _, adds_nil level (.ok none)⟩
  | cons letter letters ih =>
    simp only [readLetters]
    cases level.byLetter? letter with
    | none => exact ⟨[], _, adds_nil level (.error _)⟩
    | some name =>
      cases htakes : name.takesValue with
      | false =>
        obtain ⟨items, ending, h⟩ := ih
        simp only [htakes, Bool.false_eq_true, if_false]
        exact ⟨_, _, h.cons (.option name "")⟩
      | true =>
        have hvalue (value : String) :=
          (adds_nil level (.ok (none : Option OptionName))).cons (.option name value)
        simp only [htakes, if_true]
        cases letters with
        | nil => exact ⟨[], _, adds_nil level (.ok (some name))⟩
        | cons c value =>
          by_cases hc : c = '='
          · subst hc
            exact ⟨_, _, hvalue (String.ofList value)⟩
          · have hattached := hvalue (String.ofList (c :: value))
            refine ⟨_, _, fun collected => Eq.trans ?_ (hattached collected)⟩
            split
            · rename_i heq
              cases heq
            · rename_i heq
              exact absurd (List.head_eq_of_cons_eq heq) hc
            · rfl

theorem exists_adds_readLong (level : Level) (text : List Char) :
    ∃ items ending, Adds level items ending (readLong level · text) := by
  simp only [readLong]
  cases level.byName? (String.ofList (text.takeWhile (· != '='))) with
  | none => exact ⟨[], _, adds_nil level (.error _)⟩
  | some name =>
    have hvalue (value : String) :=
      (adds_nil level (.ok (none : Option OptionName))).cons (.option name value)
    cases text.dropWhile (· != '=') with
    | nil =>
      dsimp only
      cases name.takesValue with
      | false => exact ⟨_, _, hvalue ""⟩
      | true => exact ⟨[], _, adds_nil level (.ok (some name))⟩
    | cons _ value =>
      dsimp only
      cases name.takesValue with
      | false => exact ⟨[], _, adds_nil level (.error _)⟩
      | true => exact ⟨_, _, hvalue (String.ofList value)⟩

theorem exists_adds_readOption (level : Level) (shape : Shape) :
    ∃ items ending, Adds level items ending (readOption level · shape) := by
  cases shape with
  | long text => exact exists_adds_readLong level text
  | letters text => exact exists_adds_readLetters level text
  | separator | word => exact ⟨[], _, adds_nil level (.ok none)⟩

/-- The option that waits for its value is added with it, and what is behind them is read. -/
theorem exists_adds_readPending (pending : Option OptionName)
    (hrest : ∀ rest : List String, rest.length ≤ arguments.length →
      ∃ items ending, Adds level items ending (readArguments level · rest)) :
    ∃ items ending, Adds level items ending fun collected =>
      readPending level arguments (collected, pending) := by
  cases pending with
  | none => exact hrest arguments (Nat.le_refl _)
  | some name =>
    cases arguments with
    | nil => exact ⟨[], _, adds_nil level (.error _)⟩
    | cons value arguments =>
      simp only [readPending]
      by_cases hword : Shape.ofArgument value = .word
      · obtain ⟨items, ending, h⟩ := hrest arguments (Nat.le_succ _)
        simp only [hword, if_true]
        exact ⟨_, _, h.cons (.option name value)⟩
      · simp only [hword, if_false]
        exact ⟨[], _, adds_nil level (.error _)⟩

/-- **Arguments are items in a row**, whatever was collected before them. The induction is on the
number of arguments, since an option may take the next one with it. -/
theorem exists_adds_readArguments (level : Level) (arguments : List String) :
    ∃ items ending, Adds level items ending (readArguments level · arguments) := by
  induction hlength : arguments.length using Nat.strongRecOn generalizing arguments with
  | ind length ih =>
    cases arguments with
    | nil => exact ⟨[], _, adds_nil level (.ok none)⟩
    | cons argument arguments =>
      have hrest : ∀ rest : List String, rest.length ≤ arguments.length →
          ∃ items ending, Adds level items ending (readArguments level · rest) := by
        intro rest hle
        rw [List.length_cons] at hlength
        exact ih rest.length (by omega) rest rfl
      by_cases hseparator : Shape.ofArgument argument = .separator
      · refine ⟨arguments.map .word, .ok none, fun collected => ?_⟩
        refine (readArguments_of_separator hseparator).trans ?_
        rw [List.foldlM_map]
        rfl
      by_cases hword : Shape.ofArgument argument = .word
      · by_cases hcommand : level = .top ∧ ∃ name, CommandName.ofWord? argument = some name
        · obtain ⟨rfl, name, hname⟩ := hcommand
          exact ⟨[], .ok _, fun collected => readArguments_of_command hword hname⟩
        · obtain ⟨items, ending, h⟩ := hrest arguments (Nat.le_refl _)
          refine ⟨.word argument :: items, ending, fun collected => ?_⟩
          refine Eq.trans (readArguments_of_word hword fun htop => ?_)
            (h.cons (.word argument) collected)
          exact Option.eq_none_iff_forall_ne_some.mpr fun name hname =>
            hcommand ⟨htop, name, hname⟩
      · obtain ⟨front, ending, hfront⟩ := exists_adds_readOption level (Shape.ofArgument argument)
        have hread : (readArguments level · (argument :: arguments)) = fun collected =>
            readOption level collected (Shape.ofArgument argument) >>=
              readPending level arguments :=
          funext fun _ => readArguments_of_options hword hseparator
        rw [hread]
        cases ending with
        | error fault => exact ⟨front, _, hfront.bind_error⟩
        | ok pending =>
          obtain ⟨items, ending, h⟩ := exists_adds_readPending pending hrest
          exact ⟨front ++ items, ending, hfront.bind h⟩

end Adding

/-! ### What holds of everything that is collected -/

section Preserving

variable {P : Collected → Prop}

/-- **What is kept when an option is added.** -/
def KeptByAdd (P : Collected → Prop) : Prop :=
  ∀ {collected collected' name value}, P collected →
    collected.add name value = .ok collected' → P collected'

/-- **What is kept when a word is added** at a place. -/
def KeptByWord (level : Level) (P : Collected → Prop) : Prop :=
  ∀ {collected collected' word}, P collected →
    collected.addWord level word = .ok collected' → P collected'

/-- What is kept by every option and every word is kept by items in a row. -/
theorem foldlM_addItem_preserves (hadd : KeptByAdd P) (hword : KeptByWord level P)
    {items : List Item} (hP : P collected)
    (h : items.foldlM (Collected.addItem level) collected = .ok collected') : P collected' := by
  induction items generalizing collected with
  | nil =>
    cases h
    exact hP
  | cons item items ih =>
    rw [List.foldlM_cons] at h
    obtain ⟨added, hadded, hrest⟩ := bind_eq_ok.mp h
    cases item with
    | option name value => exact ih (hadd hP hadded) hrest
    | word word => exact ih (hword hP hadded) hrest

/-- **What is kept by every option and every word is kept by all arguments.** -/
theorem readArguments_preserves (hadd : KeptByAdd P) (hword : KeptByWord level P)
    {arguments : List String} {rest : Option (CommandName × List String)} (hP : P collected)
    (h : readArguments level collected arguments = .ok (collected', rest)) : P collected' := by
  obtain ⟨items, ending, hadds⟩ := exists_adds_readArguments level arguments
  exact foldlM_addItem_preserves hadd hword hP (hadds.eq_ok.mp h).1

end Preserving

end ChunkStrings.CommandLine
