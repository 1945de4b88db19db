import ChunkStrings.Proofs.ArgumentItems
import ChunkStrings.Proofs.Numerals
import Mathlib.Algebra.Ring.Nat
import Mathlib.Data.List.DropRight
import Mathlib.Data.List.Forall2
import Mathlib.Data.Nat.Digits.Defs

/-!
# Which texts are numerals, and what is wrong with the others

A text that the user gives for a number is read from its first character to its last, with a value
that grows by one digit at a time. Here it is said without the reading what a numeral is and what
it is worth (`Numeral.Spells`), and where and for what reason a text is none (`Numeral.Mistake`);
the two together are all that reading can come to (`CommandLine.readNumber_grammar`).

The value that the reader holds is the positional value of the digits behind it. The digits in
front of some place can only be worth less than those in front of a later one, so the reader is
below the limit at every place before the last digit of a numeral, and the first place where
something is wrong is found whatever comes after it. So one statement is proved of a run of digits
that are there (`Numeral.digits_append_of_shows`), one of a character that cannot be passed
(`Numeral.digits_cons_of_offends`), and every text is a run of digits up to its end or up to such a
character (`Numeral.exists_run_of_digits`).
-/

namespace ChunkStrings

/-! ### Blanks at both ends -/

namespace Blank

/-- The code points of the property `White_Space`. -/
def whiteSpace : List Nat :=
  [0x09, 0x0a, 0x0b, 0x0c, 0x0d, 0x20, 0x85, 0xa0, 0x1680, 0x2000, 0x2001, 0x2002, 0x2003, 0x2004,
    0x2005, 0x2006, 0x2007, 0x2008, 0x2009, 0x200a, 0x2028, 0x2029, 0x202f, 0x205f, 0x3000]

theorem isBlank_iff {c : Char} : isBlank c ↔ c.toNat ∈ whiteSpace := by
  simp only [isBlank, whiteSpace, Bool.or_eq_true, Bool.and_eq_true, decide_eq_true_eq, beq_iff_eq,
    List.mem_cons, List.not_mem_nil, or_false]
  omega

/-- **What stands between the blanks at both ends** of a text: there are only blanks around it, and
none at its own ends. -/
def Trims (chars core : List Char) : Prop :=
  (∃ front back, chars = front ++ core ++ back ∧
    (∀ c ∈ front, isBlank c) ∧ ∀ c ∈ back, isBlank c) ∧
  (∀ c ∈ core.head?, isBlank c = false) ∧ ∀ c ∈ core.getLast?, isBlank c = false

/-- Blanks in front of a text are trimmed, and then the text is. -/
theorem trimStart_append {front : List Char} (h : ∀ c ∈ front, isBlank c) (chars : List Char) :
    trimStart (front ++ chars) = trimStart chars :=
  List.dropWhile_append_of_pos h

/-- **A text is trimmed to what stands between the blanks at its ends.** -/
theorem trim_eq_iff {chars core : List Char} : trim chars = core ↔ Trims chars core := by
  constructor
  · rintro rfl
    refine ⟨⟨chars.takeWhile isBlank, (trimStart chars).rtakeWhile isBlank, ?_, ?_, ?_⟩, ?_, ?_⟩
    · have hback : trim chars ++ (trimStart chars).rtakeWhile isBlank = trimStart chars :=
        List.rdropWhile_append_rtakeWhile
      rw [List.append_assoc, hback, trimStart, List.takeWhile_append_dropWhile]
    · exact fun c hc => List.mem_takeWhile_imp hc
    · exact fun c hc => List.mem_rtakeWhile_imp hc
    · intro c hc
      -- the first character is still there when the blanks at the end are not
      have hprefix : trim chars <+: trimStart chars := List.rdropWhile_prefix isBlank _
      have hhead := List.head?_dropWhile_not isBlank chars
      obtain ⟨rest, hrest⟩ := hprefix
      rw [← trimStart, ← hrest, List.head?_append, Option.mem_def.mp hc] at hhead
      exact hhead
    · intro c hc
      have hlast := List.head?_dropWhile_not isBlank (trimStart chars).reverse
      rw [trim, trimEnd, List.getLast?_reverse] at hc
      rw [Option.mem_def.mp hc] at hlast
      exact hlast
  · rintro ⟨⟨front, back, rfl, hfront, hback⟩, hhead, hlast⟩
    rw [trim, List.append_assoc, trimStart_append hfront]
    cases core with
    | nil =>
      have hnone : trimStart back = [] := List.dropWhile_eq_nil_iff.mpr hback
      rw [List.nil_append, hnone]
      rfl
    | cons c core =>
      have hstart : trimStart (c :: core ++ back) = c :: core ++ back := trimStart_eq_self hhead
      rw [hstart, trimEnd_append hback, trimEnd_eq_self hlast]

end Blank

namespace Numeral

/-! ### The parts of a numeral -/

/-- **The radix that a text announces**, and the characters behind the announcement: sixteen with a
mark of two characters, and ten without. -/
inductive Announces : List Char → Nat → List Char → Prop where
  /-- The mark is there, with a letter of either case. -/
  | hex {letter : Char} {body : List Char} (h : letter = 'x' ∨ letter = 'X') :
      Announces ('0' :: letter :: body) 16 body
  /-- The mark is not there. -/
  | decimal {body : List Char}
      (h : ∀ letter rest, body = '0' :: letter :: rest → letter ≠ 'x' ∧ letter ≠ 'X') :
      Announces body 10 body

/-- **What is behind the plus sign**, if there is one with something behind it. A sign that stands
alone is none, and is left where it is. -/
inductive AfterSign : List Char → List Char → Prop where
  /-- There is a sign. -/
  | sign {rest : List Char} (h : rest ≠ []) : AfterSign ('+' :: rest) rest
  /-- There is none. -/
  | none {body : List Char} (h : ∀ rest, rest ≠ [] → body ≠ '+' :: rest) : AfterSign body body

/-- **A character shows a digit of the radix**, which is a letter from ten on, of either case. -/
def Shows (radix : Nat) (c : Char) (digit : Nat) : Prop :=
  digit < radix ∧ (c = Nat.digitChar digit ∨ c = (Nat.digitChar digit).toUpper)

/-- **The positional value** of digits, the most significant one first. -/
def positional (radix : Nat) (values : List Nat) : Nat :=
  Nat.ofDigits radix values.reverse

/-- **The numerals of a radix and their values**: an optional plus sign and at least one digit, with
a positional value below the limit. -/
def Spells (radix : Nat) (body : List Char) (n : Nat) : Prop :=
  ∃ digits values, (body = digits ∨ body = '+' :: digits) ∧ digits ≠ [] ∧
    List.Forall₂ (Shows radix) digits values ∧ positional radix values = n ∧ n < limit

/-- **A character offends behind digits of this value**: it shows no digit, or one that takes the
value to the limit. -/
def Offends (radix value : Nat) (c : Char) : Fault → Prop
  | .empty => False
  | .badDigit => ∀ digit, ¬Shows radix c digit
  | .tooLarge => ∃ digit, Shows radix c digit ∧ limit ≤ radix * value + digit

/-- **What is wrong with a text first**: there is nothing to read, or, behind the sign and some
digits whose value is below the limit, there is a character that offends. -/
inductive Mistake (radix : Nat) : List Char → Fault → Prop where
  /-- There is nothing to read. -/
  | empty : Mistake radix [] .empty
  /-- The first character that offends. -/
  | offence {body front rest : List Char} {c : Char} {values : List Nat} {fault : Fault}
      (hsign : AfterSign body (front ++ c :: rest))
      (hfront : List.Forall₂ (Shows radix) front values) (hlt : positional radix values < limit)
      (hc : Offends radix (positional radix values) c fault) : Mistake radix body fault

/-- The radix of a text and the rest are what the text announces. -/
theorem body_eq_iff {chars rest : List Char} {radix : Nat} :
    body chars = (radix, rest) ↔ Announces chars radix rest := by
  constructor
  · intro h
    unfold body at h
    split at h
    · cases h
      exact .hex (.inl rfl)
    · cases h
      exact .hex (.inr rfl)
    · rename_i hlower hupper
      cases h
      refine .decimal fun letter rest heq => ⟨?_, ?_⟩
      · rintro rfl
        exact hlower rest heq
      · rintro rfl
        exact hupper rest heq
  · rintro (⟨rfl | rfl⟩ | h)
    · rfl
    · rfl
    · unfold body
      split
      · exact absurd rfl (h 'x' _ rfl).1
      · exact absurd rfl (h 'X' _ rfl).2
      · rfl

theorem Announces.le_sixteen {chars rest : List Char} {radix : Nat}
    (h : Announces chars radix rest) : 0 < radix ∧ radix ≤ 16 := by
  cases h <;> decide

theorem exists_afterSign (body : List Char) : ∃ rest, AfterSign body rest := by
  by_cases h : ∃ rest, rest ≠ [] ∧ body = '+' :: rest
  · obtain ⟨rest, hne, rfl⟩ := h
    exact ⟨rest, .sign hne⟩
  · exact ⟨body, .none fun rest hne heq => h ⟨rest, hne, heq⟩⟩

/-! ### Digits of either case -/

section Digits

variable {radix digit : Nat} {c : Char}

/-- A character that is so many places behind another one. -/
theorem eq_ofNat_add {first : Char} {place : Nat} (h : first.toNat + place = c.toNat) :
    c = Char.ofNat (first.toNat + place) := by
  rw [h, Char.ofNat_toNat]

/-- **The digits that the reader knows are those that characters show.** -/
theorem digit?_eq_some_iff (hradix : radix ≤ 16) :
    digit? radix c = some digit ↔ Shows radix c digit := by
  constructor
  · intro h
    have hlower : ∀ place < 10, Char.ofNat ('0'.toNat + place) = Nat.digitChar place := by decide
    have hletter : ∀ place < 6, Char.ofNat ('a'.toNat + place) = Nat.digitChar (place + 10) ∧
        Char.ofNat ('A'.toNat + place) = (Nat.digitChar (place + 10)).toUpper := by decide
    obtain ⟨hvalue, hlt⟩ := Option.filter_eq_some_iff.mp h
    rw [decide_eq_true_eq] at hlt
    refine ⟨hlt, ?_⟩
    simp only [Char.le_def, UInt32.le_iff_toNat_le] at hvalue
    split at hvalue
    · rename_i hrange
      have hplace : '0'.toNat + (c.toNat - '0'.toNat) = c.toNat := Nat.add_sub_cancel' hrange.1
      have hten : c.toNat - '0'.toNat < 10 := Nat.sub_lt_left_of_lt_add hrange.1
        (Nat.lt_succ_of_le hrange.2)
      cases hvalue
      exact .inl ((eq_ofNat_add hplace).trans (hlower _ hten))
    · split at hvalue
      · rename_i hrange
        have hplace : 'a'.toNat + (c.toNat - 'a'.toNat) = c.toNat := Nat.add_sub_cancel' hrange.1
        cases hvalue
        have hsix : c.toNat - 'a'.toNat + 10 < 6 + 10 := Nat.lt_of_lt_of_le hlt hradix
        exact .inl ((eq_ofNat_add hplace).trans (hletter _ (Nat.lt_of_add_lt_add_right hsix)).1)
      · split at hvalue
        · rename_i hrange
          have hplace : 'A'.toNat + (c.toNat - 'A'.toNat) = c.toNat := Nat.add_sub_cancel' hrange.1
          cases hvalue
          have hsix : c.toNat - 'A'.toNat + 10 < 6 + 10 := Nat.lt_of_lt_of_le hlt hradix
          exact .inr ((eq_ofNat_add hplace).trans (hletter _ (Nat.lt_of_add_lt_add_right hsix)).2)
        · cases hvalue
  · rintro ⟨hlt, rfl | rfl⟩
    · exact digit?_digitChar hradix hlt
    · have hall : ∀ radix ≤ 16, ∀ digit < radix,
          digit? radix (Nat.digitChar digit).toUpper = some digit := by decide
      exact hall radix hradix digit hlt

theorem digit?_eq_none_iff (hradix : radix ≤ 16) :
    digit? radix c = none ↔ ∀ digit, ¬Shows radix c digit := by
  rw [Option.eq_none_iff_forall_ne_some]
  exact forall_congr' fun digit => not_congr (digit?_eq_some_iff hradix)

/-- A sign shows no digit. -/
theorem digit?_plus (radix : Nat) : digit? radix '+' = none := rfl

end Digits

/-! ### Positional values -/

section Positional

variable {radix : Nat}

theorem positional_append_singleton (values : List Nat) (digit : Nat) :
    positional radix (values ++ [digit]) = radix * positional radix values + digit := by
  rw [positional, List.reverse_append, List.reverse_singleton, List.singleton_append,
    Nat.ofDigits_cons, Nat.add_comm, positional]

/-- More digits are worth no less. -/
theorem positional_le_append (hradix : 0 < radix) (values more : List Nat) :
    positional radix values ≤ positional radix (values ++ more) := by
  rw [positional, positional, List.reverse_append, Nat.ofDigits_append]
  exact Nat.le_add_left_of_le (Nat.le_mul_of_pos_left _ (Nat.pow_pos hradix))

end Positional

/-! ### Reading -/

theorem limit_eq : limit = 2 ^ 64 := rfl

/-- Before the first digit, the value is below the limit. -/
theorem positional_nil_lt (radix : Nat) : positional radix [] < limit := by
  change 0 < limit
  decide

section Reading

variable {radix n : Nat} {chars front body : List Char} {c : Char} {before values : List Nat}
  {fault : Fault}

/-- **Digits that are there are read**, as long as their value is below the limit: reading goes on
behind them with their positional value. -/
theorem digits_append_of_shows (hradix : 0 < radix ∧ radix ≤ 16) (before : List Nat)
    (hfront : List.Forall₂ (Shows radix) front values)
    (hlt : positional radix (before ++ values) < limit) (rest : List Char) :
    digits radix (positional radix before) (front ++ rest) =
      digits radix (positional radix (before ++ values)) rest := by
  induction hfront generalizing before with
  | nil => rw [List.append_nil, List.nil_append]
  | @cons c digit front values hc _ ih =>
    rw [List.append_cons] at hlt ⊢
    -- the value at this digit is no more than the value at the last one
    have hstep := Nat.lt_of_le_of_lt (positional_le_append hradix.1 _ values) hlt
    rw [positional_append_singleton] at hstep
    rw [List.cons_append, digits, (digit?_eq_some_iff hradix.2).mpr hc]
    simp only [hstep, if_true]
    rw [← positional_append_singleton]
    exact ih _ hlt

/-- **Where a character offends, reading ends** for this reason. -/
theorem digits_cons_of_offends (hradix : radix ≤ 16) {value : Nat}
    (hc : Offends radix value c fault) (rest : List Char) :
    digits radix value (c :: rest) = .error fault := by
  cases fault with
  | empty => exact hc.elim
  | badDigit => rw [digits, (digit?_eq_none_iff hradix).mpr hc]
  | tooLarge =>
    obtain ⟨digit, hshows, hlarge⟩ := hc
    rw [digits, (digit?_eq_some_iff hradix).mpr hshows]
    simp only [Nat.not_lt.mpr hlarge, if_false]

/-- A character is passed or it offends. -/
theorem passes_or_offends (hradix : radix ≤ 16) (value : Nat) (c : Char) :
    (∃ digit, Shows radix c digit ∧ radix * value + digit < limit) ∨
      ∃ fault, Offends radix value c fault := by
  cases hdigit : digit? radix c with
  | none => exact .inr ⟨.badDigit, (digit?_eq_none_iff hradix).mp hdigit⟩
  | some digit =>
    have hshows := (digit?_eq_some_iff hradix).mp hdigit
    rcases Nat.lt_or_ge (radix * value + digit) limit with hlt | hge
    · exact .inl ⟨digit, hshows, hlt⟩
    · exact .inr ⟨.tooLarge, digit, hshows, hge⟩

/-- **Every text is a run of digits up to its end, or up to a character that offends.** -/
theorem exists_run_of_digits (hradix : radix ≤ 16) (hlt : positional radix before < limit)
    (chars : List Char) : ∃ front rest values, chars = front ++ rest ∧
      List.Forall₂ (Shows radix) front values ∧ positional radix (before ++ values) < limit ∧
      (rest = [] ∨ ∃ c after fault, rest = c :: after ∧
        Offends radix (positional radix (before ++ values)) c fault) := by
  induction chars generalizing before with
  | nil => exact ⟨[], [], [], rfl, .nil, by rwa [List.append_nil], .inl rfl⟩
  | cons c chars ih =>
    rcases passes_or_offends hradix (positional radix before) c with
      ⟨digit, hshows, hstep⟩ | ⟨fault, hc⟩
    · rw [← positional_append_singleton] at hstep
      obtain ⟨front, rest, values, rfl, hfront, hvalues, hrest⟩ := ih hstep
      rw [← List.append_cons] at hvalues hrest
      exact ⟨c :: front, rest, digit :: values, rfl, .cons hshows hfront, hvalues, hrest⟩
    · rw [← List.append_nil before] at hlt hc
      exact ⟨[], c :: chars, [], rfl, .nil, hlt, .inr ⟨c, chars, fault, rfl, hc⟩⟩

/-- **Digits are read as their positional value**, and nothing else is. -/
theorem digits_eq_ok_iff (hradix : 0 < radix ∧ radix ≤ 16) :
    digits radix 0 chars = .ok n ↔
      ∃ values, List.Forall₂ (Shows radix) chars values ∧ positional radix values = n ∧
        n < limit := by
  constructor
  · intro h
    obtain ⟨front, rest, values, rfl, hfront, hlt, hrest⟩ :=
      exists_run_of_digits hradix.2 (positional_nil_lt radix) chars
    have hread := (digits_append_of_shows hradix [] hfront hlt rest).symm.trans h
    rcases hrest with rfl | ⟨c, after, fault, rfl, hc⟩
    · cases hread
      exact ⟨values, by rwa [List.append_nil], rfl, hlt⟩
    · rw [digits_cons_of_offends hradix.2 hc] at hread
      cases hread
  · rintro ⟨values, hchars, rfl, hlt⟩
    have hread := digits_append_of_shows hradix [] hchars hlt []
    rwa [List.append_nil] at hread

/-- **What ends the reading is the first character that offends.** -/
theorem digits_eq_error_iff (hradix : 0 < radix ∧ radix ≤ 16) :
    digits radix 0 chars = .error fault ↔
      ∃ front c rest values, chars = front ++ c :: rest ∧
        List.Forall₂ (Shows radix) front values ∧ positional radix values < limit ∧
        Offends radix (positional radix values) c fault := by
  constructor
  · intro h
    obtain ⟨front, rest, values, rfl, hfront, hlt, hrest⟩ :=
      exists_run_of_digits hradix.2 (positional_nil_lt radix) chars
    have hread := (digits_append_of_shows hradix [] hfront hlt rest).symm.trans h
    rcases hrest with rfl | ⟨c, after, found, rfl, hc⟩
    · cases hread
    · rw [digits_cons_of_offends hradix.2 hc] at hread
      cases hread
      exact ⟨front, c, after, values, rfl, hfront, hlt, hc⟩
  · rintro ⟨front, c, rest, values, rfl, hfront, hlt, hc⟩
    exact (digits_append_of_shows hradix [] hfront hlt _).trans
      (digits_cons_of_offends hradix.2 hc rest)

/-- Where something is behind the sign, the text is not empty. -/
theorem AfterSign.ne_nil {rest : List Char} (h : AfterSign body rest) (hne : rest ≠ []) :
    body ≠ [] := by
  cases h with
  | sign => exact List.cons_ne_nil _ _
  | none => exact hne

/-- The sign is passed over. -/
theorem ofChars_of_afterSign {rest : List Char} (h : AfterSign body rest) (hne : body ≠ []) :
    ofChars radix body = digits radix 0 rest := by
  cases h with
  | sign hrest =>
    unfold ofChars
    split <;> simp_all
  | none hplain =>
    cases body with
    | nil => exact absurd rfl hne
    | cons c chars =>
      by_cases hc : c = '+'
      · -- a sign that stands alone is the character that offends
        have hnil : chars = [] := by
          by_contra hchars
          exact hplain chars hchars (by rw [hc])
        subst hc hnil
        rw [digits, digit?_plus]
        rfl
      · exact ofChars_eq_digits hc

/-- Digits are not preceded by another sign. -/
theorem afterSign_of_shows (hbody : body = chars ∨ body = '+' :: chars) (hne : chars ≠ [])
    (hchars : List.Forall₂ (Shows radix) chars values) (hradix : radix ≤ 16) :
    AfterSign body chars := by
  rcases hbody with rfl | rfl
  · refine .none fun rest _ heq => ?_
    subst heq
    obtain ⟨digit, _, hshows, -⟩ := List.forall₂_cons_left_iff.mp hchars
    have hplus := (digit?_eq_some_iff hradix).mpr hshows
    rw [digit?_plus] at hplus
    cases hplus
  · exact .sign hne

/-- **What is read without a fault is a numeral**, and its value is what is read. -/
theorem ofChars_eq_ok_iff (hradix : 0 < radix ∧ radix ≤ 16) :
    ofChars radix body = .ok n ↔ Spells radix body n := by
  constructor
  · intro h
    have hne : body ≠ [] := by
      rintro rfl
      cases h
    obtain ⟨chars, hsign⟩ := exists_afterSign body
    rw [ofChars_of_afterSign hsign hne, digits_eq_ok_iff hradix] at h
    obtain ⟨values, hchars, hvalue⟩ := h
    cases hsign with
    | sign hrest => exact ⟨chars, values, .inr rfl, hrest, hchars, hvalue⟩
    | none => exact ⟨body, values, .inl rfl, hne, hchars, hvalue⟩
  · rintro ⟨chars, values, hbody, hne, hchars, hvalue⟩
    have hsign := afterSign_of_shows hbody hne hchars hradix.2
    have hbodyne : body ≠ [] := by
      rcases hbody with rfl | rfl
      · exact hne
      · exact List.cons_ne_nil _ _
    rw [ofChars_of_afterSign hsign hbodyne, digits_eq_ok_iff hradix]
    exact ⟨values, hchars, hvalue⟩

/-- **The fault of a reading is the first mistake.** -/
theorem ofChars_eq_error_iff (hradix : 0 < radix ∧ radix ≤ 16) :
    ofChars radix body = .error fault ↔ Mistake radix body fault := by
  constructor
  · intro h
    cases hbody : body with
    | nil =>
      rw [hbody] at h
      cases h
      exact .empty
    | cons c chars =>
      rw [← hbody]
      have hne : body ≠ [] := by
        rw [hbody]
        exact List.cons_ne_nil _ _
      obtain ⟨rest, hsign⟩ := exists_afterSign body
      rw [ofChars_of_afterSign hsign hne, digits_eq_error_iff hradix] at h
      obtain ⟨front, c, rest, values, rfl, hfront, hlt, hc⟩ := h
      exact .offence hsign hfront hlt hc
  · rintro (_ | ⟨hsign, hfront, hlt, hc⟩)
    · rfl
    · have hne := hsign.ne_nil (List.append_ne_nil_of_right_ne_nil _ (List.cons_ne_nil _ _))
      rw [ofChars_of_afterSign hsign hne, digits_eq_error_iff hradix]
      exact ⟨_, _, _, _, rfl, hfront, hlt, hc⟩

end Reading

end Numeral

/-! ### Numbers that the user gives -/

namespace CommandLine

variable {text : String} {core body : List Char} {radix : Nat}

/-- A text is read as what it announces between its blanks. -/
theorem readNumber_eq (htrims : Blank.Trims text.toList core)
    (hannounces : Numeral.Announces core radix body) :
    readNumber text = (Numeral.ofChars radix body).mapError (.number text radix) := by
  have htext : Numeral.ofText text = (radix, Numeral.ofChars radix body) := by
    rw [Numeral.ofText, Blank.trim_eq_iff.mpr htrims, Numeral.body_eq_iff.mpr hannounces]
  rw [readNumber, htext]
  cases Numeral.ofChars radix body <;> rfl

/-- **A number in decimal is read as the number.** -/
theorem readNumber_toString {n : Nat} (h : n < Numeral.limit) :
    readNumber (toString n) = .ok n := by
  have hdigits : ∀ c ∈ (toString n).toList, ∃ d < 10, c = Nat.digitChar d := by
    intro c hc
    rw [toList_toString] at hc
    exact Numeral.exists_of_mem_leftpad (by decide) hc
  have htrim : Blank.trim (toString n).toList = (toString n).toList := by
    refine Blank.trim_eq_self fun c hc => ?_
    obtain ⟨d, hd, rfl⟩ := hdigits c hc
    exact not_blank_of_digit (by omega)
  have hannounces : Numeral.Announces (toString n).toList 10 (toString n).toList := by
    refine .decimal fun letter rest heq => ?_
    have hmem : letter ∈ (toString n).toList := heq ▸ List.mem_cons_of_mem _ List.mem_cons_self
    obtain ⟨d, hd, rfl⟩ := hdigits letter hmem
    have hall : ∀ d < 10, Nat.digitChar d ≠ 'x' ∧ Nat.digitChar d ≠ 'X' := by decide
    exact hall d hd
  rw [readNumber_eq (Blank.trim_eq_iff.mp htrim) hannounces, toList_toString,
    Numeral.ofChars_leftpad (by decide) (by decide) h 0]
  rfl

/-- **A text is read as a number exactly if it is a numeral, and else the first mistake is named.**
The blanks at the ends of a text are taken off first, and then what is left announces its radix; in
both there is one way only, and always one. Behind that, a numeral is an optional plus sign and at
least one digit of the radix, with any number of zeros in front, whose positional value is below the
limit, and this value is what is read. Whatever is not a numeral is refused, for its first mistake:
nothing is there at all, or the first character that cannot be passed shows no digit, or takes the
value to the limit. In particular, a number is read from its decimal text, and from its digits to
the base of sixteen behind their mark, filled up with zeros to any length. -/
theorem readNumber_grammar (text : String) :
    (∀ c, Blank.isBlank c ↔ c.toNat ∈ Blank.whiteSpace) ∧
    (∃ core radix body, Blank.Trims text.toList core ∧ Numeral.Announces core radix body) ∧
    (∀ core radix body, Blank.Trims text.toList core → Numeral.Announces core radix body →
      (∀ n, readNumber text = .ok n ↔ Numeral.Spells radix body n) ∧
      ∀ failure, readNumber text = .error failure ↔
        ∃ fault, Numeral.Mistake radix body fault ∧ failure = .number text radix fault) ∧
    (∀ radix fault, (Failure.number text radix fault).causes = [fault.message]) ∧
    Numeral.Fault.empty.message = "cannot parse integer from empty string" ∧
    Numeral.Fault.badDigit.message = "invalid digit found in string" ∧
    Numeral.Fault.tooLarge.message = "number too large to fit in target type" ∧
    Numeral.limit = 2 ^ 64 ∧
    ∀ n < Numeral.limit, readNumber (toString n) = .ok n ∧
      ∀ width, readNumber (String.ofList ('0' :: 'x' :: Hex.ofNat n width)) = .ok n := by
  refine ⟨fun c => Blank.isBlank_iff,
    ⟨_, _, _, Blank.trim_eq_iff.mp rfl, Numeral.body_eq_iff.mp rfl⟩, ?_, fun _ _ => rfl, rfl, rfl,
    rfl, Numeral.limit_eq, fun n hn => ⟨readNumber_toString hn, readNumber_hex hn⟩⟩
  intro core radix body htrims hannounces
  have hradix := hannounces.le_sixteen
  rw [readNumber_eq htrims hannounces]
  refine ⟨fun n => ?_, fun failure => ?_⟩
  · rw [mapError_eq_ok, Numeral.ofChars_eq_ok_iff hradix]
  · rw [mapError_eq_error]
    refine exists_congr fun fault => ?_
    rw [Numeral.ofChars_eq_error_iff hradix]
    exact and_congr_right fun _ => eq_comm

/-- A text that offends in two places: a digit takes the value to the limit, and behind it there is
a letter that shows no digit. -/
theorem readNumber_grammar_overflow :
    let text := " 0x1ffffffffffffffffZ\t"
    let core := "0x1ffffffffffffffffZ".toList
    let body := "1ffffffffffffffffZ".toList
    Blank.Trims text.toList core ∧ Numeral.Announces core 16 body ∧
      readNumber text = .error (.number text 16 .tooLarge) ∧
      Numeral.Mistake 16 body .tooLarge ∧ ¬Numeral.Mistake 16 body .badDigit ∧
      83 < Numeral.limit ∧ readNumber (toString 83) = .ok 83 ∧
      readNumber (String.ofList ('0' :: 'x' :: Hex.ofNat 83 20)) = .ok 83 := by
  intro text core body
  obtain ⟨-, -, hreads, -, -, -, -, -, hprinted⟩ := readNumber_grammar text
  have htrims : Blank.Trims text.toList core := Blank.trim_eq_iff.mp (by decide)
  have hannounces : Numeral.Announces core 16 body := .hex (.inl rfl)
  have hlt : 83 < Numeral.limit := by decide
  have hread : readNumber text = .error (.number text 16 .tooLarge) := by decide +kernel
  obtain ⟨-, hfails⟩ := hreads core 16 body htrims hannounces
  refine ⟨htrims, hannounces, hread, ?_, fun hbad => ?_, hlt, (hprinted 83 hlt).1,
    (hprinted 83 hlt).2 20⟩
  · obtain ⟨fault, hmistake, heq⟩ := (hfails _).mp hread
    cases heq
    exact hmistake
  · have hother := (hfails _).mpr ⟨.badDigit, hbad, rfl⟩
    rw [hread] at hother
    cases hother

end CommandLine

end ChunkStrings
