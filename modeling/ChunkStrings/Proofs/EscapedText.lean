import ChunkStrings.CommandLine.RecordEntry
import ChunkStrings.LogLine
import ChunkStrings.Proofs.Numerals

/-!
# Shown strings can be told apart

A string may hold any bytes, also those that spell the shown form of other bytes, or the word that
is shown where there is no string. Nevertheless no two strings are shown alike
(`Escape.text_inj`), and since all that is shown of a constant is its string and what tells it from
the absent one, nothing that is shown is ambiguous (`StringConst.display_inj`).

A byte is shown in one of three forms (`Escape.Form`), and every statement here is a case analysis
on them, and an induction over the bytes. What makes the strings distinguishable is that the first
form of a text can be read off without knowing where it ends (`Escape.readByte?`). What keeps a
string inside of its quotes is that a quote is shown behind a backslash that belongs to it
(`Escape.exists_of_quote`), so that whoever passes over each backslash together with the character
behind it meets the closing quote and no other (`Escape.splitAtQuote_ofBytes`).
-/

namespace ChunkStrings

namespace Escape

/-! ### The forms of a byte -/

/-- The characters that stand for a byte behind a backslash. -/
def marks : List (Char × UInt8) :=
  [('t', 0x09), ('n', 0x0a), ('r', 0x0d), ('"', 0x22), ('\'', 0x27), ('\\', 0x5c)]

/-- A character of printable ASCII. -/
def Printable (c : Char) : Prop := 0x20 ≤ c.toNat ∧ c.toNat ≤ 0x7e

instance (c : Char) : Decidable (Printable c) := inferInstanceAs (Decidable (_ ∧ _))

/-- **The forms that a byte is shown in**: as the printable character that it is, unless this is a
quote or a backslash; as a backslash and a mark; or as a backslash, an `x` and two digits. -/
inductive Form (byte : UInt8) : List Char → Prop where
  /-- The byte stands for itself. -/
  | plain {c : Char} (hvalue : c.toNat = byte.toNat) (hprintable : Printable c)
      (hquote : c ≠ '"') (hbackslash : c ≠ '\\') : Form byte [c]
  /-- The byte has a mark. -/
  | marked {mark : Char} (h : (mark, byte) ∈ marks) : Form byte ['\\', mark]
  /-- The byte is shown by its digits. -/
  | digits : Form byte ('\\' :: 'x' :: Hex.ofByte byte)

/-- **Every byte is shown in one of the forms.** -/
theorem form_ofByte (byte : UInt8) : Form byte (ofByte byte) := by
  unfold ofByte
  iterate 6
    split
    · rename_i h
      exact .marked (by simp [marks, h])
  split
  · rename_i hquote _ hbackslash hrange
    -- the bytes of this range are characters of the same number
    have hall : ∀ n ≤ 0x7e, (Char.ofNat n).toNat = n := by decide
    have hvalue := hall byte.toNat (UInt8.le_iff_toNat_le.mp hrange.2)
    have hprintable : Printable (Char.ofNat byte.toNat) := by
      rw [Printable, hvalue]
      exact hrange
    refine .plain hvalue hprintable ?_ ?_
    · intro h
      rw [h] at hvalue
      exact hquote (UInt8.toNat_inj.mp hvalue.symm)
    · intro h
      rw [h] at hvalue
      exact hbackslash (UInt8.toNat_inj.mp hvalue.symm)
  · exact .digits

section Forms

variable {byte : UInt8} {shown : List Char} {c : Char}

/-- What is a digit is printable, and neither a quote nor a backslash. -/
theorem digit_plain (h : c ∈ Hex.ofByte byte) : Printable c ∧ c ≠ '"' ∧ c ≠ '\\' := by
  have hall : ∀ d < 16, Printable (Nat.digitChar d) ∧ Nat.digitChar d ≠ '"' ∧
      Nat.digitChar d ≠ '\\' := by decide
  have hlt := byte.toNat_lt
  rcases List.mem_cons.mp h with rfl | h
  · exact hall _ (by omega)
  · rw [List.mem_singleton.mp h]
    exact hall _ (by omega)

/-- Every character of a form is printable. -/
theorem Form.printable (h : Form byte shown) (hc : c ∈ shown) : Printable c := by
  cases h with
  | plain _ hprintable => rwa [List.mem_singleton.mp hc]
  | marked hmark =>
    have hall : ∀ pair ∈ marks, Printable pair.1 := by decide
    rcases List.mem_cons.mp hc with rfl | hc
    · decide
    · rw [List.mem_singleton.mp hc]
      exact hall _ hmark
  | digits =>
    rcases List.mem_cons.mp hc with rfl | hc
    · decide
    rcases List.mem_cons.mp hc with rfl | hc
    · decide
    · exact (digit_plain hc).1

/-- **A quote is shown behind the backslash of its own form**, and no other form has one in it. -/
theorem Form.quote {front back : List Char} (h : Form byte (front ++ '"' :: back)) :
    byte = 0x22 ∧ front = ['\\'] ∧ back = [] := by
  have hmem : '"' ∈ front ++ '"' :: back := List.mem_append_right _ List.mem_cons_self
  generalize hshown : front ++ '"' :: back = shown at h hmem
  cases h with
  | plain _ _ hquote => exact absurd (List.mem_singleton.mp hmem).symm hquote
  | marked hmark =>
    rcases front with _ | ⟨first, _ | ⟨second, front⟩⟩
    · cases hshown
    · cases hshown
      have hbyte : ∀ pair ∈ marks, pair.1 = '"' → pair.2 = 0x22 := by decide
      exact ⟨hbyte _ hmark rfl, rfl, rfl⟩
    · -- a form with a mark ends behind the mark
      have hnone := (List.cons.inj (List.cons.inj hshown).2).2
      exact absurd hnone (List.append_ne_nil_of_right_ne_nil _ (List.cons_ne_nil _ _))
  | digits =>
    have hdigit : '"' ∈ Hex.ofByte byte := by simpa using hmem
    exact absurd rfl (digit_plain hdigit).2.1

/-! ### Reading the first form -/

/-- **Reads the byte whose form a text begins with**, and what is behind the form. -/
def readByte? : List Char → Option (UInt8 × List Char)
  | [] => none
  | '\\' :: 'x' :: high :: low :: rest => (Hex.byte? high low).map (·, rest)
  | '\\' :: mark :: rest => (marks.lookup mark).map (·, rest)
  | c :: rest => some (UInt8.ofNat c.toNat, rest)

/-- **The first byte can be read off**, whatever is behind its form. -/
theorem Form.readByte?_append (h : Form byte shown) (rest : List Char) :
    readByte? (shown ++ rest) = some (byte, rest) := by
  cases h with
  | @plain c hvalue _ _ hbackslash =>
    have hbyte : UInt8.ofNat c.toNat = byte := by rw [hvalue, UInt8.ofNat_toNat]
    rw [List.singleton_append, readByte?]
    · rw [hbyte]
    · exact fun _ _ _ hc => absurd hc hbackslash
    · exact fun _ _ hc => absurd hc hbackslash
  | marked hmark =>
    have hall : ∀ pair ∈ marks, pair.1 ≠ 'x' ∧ marks.lookup pair.1 = some pair.2 := by decide
    obtain ⟨hx, hlookup⟩ := hall _ hmark
    rw [List.cons_append, List.singleton_append, readByte?, hlookup]
    · rfl
    · exact fun _ _ _ heq => absurd heq hx
  | digits =>
    change (Hex.byte? _ _).map (·, rest) = _
    rw [Hex.byte?_ofByte]
    rfl

/-! ### The closing quote -/

/-- **Splits a text at its first quote that no backslash belongs to.** A backslash belongs to the
character behind it, and this character is passed over together with it. -/
def splitAtQuote : List Char → Option (List Char × List Char)
  | [] => none
  | '"' :: rest => some ([], rest)
  | '\\' :: c :: rest =>
    (splitAtQuote rest).map fun (inner, behind) => ('\\' :: c :: inner, behind)
  | c :: rest => (splitAtQuote rest).map fun (inner, behind) => (c :: inner, behind)

/-- Characters that are neither quotes nor backslashes are passed over one by one. -/
theorem splitAtQuote_append_of_plain {chars : List Char} (h : ∀ c ∈ chars, c ≠ '"' ∧ c ≠ '\\')
    (rest : List Char) : splitAtQuote (chars ++ rest) =
      (splitAtQuote rest).map fun (inner, behind) => (chars ++ inner, behind) := by
  induction chars with
  | nil => exact Option.map_id_apply.symm
  | cons c chars ih =>
    obtain ⟨hquote, hbackslash⟩ := h c List.mem_cons_self
    rw [List.cons_append, splitAtQuote, ih fun c hc => h c (List.mem_cons_of_mem _ hc),
      Option.map_map]
    · rfl
    · exact hquote
    · exact fun _ _ hc => absurd hc hbackslash

/-- **No form holds the quote that ends a text.** -/
theorem Form.splitAtQuote_append (h : Form byte shown) (rest : List Char) :
    splitAtQuote (shown ++ rest) =
      (splitAtQuote rest).map fun (inner, behind) => (shown ++ inner, behind) := by
  cases h with
  | @plain c _ _ hquote hbackslash =>
    refine splitAtQuote_append_of_plain (fun d hd => ?_) rest
    rw [List.mem_singleton.mp hd]
    exact ⟨hquote, hbackslash⟩
  | marked => rfl
  | digits =>
    change (splitAtQuote (Hex.ofByte byte ++ rest)).map _ = _
    rw [splitAtQuote_append_of_plain fun c hc => (digit_plain hc).2, Option.map_map]
    rfl

end Forms

/-! ### Runs of bytes -/

variable {bytes : List UInt8}

/-- **Only printable characters are shown**, so a shown string does not break a line. -/
theorem printable_of_mem_ofBytes {c : Char} (h : c ∈ ofBytes bytes) : Printable c := by
  obtain ⟨byte, -, hc⟩ := List.mem_flatMap.mp h
  exact (form_ofByte byte).printable hc

/-- **Different bytes are shown differently.** -/
theorem ofBytes_inj {other : List UInt8} : ofBytes bytes = ofBytes other ↔ bytes = other := by
  refine ⟨fun h => ?_, congrArg ofBytes⟩
  induction bytes generalizing other with
  | nil =>
    cases other with
    | nil => rfl
    | cons byte other =>
      rw [ofBytes_nil, ofBytes_cons] at h
      exact absurd (List.append_eq_nil_iff.mp h.symm).1 (ofByte_ne_nil byte)
  | cons byte bytes ih =>
    have hread := (form_ofByte byte).readByte?_append (ofBytes bytes)
    rw [ofBytes_cons] at h
    rw [h] at hread
    cases other with
    | nil => cases hread
    | cons first other =>
      rw [ofBytes_cons, (form_ofByte first).readByte?_append] at hread
      obtain ⟨rfl, hrest⟩ := Prod.mk.inj (Option.some.inj hread)
      rw [ih hrest.symm]

/-- **A quote in a shown string is that of a byte**, behind the backslash of its form. -/
theorem exists_of_quote {front back : List Char} (h : ofBytes bytes = front ++ '"' :: back) :
    ∃ before after, bytes = before ++ 0x22 :: after ∧ front = ofBytes before ++ ['\\'] ∧
      back = ofBytes after := by
  induction bytes generalizing front with
  | nil => exact absurd h.symm (List.append_ne_nil_of_right_ne_nil _ (List.cons_ne_nil _ _))
  | cons byte bytes ih =>
    rw [ofBytes_cons, List.append_eq_append_iff] at h
    rcases h with ⟨front, rfl, h⟩ | ⟨_ | ⟨quote, back⟩, hform, h⟩
    · obtain ⟨before, after, rfl, rfl, rfl⟩ := ih h
      exact ⟨byte :: before, after, rfl, (List.append_assoc _ _ _).symm, rfl⟩
    · -- a quote cannot come first in what is shown of the bytes behind this one
      have hfirst : ofBytes bytes = [] ++ '"' :: back := h.symm
      obtain ⟨before, _, -, hnil, -⟩ := ih hfirst
      exact absurd hnil.symm (List.append_ne_nil_of_right_ne_nil _ (List.cons_ne_nil _ _))
    · cases h
      have hshown := form_ofByte byte
      rw [hform] at hshown
      obtain ⟨rfl, rfl, rfl⟩ := hshown.quote
      exact ⟨[], bytes, rfl, rfl, rfl⟩

/-- **The first quote behind a shown string is the one that closes it.** -/
theorem splitAtQuote_ofBytes (bytes : List UInt8) (rest : List Char) :
    splitAtQuote (ofBytes bytes ++ '"' :: rest) = some (ofBytes bytes, rest) := by
  induction bytes with
  | nil => rfl
  | cons byte bytes ih =>
    rw [ofBytes_cons, List.append_assoc, (form_ofByte byte).splitAtQuote_append, ih]
    rfl

/-- **Different strings are shown as different texts.** -/
theorem text_inj {content other : ByteArray} : text content = text other ↔ content = other := by
  refine ⟨fun h => ?_, congrArg text⟩
  have hbytes := ofBytes_inj.mp (String.ofList_injective h)
  exact ByteArray.ext (Array.toList_inj.mp hbytes)

theorem toList_text (content : ByteArray) : (text content).toList = ofBytes content.data.toList :=
  String.toList_ofList

theorem toList_quoted (content : ByteArray) :
    (quoted content).toList = '"' :: ((text content).toList ++ ['"']) := by
  rw [toList_text, quoted, String.toList_ofList]
  rfl

theorem quoted_inj {content other : ByteArray} :
    quoted content = quoted other ↔ content = other := by
  rw [← String.toList_inj, toList_quoted, toList_quoted, List.cons_inj_right,
    List.append_cancel_right_eq, String.toList_inj, text_inj]

end Escape

namespace Hex

/-- Different bytes have different digits. -/
theorem ofByte_inj {byte other : UInt8} : ofByte byte = ofByte other ↔ byte = other := by
  refine ⟨fun h => ?_, congrArg ofByte⟩
  have hread := byte?_ofByte byte
  obtain ⟨hhigh, hlow⟩ := List.cons.inj h
  rw [hhigh, (List.cons.inj hlow).1, byte?_ofByte] at hread
  exact (Option.some.inj hread).symm

end Hex

/-! ### Constants -/

variable {a b : StringConst}

/-- **Constants are shown alike if both are absent, or both have the same string.** -/
theorem StringConst.display_inj : a.display = b.display ↔
    (a = null ∧ b = null) ∨
      ∃ content trailing trailing',
        a = present content trailing ∧ b = present content trailing' := by
  -- the word for the absent string does not begin with a quote
  have hnull : ∀ content, "null" ≠ Escape.quoted content := by
    intro content h
    have hlist := congrArg String.toList h
    rw [Escape.toList_quoted] at hlist
    cases hlist
  cases a with
  | null =>
    cases b with
    | null => simp
    | present content trailing => simpa [display] using hnull content
  | present content trailing =>
    cases b with
    | null => simpa [display] using (hnull content).symm
    | present content' trailing' => simp [display, Escape.quoted_inj, eq_comm]

/-- No constant is shown on more than one line. -/
theorem StringConst.printable_of_mem_display {c : Char} (h : c ∈ a.display.toList) :
    Escape.Printable c := by
  cases a with
  | null =>
    have hall : "null".toList.all (fun c => decide (Escape.Printable c)) := by decide
    exact of_decide_eq_true (List.all_eq_true.mp hall c h)
  | present content trailing =>
    rw [display, Escape.toList_quoted, Escape.toList_text] at h
    rcases List.mem_cons.mp h with rfl | h
    · decide
    rcases List.mem_append.mp h with h | h
    · exact Escape.printable_of_mem_ofBytes h
    · rw [List.mem_singleton.mp h]
      decide

namespace CommandLine

/-- **Entries of different constants differ** in one of the columns that show the constant. -/
theorem RecordEntry.ofRecord_inj (offset size offset' size' : Nat) :
    ((ofRecord offset size a).kind = (ofRecord offset' size' b).kind ∧
        (ofRecord offset size a).trailing = (ofRecord offset' size' b).trailing ∧
        (ofRecord offset size a).value = (ofRecord offset' size' b).value) ↔ a = b := by
  constructor
  · rintro ⟨hkind, htrailing, hvalue⟩
    have hne : "null" ≠ "string" := by decide
    cases a with
    | null =>
      cases b with
      | null => rfl
      | present => exact absurd hkind hne
    | present content trailing =>
      cases b with
      | null => exact absurd hkind.symm hne
      | present content' trailing' =>
        have hcontent := Escape.text_inj.mp (Option.some.inj hvalue)
        have hbyte : trailing = trailing' := by
          refine Option.map_injective (fun byte other h => ?_) htrailing
          have hdigits := String.ofList_injective h
          exact Hex.ofByte_inj.mp (List.cons.inj (List.cons.inj hdigits).2).2
        rw [hcontent, hbyte]
  · rintro rfl
    exact ⟨rfl, rfl, rfl⟩

/-- **What is shown of constants is unambiguous, and stays inside of its quotes.** Two constants are
shown alike if both are absent or both have the same string; in a listing, where the byte behind the
string is shown as well, only if they are equal. Whatever bytes a string holds, all that is shown of
it is printable, and every quote in it is that of a byte, behind the backslash of its own form. So
whoever reads from the opening quote on, and takes every backslash together with the character
behind it, finds the quote that closes the string, in what is shown of a constant and in the line
of the log. -/
theorem shown_unambiguously :
    (∀ a b : StringConst, a.display = b.display ↔
      (a = .null ∧ b = .null) ∨
        ∃ content trailing trailing', a = .present content trailing ∧
          b = .present content trailing') ∧
    (∀ (a b : StringConst) offset size offset' size',
      ((RecordEntry.ofRecord offset size a).kind = (RecordEntry.ofRecord offset' size' b).kind ∧
        (RecordEntry.ofRecord offset size a).trailing =
          (RecordEntry.ofRecord offset' size' b).trailing ∧
        (RecordEntry.ofRecord offset size a).value =
          (RecordEntry.ofRecord offset' size' b).value) ↔ a = b) ∧
    (∀ constant : StringConst, ∀ c ∈ constant.display.toList, Escape.Printable c) ∧
    ∀ content : ByteArray,
      (∀ c ∈ (Escape.text content).toList, Escape.Printable c) ∧
      (∀ front back, (Escape.text content).toList = front ++ '"' :: back →
        ∃ before after, content.data.toList = before ++ 0x22 :: after ∧
          front = Escape.ofBytes before ++ ['\\'] ∧ back = Escape.ofBytes after) ∧
      (∀ trailing, ∃ inner,
        (StringConst.present content trailing).display.toList = '"' :: inner ∧
        Escape.splitAtQuote inner = some ((Escape.text content).toList, [])) ∧
      ∃ front inner, (LogLine.parsed content).message.toList = front ++ '"' :: inner ∧
        '"' ∉ front ∧ Escape.splitAtQuote inner = some ((Escape.text content).toList, []) := by
  refine ⟨fun a b => StringConst.display_inj, fun a b => RecordEntry.ofRecord_inj,
    fun constant c => StringConst.printable_of_mem_display, fun content => ?_⟩
  have hinner := Escape.splitAtQuote_ofBytes content.data.toList []
  rw [← Escape.toList_text] at hinner
  refine ⟨fun c hc => ?_, fun front back h => ?_,
    fun trailing => ⟨_, Escape.toList_quoted content, hinner⟩, "-- parsed <string> ".toList, _, ?_,
    by decide, hinner⟩
  · rw [Escape.toList_text] at hc
    exact Escape.printable_of_mem_ofBytes hc
  · rw [Escape.toList_text] at h
    exact Escape.exists_of_quote h
  · rw [← Escape.toList_quoted, ← String.toList_append]
    rfl

/-- A string that holds a quote, a backslash, a line feed and a byte that is no character. -/
theorem shown_unambiguously_quote :
    let content : ByteArray := [0x22, 0x5c, 0x0a, 0xff].toByteArray
    let front := ['\\']
    let back := ['\\', '\\', '\\', 'n', '\\', 'x', 'f', 'f']
    (Escape.text content).toList = front ++ '"' :: back ∧
      '"' ∈ (Escape.text content).toList ∧ Escape.Printable '"' ∧
      'u' ∈ StringConst.null.display.toList ∧ Escape.Printable 'u' ∧
      ∃ before after, content.data.toList = before ++ 0x22 :: after ∧
        front = Escape.ofBytes before ++ ['\\'] ∧ back = Escape.ofBytes after := by
  intro content front back
  have htext : (Escape.text content).toList = front ++ '"' :: back := by decide +kernel
  have hquote : '"' ∈ (Escape.text content).toList := by decide +kernel
  have hletter : 'u' ∈ StringConst.null.display.toList := by decide
  obtain ⟨-, -, hshown, hstrings⟩ := shown_unambiguously
  obtain ⟨hprintable, hbehind, -, -⟩ := hstrings content
  exact ⟨htext, hquote, hprintable _ hquote, hletter, hshown .null _ hletter,
    hbehind front back htext⟩

end CommandLine

end ChunkStrings
