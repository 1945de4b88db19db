import ChunkStrings.CommandLine.OptionName
import ChunkStrings.CommandLine.Performance

/-!
# Numerals that are printed and read again

The program prints numbers in two forms: offsets with the radix in front and at least six digits,
and counts in decimal. Both are read back as the number they were printed from
(`CommandLine.readNumber_offsetText`, `CommandLine.count?_toString`), for every number below
`Numeral.limit`.

A digit that is added at the end of a numeral adds a step at the end of the reading
(`Numeral.digits_append`), and `Nat.toDigits` puts the last digit of a number behind the digits
of the rest. So the induction goes along the number and not along its digits. The values in
between are smaller than the number, so none of them passes the limit before it.
-/

namespace ChunkStrings

/-! ### Digits -/

namespace Numeral

variable {radix n : Nat}

/-- A digit is read as the value it shows. -/
theorem digit?_digitChar {d : Nat} (hradix : radix ≤ 16) (h : d < radix) :
    digit? radix (Nat.digitChar d) = some d := by
  have hall : ∀ radix ≤ 16, ∀ d < radix, digit? radix (Nat.digitChar d) = some d := by decide
  exact hall radix hradix d h

/-- **The digits of a number show values below the radix**, and nothing else stands among them. -/
theorem exists_of_mem_toDigits (hradix : 1 < radix) {c : Char} (h : c ∈ Nat.toDigits radix n) :
    ∃ d < radix, c = Nat.digitChar d := by
  induction n using Nat.strongRecOn with
  | ind n ih =>
    rw [Nat.toDigits_eq_if hradix] at h
    split at h
    · rename_i hlt
      exact ⟨n, hlt, List.mem_singleton.mp h⟩
    · rename_i hge
      rcases List.mem_append.mp h with h | h
      · exact ih (n / radix) (Nat.div_lt_self (by omega) hradix) h
      · exact ⟨n % radix, Nat.mod_lt n (by omega), List.mem_singleton.mp h⟩

/-- Reading goes on behind a part of the digits with the value of the part. -/
theorem digits_append (value : Nat) (front rest : List Char) :
    digits radix value (front ++ rest) =
      digits radix value front >>= fun value => digits radix value rest := by
  induction front generalizing value with
  | nil => rfl
  | cons c front ih =>
    rw [List.cons_append, digits, digits]
    split
    · rfl
    · split
      · exact ih _
      · rfl

/-- **The digits of a number are read as the number.** -/
theorem digits_toDigits (hradix : 1 < radix) (hle : radix ≤ 16) (hn : n < limit) :
    digits radix 0 (Nat.toDigits radix n) = .ok n := by
  induction n using Nat.strongRecOn with
  | ind n ih =>
    rw [Nat.toDigits_eq_if hradix]
    split
    · rename_i hlt
      rw [digits, digit?_digitChar hle hlt]
      simp [digits, hn]
    · rename_i hge
      have hrest : n / radix < n := Nat.div_lt_self (by omega) hradix
      have hlast : n % radix < radix := Nat.mod_lt n (by omega)
      have hvalue : radix * (n / radix) + n % radix = n := Nat.div_add_mod n radix
      rw [digits_append, ih (n / radix) hrest (Nat.lt_trans hrest hn)]
      change digits radix (n / radix) [Nat.digitChar (n % radix)] = .ok n
      rw [digits, digit?_digitChar hle hlast]
      simp [digits, hvalue, hn]

/-- Zeros in front of the digits do not count. -/
theorem digits_leftpad (hradix : 0 < radix) (hle : radix ≤ 16) (width : Nat)
    (chars : List Char) : digits radix 0 (chars.leftpad width '0') = digits radix 0 chars := by
  rw [List.leftpad]
  induction width - chars.length with
  | zero => rfl
  | succ count ih =>
    have hzero : digit? radix '0' = some 0 := digit?_digitChar hle hradix
    rw [List.replicate_succ, List.cons_append, digits, hzero]
    exact ih

/-- A sign is no digit, so digits are read as they stand. -/
theorem ofChars_eq_digits {c : Char} {chars : List Char} (h : c ≠ '+') :
    ofChars radix (c :: chars) = digits radix 0 (c :: chars) := by
  unfold ofChars
  split <;> simp_all

/-- The characters of a number with zeros in front of it show digits. -/
theorem exists_of_mem_leftpad (hradix : 1 < radix) {width : Nat} {c : Char}
    (h : c ∈ (Nat.toDigits radix n).leftpad width '0') : ∃ d < radix, c = Nat.digitChar d := by
  rw [List.leftpad, List.mem_append, List.mem_replicate] at h
  rcases h with ⟨-, rfl⟩ | h
  · exact ⟨0, by omega, rfl⟩
  · exact exists_of_mem_toDigits hradix h

/-- **A number that is shown with zeros in front of it is read as the number.** -/
theorem ofChars_leftpad (hradix : 1 < radix) (hle : radix ≤ 16) (hn : n < limit) (width : Nat) :
    ofChars radix ((Nat.toDigits radix n).leftpad width '0') = .ok n := by
  have hread := digits_leftpad (by omega) hle width (Nat.toDigits radix n)
  rw [digits_toDigits hradix hle hn] at hread
  cases hchars : (Nat.toDigits radix n).leftpad width '0' with
  | nil =>
    have hnil := (List.append_eq_nil_iff.mp hchars).2
    exact absurd hnil Nat.toDigits_ne_nil
  | cons c chars =>
    have hmem : c ∈ (Nat.toDigits radix n).leftpad width '0' := hchars ▸ List.mem_cons_self
    obtain ⟨d, hd, rfl⟩ := exists_of_mem_leftpad hradix hmem
    have hplus : ∀ d < 16, Nat.digitChar d ≠ '+' := by decide
    rw [ofChars_eq_digits (hplus d (by omega)), ← hchars, hread]

/-- What is read is below the limit, digit after digit. -/
theorem digits_lt {value : Nat} {chars : List Char} (hvalue : value < limit)
    (h : digits radix value chars = .ok n) : n < limit := by
  induction chars generalizing value with
  | nil =>
    cases h
    exact hvalue
  | cons c chars ih =>
    rw [digits] at h
    split at h
    · cases h
    · split at h
      · rename_i hlt
        exact ih hlt h
      · cases h

theorem ofChars_lt {chars : List Char} (h : ofChars radix chars = .ok n) : n < limit := by
  have hzero : 0 < limit := by decide
  unfold ofChars at h
  split at h
  · cases h
  · cases h
  · exact digits_lt hzero h
  · exact digits_lt hzero h

end Numeral

/-! ### Offsets -/

namespace Hex

/-- The characters of a number show its digits. -/
theorem exists_of_mem_ofNat {n width : Nat} {c : Char} (h : c ∈ ofNat n width) :
    ∃ d < 16, c = Nat.digitChar d :=
  Numeral.exists_of_mem_leftpad (by decide) h

theorem digit?_digitChar {d : Nat} (h : d < 16) : digit? (Nat.digitChar d) = some d := by
  have hall : ∀ d < 16, digit? (Nat.digitChar d) = some d := by decide
  exact hall d h

/-- The two digits of a byte are read as the byte. -/
theorem byte?_ofByte (byte : UInt8) :
    byte? (Nat.digitChar (byte.toNat / 16)) (Nat.digitChar (byte.toNat % 16)) = some byte := by
  have hlt := byte.toNat_lt
  have hvalue : 16 * (byte.toNat / 16) + byte.toNat % 16 = byte.toNat := Nat.div_add_mod _ _
  rw [byte?, digit?_digitChar (by omega), digit?_digitChar (by omega)]
  simp only [hvalue, UInt8.ofNat_toNat]

end Hex

namespace Blank

variable {chars : List Char}

/-- Where no blank comes first, none is trimmed at the front. -/
theorem trimStart_eq_self (h : ∀ c ∈ chars.head?, isBlank c = false) : trimStart chars = chars := by
  cases chars with
  | nil => rfl
  | cons c chars => rw [trimStart, List.dropWhile_cons, h c rfl, if_neg Bool.false_ne_true]

/-- Blanks behind a text are trimmed, and then the text is. -/
theorem trimEnd_append {back : List Char} (h : ∀ c ∈ back, isBlank c) (chars : List Char) :
    trimEnd (chars ++ back) = trimEnd chars := by
  rw [trimEnd, List.reverse_append, List.dropWhile_append_of_pos fun c hc =>
    h c (List.mem_reverse.mp hc), ← trimEnd]

theorem trimEnd_eq_self (h : ∀ c ∈ chars.getLast?, isBlank c = false) : trimEnd chars = chars := by
  rw [trimEnd, ← trimStart, trimStart_eq_self, List.reverse_reverse]
  rwa [List.head?_reverse]

/-- Where there is no blank, there is nothing to trim. -/
theorem trim_eq_self (h : ∀ c ∈ chars, isBlank c = false) : trim chars = chars := by
  rw [trim, trimStart_eq_self fun c hc => h c (List.mem_of_head? hc),
    trimEnd_eq_self fun c hc => h c (List.mem_of_getLast? hc)]

end Blank

namespace CommandLine

/-- No digit is a blank. -/
theorem not_blank_of_digit {d : Nat} (h : d < 16) : Blank.isBlank (Nat.digitChar d) = false := by
  have hall : ∀ d < 16, Blank.isBlank (Nat.digitChar d) = false := by decide
  exact hall d h

/-- **A number with the mark of its radix in front is read as the number**, whatever length its
digits are filled up to. -/
theorem readNumber_hex {n : Nat} (h : n < Numeral.limit) (width : Nat) :
    readNumber (String.ofList ('0' :: 'x' :: Hex.ofNat n width)) = .ok n := by
  have htrim : Blank.trim ('0' :: 'x' :: Hex.ofNat n width) = '0' :: 'x' :: Hex.ofNat n width := by
    refine Blank.trim_eq_self fun c hc => ?_
    rcases List.mem_cons.mp hc with rfl | hc
    · rfl
    rcases List.mem_cons.mp hc with rfl | hc
    · rfl
    · obtain ⟨d, hd, rfl⟩ := Hex.exists_of_mem_ofNat hc
      exact not_blank_of_digit hd
  have hread : Numeral.ofText (String.ofList ('0' :: 'x' :: Hex.ofNat n width)) = (16, .ok n) := by
    rw [Numeral.ofText, String.toList_ofList, htrim, Numeral.body]
    exact congrArg _ (Numeral.ofChars_leftpad (by decide) (by decide) h width)
  rw [readNumber, hread]

/-- **The text of an offset is read as the offset.** -/
theorem readNumber_offsetText {offset : Nat} (h : offset < Numeral.limit) :
    readNumber (RecordEntry.offsetText offset) = .ok offset :=
  readNumber_hex h 6

/-! ### Counts -/

/-- The characters of a number in decimal. -/
theorem toList_toString (n : Nat) : (toString n).toList = (Nat.toDigits 10 n).leftpad 0 '0' := by
  rw [Nat.toString_eq_repr, Nat.toList_repr]
  simp [List.leftpad]

/-- **A count in decimal is read as the count.** -/
theorem count?_toString {n : Nat} (h : n < Numeral.limit) : count? (toString n) = some n := by
  rw [count?, toList_toString, Numeral.ofChars_leftpad (by decide) (by decide) h 0]
  rfl

/-- **Every count is below the limit.** -/
theorem count?_lt {text : String} {n : Nat} (h : count? text = some n) : n < Numeral.limit := by
  rw [count?] at h
  cases hread : Numeral.ofChars 10 text.toList with
  | error fault =>
    rw [hread] at h
    cases h
  | ok value =>
    rw [hread] at h
    cases h
    exact Numeral.ofChars_lt hread

/-- Digits without a sign in front of them are read as a byte if their value is one. -/
theorem byte?_of_digits {text : String} {c : Char} {chars : List Char} {value : Nat}
    (htext : text.toList = c :: chars) (hminus : c ≠ '-') (hplus : c ≠ '+')
    (hdigits : Numeral.digits 10 0 (c :: chars) = .ok value) (hvalue : value ≤ 255) :
    byte? text = some (UInt8.ofNat value) := by
  rw [byte?, htext]
  split
  rename_i negative digits hsign
  split at hsign
  · rename_i heq
    exact absurd (List.head_eq_of_cons_eq heq) hminus
  · rename_i heq
    exact absurd (List.head_eq_of_cons_eq heq) hplus
  · cases hsign
    simp [hdigits, hvalue]

/-- **A byte in decimal is read as the byte.** -/
theorem byte?_toString (byte : UInt8) : byte? (toString byte.toNat) = some byte := by
  have hlt := byte.toNat_lt
  have hsigns : ∀ d < 10, Nat.digitChar d ≠ '-' ∧ Nat.digitChar d ≠ '+' := by decide
  have hdigits : Numeral.digits 10 0 (Nat.toDigits 10 byte.toNat) = .ok byte.toNat :=
    Numeral.digits_toDigits (by decide) (by decide) (Nat.lt_trans hlt (by decide))
  have htext : (toString byte.toNat).toList = Nat.toDigits 10 byte.toNat := by
    rw [Nat.toString_eq_repr, Nat.toList_repr]
  cases hchars : Nat.toDigits 10 byte.toNat with
  | nil => exact absurd hchars Nat.toDigits_ne_nil
  | cons c chars =>
    have hmem : c ∈ Nat.toDigits 10 byte.toNat := hchars ▸ List.mem_cons_self
    obtain ⟨d, hd, rfl⟩ := Numeral.exists_of_mem_toDigits (by decide) hmem
    obtain ⟨hminus, hplus⟩ := hsigns d hd
    rw [hchars] at htext hdigits
    rw [byte?_of_digits htext hminus hplus hdigits (by omega), UInt8.ofNat_toNat]

end CommandLine

end ChunkStrings
