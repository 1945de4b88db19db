/-!
# Breaking a line

A line that is too wide is set again as several lines of a given width. Its words, which single
blanks part, are set one after another: a word that fits goes behind those before it, one that
does not opens a line of its own. Only a word wider than any line is broken, and then it first
fills up the line before it, if there is room for more than a sliver of it.

No line is wider than the width (`length_le_of_mem_lines`), and only blanks get lost
(`filter_flatten_lines`).
-/

namespace ChunkStrings

/-- A line that is set again: the lines that are finished and the one that is being set. -/
structure Wrap where
  /-- The finished lines, the last one first. -/
  finished : List (List Char)
  /-- The characters of the line that is being set, the last one first. -/
  current : List Char
  /-- How many they are. -/
  used : Nat
  /-- The count is right. -/
  length_current : current.length = used := by rfl

namespace Wrap

/-- So much room at the end of a line is not worth filling. -/
def sliver : Nat := 2

/-- Nothing is set yet. -/
def start : Wrap := ⟨[], [], 0, rfl⟩

/-- Finishes the line that is being set, unless it is empty. -/
def close (wrap : Wrap) : Wrap :=
  if wrap.used = 0 then wrap else ⟨wrap.current.reverse :: wrap.finished, [], 0, rfl⟩

/-- Sets a character on the line that is being set. -/
def push (wrap : Wrap) (char : Char) : Wrap :=
  ⟨wrap.finished, char :: wrap.current, wrap.used + 1, by simp [wrap.length_current]⟩

/-- Sets a character, on a new line if there is no room for it. -/
def setChar (width : Nat) (wrap : Wrap) (char : Char) : Wrap :=
  (if wrap.used < width then wrap else wrap.close).push char

/-- Whether a word of this size goes behind the words of the line that is being set: all of it if
it fits, or its beginning if it is wider than a line and there is room for more than a sliver. -/
def joins (width : Nat) (wrap : Wrap) (size : Nat) : Bool :=
  wrap.used + 1 + size ≤ width || (width < size && wrap.used + 1 + sliver < width)

/-- Makes ready for a word of this size: it comes behind a blank, or at the start of a line. -/
def makeReady (width : Nat) (wrap : Wrap) (size : Nat) : Wrap :=
  if wrap.used = 0 then wrap
  else if wrap.joins width size then wrap.setChar width ' '
  else wrap.close

/-- Finishes the line that is being set, if there is room for less than a sliver. -/
def closeFull (width : Nat) (wrap : Wrap) : Wrap :=
  if width < wrap.used + sliver then wrap.close else wrap

/-- Sets a word. -/
def setWord (width : Nat) (wrap : Wrap) (word : List Char) : Wrap :=
  (word.foldl (setChar width) (wrap.makeReady width word.length)).closeFull width

/-- The lines of at most this width that a line is broken into. -/
def lines (width : Nat) (line : List Char) : List (List Char) :=
  ((line.splitOn ' ').foldl (setWord width) start).close.finished.reverse

/-! ### No line is too wide -/

/-- The lines so far are at most this wide. -/
def Within (width : Nat) (wrap : Wrap) : Prop :=
  wrap.used ≤ width ∧ ∀ line ∈ wrap.finished, line.length ≤ width

theorem within_start (width : Nat) : Within width start := by
  simp [Within, start]

theorem Within.close {width : Nat} {wrap : Wrap} (h : Within width wrap) :
    Within width wrap.close := by
  obtain ⟨used_le, finished_le⟩ := h
  unfold Wrap.close
  split
  · exact ⟨used_le, finished_le⟩
  · refine ⟨Nat.zero_le _, fun line mem => ?_⟩
    rcases List.mem_cons.1 mem with rfl | mem
    · simpa [wrap.length_current] using used_le
    · exact finished_le line mem

@[simp] theorem used_close (wrap : Wrap) : wrap.close.used = 0 := by
  unfold close
  split <;> simp_all

theorem Within.setChar {width : Nat} (pos : 0 < width) {wrap : Wrap} (h : Within width wrap)
    (char : Char) : Within width (wrap.setChar width char) := by
  unfold Wrap.setChar
  split
  case isTrue used_lt => exact ⟨used_lt, h.2⟩
  case isFalse => exact ⟨by simp only [push, used_close]; exact pos, h.close.2⟩

theorem Within.setWord {width : Nat} (pos : 0 < width) {wrap : Wrap} (h : Within width wrap)
    (word : List Char) : Within width (wrap.setWord width word) := by
  have ready : Within width (wrap.makeReady width word.length) := by
    unfold makeReady
    split
    · exact h
    · split
      · exact h.setChar pos ' '
      · exact h.close
  have set : Within width (word.foldl (Wrap.setChar width) (wrap.makeReady width word.length)) :=
    List.foldlRecOn word _ ready fun _ h char _ => h.setChar pos char
  unfold Wrap.setWord closeFull
  split
  · exact set.close
  · exact set

/-- No line is wider than the width. -/
theorem length_le_of_mem_lines {width : Nat} (pos : 0 < width) {line part : List Char}
    (h : part ∈ lines width line) : part.length ≤ width := by
  have set : Within width ((line.splitOn ' ').foldl (setWord width) start) :=
    List.foldlRecOn _ _ (within_start width) fun _ h word _ => h.setWord pos word
  exact set.close.2 part (List.mem_reverse.1 h)

/-! ### Only blanks get lost -/

/-- All characters that are set but the blanks, in their order. -/
def ink (wrap : Wrap) : List Char :=
  (wrap.finished.reverse.flatten ++ wrap.current.reverse).filter (· ≠ ' ')

@[simp] theorem ink_close (wrap : Wrap) : wrap.close.ink = wrap.ink := by
  unfold close
  split
  · rfl
  · simp [ink]

@[simp] theorem ink_push (wrap : Wrap) (char : Char) :
    (wrap.push char).ink = wrap.ink ++ [char].filter (· ≠ ' ') := by
  simp [ink, push]

@[simp] theorem ink_setChar (width : Nat) (wrap : Wrap) (char : Char) :
    (wrap.setChar width char).ink = wrap.ink ++ [char].filter (· ≠ ' ') := by
  unfold setChar
  split <;> simp only [ink_push, ink_close]

theorem ink_foldl_setChar (width : Nat) (word : List Char) (wrap : Wrap) :
    (word.foldl (setChar width) wrap).ink = wrap.ink ++ word.filter (· ≠ ' ') := by
  induction word generalizing wrap with
  | nil => simp
  | cons char word ih => rw [List.foldl_cons, ih, ink_setChar, List.append_assoc,
      ← List.filter_append, List.singleton_append]

@[simp] theorem ink_setWord (width : Nat) (wrap : Wrap) (word : List Char) :
    (wrap.setWord width word).ink = wrap.ink ++ word.filter (· ≠ ' ') := by
  have ready : (wrap.makeReady width word.length).ink = wrap.ink := by
    unfold makeReady
    split
    · rfl
    · split <;> simp
  unfold setWord closeFull
  split <;> simp only [ink_close, ink_foldl_setChar, ready]

theorem ink_foldl_setWord (width : Nat) (words : List (List Char)) (wrap : Wrap) :
    (words.foldl (setWord width) wrap).ink = wrap.ink ++ words.flatten.filter (· ≠ ' ') := by
  induction words generalizing wrap with
  | nil => simp
  | cons word words ih => simp [ih]

/-- Joined with blanks or just put together, words have the same ink. -/
theorem filter_intercalate_blank (words : List (List Char)) :
    (List.intercalate [' '] words).filter (· ≠ ' ') = words.flatten.filter (· ≠ ' ') := by
  induction words with
  | nil => rfl
  | cons word words ih =>
    cases words with
    | nil => simp
    | cons next words => simp_all [List.intercalate_cons_cons]

/-- The lines have all characters of the line that is broken, in their order, but for blanks. -/
theorem filter_flatten_lines (width : Nat) (line : List Char) :
    (lines width line).flatten.filter (· ≠ ' ') = line.filter (· ≠ ' ') := by
  have closed : (lines width line).flatten.filter (· ≠ ' ') =
      ((line.splitOn ' ').foldl (setWord width) start).close.ink := by
    have none_left (wrap : Wrap) : wrap.close.current = [] :=
      List.eq_nil_of_length_eq_zero (by rw [length_current, used_close])
    simp [lines, ink, none_left]
  rw [closed, ink_close, ink_foldl_setWord, ← filter_intercalate_blank, List.intercalate_splitOn]
  simp [ink, start]

end Wrap

end ChunkStrings
