import ChunkStrings.Proofs.Numerals
import ChunkStrings.Text.Columns
import Mathlib.Data.List.DropRight
import Mathlib.Data.List.Forall2

/-!
# Tables that are read again

What can be read of the text of a table, by one who knows the title of its last column and nothing
else (`Columns.read`). The line of the titles tells where the last column begins. In front of that
place every line has the words of the columns before; a line that has none there goes on with the
last cell of the row above it. So a cell of a column in front is read again if it has no blanks in
it, and of the last cell the lines that it takes are read, but for the blanks at their ends
(`Columns.read_lines`).

What gets lost of a cell in the last column are blanks and nothing else (`Columns.ink_lastLines`),
and only those at its end if it is not wider than any column may be
(`Columns.lastLines_of_le_widest`).
-/

namespace ChunkStrings

/-! ### Blanks -/

namespace Blank

/-- The words of a line: the runs of characters between blanks. -/
def words (chars : List Char) : List (List Char) :=
  (chars.splitOnP isBlank).filter (!·.isEmpty)

/-- The characters that are not blank. -/
def ink (chars : List Char) : List Char := chars.filter (!isBlank ·)

/-- There is no blank in a text. -/
def Solid (chars : List Char) : Prop := ∀ c ∈ chars, isBlank c = false

variable {chars blanks : List Char}

theorem ink_append (front rest : List Char) : ink (front ++ rest) = ink front ++ ink rest :=
  List.filter_append front rest

theorem words_append_cons {c : Char} (hc : isBlank c) (front rest : List Char) :
    words (front ++ c :: rest) = words front ++ words rest := by
  rw [words, List.splitOnP_append_cons front rest hc, List.filter_append]
  rfl

/-- Blanks have no words in them. -/
theorem words_append_blanks (h : ∀ c ∈ blanks, isBlank c) (chars : List Char) :
    words (chars ++ blanks) = words chars := by
  induction blanks generalizing chars with
  | nil => rw [List.append_nil]
  | cons c blanks ih =>
    obtain ⟨hc, hblanks⟩ := List.forall_mem_cons.mp h
    have hrest : words blanks = [] := ih hblanks []
    rw [words_append_cons hc, hrest, List.append_nil]

theorem words_blanks_append (h : ∀ c ∈ blanks, isBlank c) (chars : List Char) :
    words (blanks ++ chars) = words chars := by
  induction blanks with
  | nil => rfl
  | cons c blanks ih =>
    obtain ⟨hc, hblanks⟩ := List.forall_mem_cons.mp h
    exact (words_append_cons hc [] _).trans (ih hblanks)

/-- A text without blanks is its only word, unless it is empty. -/
theorem words_of_solid (h : Solid chars) : words chars = [chars].filter (!·.isEmpty) := by
  rw [words, List.splitOnP_eq_singleton h]

/-- **What is trimmed at the end are blanks.** -/
theorem exists_trimEnd (chars : List Char) :
    ∃ blanks, (∀ c ∈ blanks, isBlank c) ∧ trimEnd chars ++ blanks = chars :=
  ⟨chars.rtakeWhile isBlank, fun _ => List.mem_rtakeWhile_imp, List.rdropWhile_append_rtakeWhile⟩

theorem words_trimEnd (chars : List Char) : words (trimEnd chars) = words chars := by
  obtain ⟨blanks, hblanks, h⟩ := exists_trimEnd chars
  rw [← words_append_blanks hblanks, h]

theorem ink_trimEnd (chars : List Char) : ink (trimEnd chars) = ink chars := by
  obtain ⟨blanks, hblanks, h⟩ := exists_trimEnd chars
  have hnone : ink blanks = [] := List.filter_eq_nil_iff.mpr fun c hc => by simp [hblanks c hc]
  calc ink (trimEnd chars) = ink (trimEnd chars) ++ ink blanks := by rw [hnone, List.append_nil]
    _ = ink (trimEnd chars ++ blanks) := (ink_append _ _).symm
    _ = ink chars := by rw [h]

theorem length_trimEnd_le (chars : List Char) : (trimEnd chars).length ≤ chars.length := by
  obtain ⟨blanks, -, h⟩ := exists_trimEnd chars
  calc (trimEnd chars).length ≤ (trimEnd chars ++ blanks).length := by simp
    _ = chars.length := by rw [h]

/-- Where something is left of a text, what is in front of it is left alone. -/
theorem trimEnd_append_of_ne_nil (h : trimEnd chars ≠ []) (front : List Char) :
    trimEnd (front ++ chars) = front ++ trimEnd chars := by
  have hrest : chars.reverse.dropWhile isBlank ≠ [] := fun hnil => h (by rw [trimEnd, hnil]; rfl)
  rw [trimEnd, List.reverse_append, List.dropWhile_append, if_neg (by simpa using hrest),
    List.reverse_append, List.reverse_reverse]
  rfl

/-- **What a trimmed line has in front of a place and behind it:** in front the words that stood
there before it was trimmed, and behind what stood there, but for the blanks at its end. -/
theorem cut_trimEnd (front chars : List Char) :
    words ((trimEnd (front ++ chars)).take front.length) = words front ∧
      (trimEnd (front ++ chars)).drop front.length = trimEnd chars := by
  by_cases h : trimEnd chars = []
  · obtain ⟨blanks, hblanks, hchars⟩ := exists_trimEnd chars
    rw [h, List.nil_append] at hchars
    subst hchars
    rw [trimEnd_append hblanks, List.take_of_length_le (length_trimEnd_le front), words_trimEnd,
      List.drop_of_length_le (length_trimEnd_le front), h]
    exact ⟨rfl, rfl⟩
  · rw [trimEnd_append_of_ne_nil h, List.take_left, List.drop_left]
    exact ⟨rfl, rfl⟩

end Blank

namespace Columns

open Blank

/-! ### What is read -/

/-- A row as it can be read. -/
structure ReadRow where
  /-- The words in front of the last column. -/
  words : List (List Char)
  /-- The lines of the last cell. -/
  last : List (List Char)
  deriving DecidableEq, Repr

/-- Reads lines below the titles, where the last column begins at this place. Lines without a word
in front of it belong to the row above them; those above the first row come separately. -/
def readRows (place : Nat) : List String → List (List Char) × List ReadRow
  | [] => ([], [])
  | line :: lines =>
    let (below, rows) := readRows place lines
    let words := words (line.toList.take place)
    let here := line.toList.drop place
    if words.isEmpty then (here :: below, rows) else ([], ⟨words, here :: below⟩ :: rows)

/-- Reads a table whose last column has this title, to the left of the column. -/
def read (title : String) : List String → List ReadRow
  | [] => []
  | titles :: lines => (readRows (titles.toList.length - title.toList.length) lines).2

/-- The lines of a cell in the last column, as they can be read: there is one at least, and none
ends in a blank. -/
def lastLines (cell : List Char) : List (List Char) :=
  let lines := cellLines widest cell
  (List.range (max 1 lines.length)).map fun index => trimEnd (lines.getD index [])

/-- What can be read of a row with these cells. -/
def ReadRow.ofCells (front : List (List Char)) (last : List Char) : ReadRow :=
  ⟨front.filter (!·.isEmpty), lastLines last⟩

/-! ### Lines -/

/-- The text in front of the last column: the cells before, filled up, each with the two blanks
behind it. -/
def margin (aligns : List Align) (widths : List Nat) (cells : List (List Char)) : List Char :=
  (List.zipWith (fun shape cell => fill shape.1 shape.2 cell ++ [' ', ' ']) (aligns.zip widths)
    cells).flatten

/-- The length of this text, if the cells fit into their columns. -/
def marginWidth (widths : List Nat) : Nat := widths.foldr (· + 2 + ·) 0

variable {aligns : List Align} {widths : List Nat} {cells front : List (List Char)}
  {width place : Nat}

theorem intercalate_concat (separator last : List Char) (cells : List (List Char)) :
    List.intercalate separator (cells ++ [last]) = (cells.map (· ++ separator)).flatten ++ last := by
  induction cells with
  | nil => simp
  | cons cell cells ih =>
    cases cells with
    | nil => simp
    | cons next cells => simp_all

/-- Cells fit into columns of these widths. -/
def Fit (cells : List (List Char)) (widths : List Nat) : Prop :=
  List.Forall₂ (fun cell width => cell.length ≤ width) cells widths

/-- **A line is the text in front of the last column, and the last cell.** -/
theorem toList_line (haligns : aligns.length = widths.length) (hcells : Fit cells widths)
    (width : Nat) (cell : List Char) :
    (line (aligns ++ [.left]) (widths ++ [width]) (cells ++ [cell])).toList =
      trimEnd (margin aligns widths cells ++ cell) := by
  have hshapes : (aligns.zip widths).length = cells.length := by
    rw [List.length_zip, haligns, Nat.min_self, hcells.length_eq]
  rw [line, String.toList_ofList, List.zip_append haligns, List.zipWith_append hshapes]
  change trimEnd (List.intercalate [' ', ' '] (_ ++ [fill .left width cell])) = _
  rw [intercalate_concat, fill, ← List.append_assoc, trimEnd_append (by simp [isBlank]), margin,
    List.map_zipWith]

theorem length_fill {align : Align} {cell : List Char} (h : cell.length ≤ width) :
    (fill align width cell).length = width := by
  cases align <;> simp [fill, h]

theorem margin_cons (align : Align) (aligns : List Align) (width : Nat) (widths : List Nat)
    (cell : List Char) (cells : List (List Char)) :
    margin (align :: aligns) (width :: widths) (cell :: cells) =
      fill align width cell ++ ' ' :: ([' '] ++ margin aligns widths cells) := by
  simp [margin]

/-- The last column begins at the same place in every line. -/
theorem length_margin (haligns : aligns.length = widths.length) (hcells : Fit cells widths) :
    (margin aligns widths cells).length = marginWidth widths := by
  induction hcells generalizing aligns with
  | nil => cases aligns <;> rfl
  | cons hcell _ ih =>
    cases aligns with
    | nil => cases haligns
    | cons align aligns =>
      have hrest := ih (Nat.succ.inj haligns)
      simp only [margin_cons, List.length_append, List.length_cons, length_fill hcell, hrest,
        marginWidth, List.foldr_cons, List.length_nil]
      omega

theorem isBlank_of_mem_replicate {count : Nat} {c : Char} (h : c ∈ List.replicate count ' ') :
    isBlank c := by
  rw [List.eq_of_mem_replicate h]
  decide

theorem words_fill (align : Align) (width : Nat) (cell : List Char) :
    words (fill align width cell) = words cell := by
  cases align with
  | left => exact words_append_blanks (fun _ => isBlank_of_mem_replicate) cell
  | right => exact words_blanks_append (fun _ => isBlank_of_mem_replicate) cell

/-- **The words in front of the last column are the cells there**, without those that are empty. -/
theorem words_margin (haligns : aligns.length = widths.length) (hcells : Fit cells widths)
    (hsolid : ∀ cell ∈ cells, Solid cell) :
    words (margin aligns widths cells) = cells.filter (!·.isEmpty) := by
  induction hcells generalizing aligns with
  | nil => cases aligns <;> rfl
  | @cons cell width cells widths _ _ ih =>
    cases aligns with
    | nil => cases haligns
    | cons align aligns =>
      obtain ⟨hcell, hcells⟩ := List.forall_mem_cons.mp hsolid
      have hrest := ih (Nat.succ.inj haligns) hcells
      rw [margin_cons, words_append_cons (by decide), words_blanks_append (by simp [isBlank]), hrest,
        words_fill, words_of_solid hcell, ← List.filter_append]
      rfl

/-! ### Rows -/

/-- The cells in front of the last one, on a line of their row. They stand on its first line, and
below it is nothing. -/
def onLine (front : List (List Char)) (index : Nat) : List (List Char) :=
  front.map ([·].getD index [])

theorem fit_onLine (hfront : Fit front widths) (index : Nat) :
    Fit (onLine front index) widths := by
  refine List.forall₂_map_left_iff.mpr (hfront.imp fun cell width h => ?_)
  cases index with
  | zero => exact h
  | succ index => exact Nat.zero_le width

theorem zipWith_cellLines (hfront : Fit front widths) :
    List.zipWith cellLines widths front = front.map ([·]) := by
  induction hfront with
  | nil => rfl
  | cons hcell _ ih => rw [List.zipWith_cons_cons, ih, cellLines, if_pos hcell, List.map_cons]

theorem height_singletons (hne : front ≠ []) :
    ((front.map ([·])).map List.length).foldl max 0 = 1 := by
  obtain ⟨first, others, rfl⟩ := List.exists_cons_of_ne_nil hne
  change ((others.map ([·])).map List.length).foldl max 1 = 1
  clear hne
  induction others with
  | nil => rfl
  | cons other others ih => exact ih

/-- **A row has as many lines as its last cell, and one at least.** -/
theorem rowLines_eq (hfront : Fit front widths) (hne : front ≠ []) (aligns : List Align)
    (width : Nat) (cell : List Char) :
    rowLines aligns (widths ++ [width]) (front ++ [cell]) =
      (List.range (max 1 (cellLines width cell).length)).map fun index =>
        line aligns (widths ++ [width])
          (onLine front index ++ [(cellLines width cell).getD index []]) := by
  have hcells : List.zipWith cellLines (widths ++ [width]) (front ++ [cell]) =
      front.map ([·]) ++ [cellLines width cell] := by
    rw [List.zipWith_append hfront.length_eq.symm, zipWith_cellLines hfront]
    rfl
  rw [rowLines, hcells]
  simp only [List.map_append, List.foldl_append, height_singletons hne]
  simp only [List.map_map]
  rfl

variable {cell : List Char}

/-- Where a line of a row is cut, there is what the row has on it. -/
theorem cut_line (haligns : aligns.length = widths.length) (hfront : Fit front widths)
    (hsolid : ∀ cell ∈ front, Solid cell) (index : Nat) (width : Nat) (here : List Char) :
    let text := (line (aligns ++ [.left]) (widths ++ [width]) (onLine front index ++ [here])).toList
    words (text.take (marginWidth widths)) = (onLine front index).filter (!·.isEmpty) ∧
      text.drop (marginWidth widths) = trimEnd here := by
  intro text
  have hfit := fit_onLine hfront index
  have hsolid' : ∀ cell ∈ onLine front index, Solid cell := by
    intro cell hmem
    obtain ⟨cell, hcell, rfl⟩ := List.mem_map.mp hmem
    cases index with
    | zero => exact hsolid cell hcell
    | succ index => exact nofun
  have hcut := cut_trimEnd (margin aligns widths (onLine front index)) here
  rwa [length_margin haligns hfit, words_margin haligns hfit hsolid', ← toList_line haligns hfit
    width here] at hcut

/-- Lines without a word in front of the last column belong to the row above them. -/
theorem readRows_append {below : List String}
    (h : ∀ line ∈ below, words (line.toList.take place) = []) (lines : List String) :
    readRows place (below ++ lines) =
      (below.map (·.toList.drop place) ++ (readRows place lines).1, (readRows place lines).2) := by
  induction below with
  | nil => rfl
  | cons line below ih =>
    obtain ⟨hline, hbelow⟩ := List.forall_mem_cons.mp h
    rw [List.cons_append, readRows, ih hbelow, hline]
    rfl

/-- **The lines of a row are read as the row**, in front of others that begin with a row. -/
theorem readRows_rowLines (haligns : aligns.length = widths.length) (hfront : Fit front widths)
    (hsolid : ∀ cell ∈ front, Solid cell) (hsome : ∃ cell ∈ front, cell ≠ [])
    (hlast : cellLines width cell = cellLines widest cell) {lines : List String}
    {rows : List ReadRow} (hlines : readRows (marginWidth widths) lines = ([], rows)) :
    readRows (marginWidth widths)
        (rowLines (aligns ++ [.left]) (widths ++ [width]) (front ++ [cell]) ++ lines) =
      ([], .ofCells front cell :: rows) := by
  have hne : front ≠ [] := by
    rintro rfl
    obtain ⟨cell, hmem, -⟩ := hsome
    cases hmem
  have hcut := cut_line haligns hfront hsolid
  generalize marginWidth widths = place at hcut hlines ⊢
  obtain ⟨more, hmore⟩ : ∃ more, max 1 (cellLines widest cell).length = more + 1 :=
    ⟨max 1 (cellLines widest cell).length - 1, by omega⟩
  have hfirst : (onLine front 0).filter (!·.isEmpty) = front.filter (!·.isEmpty) := by
    simp [onLine]
  have hbelow : ∀ index, (onLine front (index + 1)).filter (!·.isEmpty) = [] := by
    simp [onLine]
  have hhere : (front.filter (!·.isEmpty)).isEmpty = false := by
    simpa [List.isEmpty_eq_false_iff, List.filter_eq_nil_iff] using hsome
  rw [rowLines_eq hfront hne, hlast, hmore, List.range_succ_eq_map, List.map_cons, List.map_map,
    List.cons_append, readRows, readRows_append, hlines]
  · simp only [(hcut _ _ _).1, (hcut _ _ _).2, hfirst, hhere, ReadRow.ofCells, lastLines, hmore,
      List.range_succ_eq_map]
    simp [Function.comp_def, (hcut _ _ _).2]
  · intro line hline
    obtain ⟨index, -, rfl⟩ := List.mem_map.mp hline
    exact (hcut _ _ _).1.trans (hbelow index)

/-! ### Widths -/

/-- The greater of two rows of numbers, number by number, is not less than either of them. -/
theorem forall₂_le_zipWith_max {left right : List Nat} (h : left.length = right.length) :
    List.Forall₂ (· ≤ ·) left (List.zipWith max left right) ∧
      List.Forall₂ (· ≤ ·) right (List.zipWith max left right) := by
  induction left generalizing right with
  | nil =>
    cases right with
    | nil => exact ⟨.nil, .nil⟩
    | cons number right => cases h
  | cons number left ih =>
    cases right with
    | nil => cases h
    | cons other right =>
      obtain ⟨hleft, hright⟩ := ih (Nat.succ.inj h)
      exact ⟨.cons (Nat.le_max_left _ _) hleft, .cons (Nat.le_max_right _ _) hright⟩

theorem forall₂_le_trans {first second third : List Nat} (h : List.Forall₂ (· ≤ ·) first second)
    (h' : List.Forall₂ (· ≤ ·) second third) : List.Forall₂ (· ≤ ·) first third := by
  induction h generalizing third with
  | nil => exact h'
  | cons hle _ ih =>
    cases h' with
    | cons hle' h' => exact .cons (Nat.le_trans hle hle') (ih h')

/-- What has been counted stays counted, and so is every row that is counted in. -/
theorem forall₂_foldl_max (rows : List (List (List Char))) (counted : List Nat)
    (hrows : ∀ row ∈ rows, row.length = counted.length) :
    let all := rows.foldl (fun lengths row => List.zipWith max lengths (row.map List.length)) counted
    List.Forall₂ (· ≤ ·) counted all ∧
      ∀ row ∈ rows, List.Forall₂ (· ≤ ·) (row.map List.length) all := by
  induction rows generalizing counted with
  | nil => exact ⟨List.forall₂_same.mpr fun _ _ => Nat.le_refl _, nofun⟩
  | cons row rows ih =>
    obtain ⟨hrow, hrows⟩ := List.forall_mem_cons.mp hrows
    have hcount : counted.length = (row.map List.length).length := by rw [List.length_map, hrow]
    obtain ⟨hcounted, hnew⟩ := forall₂_le_zipWith_max hcount
    obtain ⟨hall, hrest⟩ := ih (List.zipWith max counted (row.map List.length))
      (fun row hmem => by rw [hrows row hmem, hcounted.length_eq])
    exact ⟨forall₂_le_trans hcounted hall,
      List.forall_mem_cons.mpr ⟨forall₂_le_trans hnew hall, hrest⟩⟩

/-- Every row is counted in the lengths of the longest cells. -/
theorem forall₂_lengths {rows : List (List (List Char))} {count : Nat}
    (hrows : ∀ row ∈ rows, row.length = count) {row : List (List Char)} (hmem : row ∈ rows) :
    List.Forall₂ (· ≤ ·) (row.map List.length) (lengths rows) := by
  cases rows with
  | nil => cases hmem
  | cons first rows =>
    obtain ⟨hfirst, hrest⟩ := List.forall_mem_cons.mp hrows
    obtain ⟨hall, hothers⟩ := forall₂_foldl_max rows (first.map List.length)
      (fun row hmem => by rw [hrest row hmem, List.length_map, hfirst])
    rcases List.mem_cons.mp hmem with rfl | hmem
    · exact hall
    · exact hothers row hmem

theorem forall₂_concat {left right : List Nat} {a b : Nat} :
    List.Forall₂ (· ≤ ·) (left ++ [a]) (right ++ [b]) ↔ List.Forall₂ (· ≤ ·) left right ∧ a ≤ b := by
  rw [← List.forall₂_reverse_iff, List.reverse_concat, List.reverse_concat, List.forall₂_cons,
    List.forall₂_reverse_iff, and_comm]

/-- Cells that are not wider than any column may be fit, however long the others in their columns
are. -/
theorem fit_min {lengths : List Nat} (hnarrow : ∀ cell ∈ cells, cell.length ≤ widest)
    (h : Fit cells lengths) : Fit cells (lengths.map (min widest)) := by
  have hboth := (List.forall₂_and_left _ _).mpr ⟨hnarrow, h⟩
  exact List.forall₂_map_right_iff.mpr (hboth.imp fun _ _ h => Nat.le_min.mpr h)

/-- **The widths of a table:** what is not wider than any column may be has room in front of the last
column, and the last cell of a row is broken as if its column had the greatest width. -/
theorem exists_widths {rows : List (List (List Char) × List Char)} {count : Nat} (hne : rows ≠ [])
    (hrows : ∀ row ∈ rows, row.1.length = count) :
    ∃ widths width, widths.length = count ∧
      (lengths (rows.map fun row => row.1 ++ [row.2])).map (min widest) = widths ++ [width] ∧
      ∀ row ∈ rows, (∀ cell ∈ row.1, cell.length ≤ widest) →
        Fit row.1 widths ∧ cellLines width row.2 = cellLines widest row.2 := by
  have hlength : ∀ cells ∈ rows.map fun row => row.1 ++ [row.2], cells.length = count + 1 := by
    intro cells hcells
    obtain ⟨row, hrow, rfl⟩ := List.mem_map.mp hcells
    rw [List.length_append, hrows row hrow]
    rfl
  have hcounted : ∀ row ∈ rows, List.Forall₂ (· ≤ ·) (row.1.map List.length ++ [row.2.length])
      (lengths (rows.map fun row => row.1 ++ [row.2])) := by
    intro row hmem
    have hrow := forall₂_lengths hlength (List.mem_map_of_mem hmem)
    rwa [List.map_append] at hrow
  generalize lengths (rows.map fun row => row.1 ++ [row.2]) = counted at hcounted ⊢
  obtain ⟨first, others, rfl⟩ := List.exists_cons_of_ne_nil hne
  have hcount := (hcounted first List.mem_cons_self).length_eq
  rw [List.length_append, List.length_map, hrows first List.mem_cons_self] at hcount
  rcases List.eq_nil_or_concat counted with rfl | ⟨lengths, length, rfl⟩
  · cases hcount
  rw [List.concat_eq_append] at hcounted hcount ⊢
  have hcount : lengths.length = count := by simpa using hcount.symm
  refine ⟨lengths.map (min widest), min widest length, by rw [List.length_map, hcount],
    by rw [List.map_append]; rfl, fun row hmem hnarrow => ?_⟩
  obtain ⟨hfront, hlast⟩ := forall₂_concat.mp (hcounted row hmem)
  constructor
  · exact fit_min hnarrow (List.forall₂_map_left_iff.mp hfront)
  · rcases Nat.le_total row.2.length widest with hle | hge
    · rw [cellLines, cellLines, if_pos hle, if_pos (Nat.le_min.mpr ⟨hle, hlast⟩)]
    · rw [Nat.min_eq_left (Nat.le_trans hge hlast)]

/-! ### Tables -/

/-- **The cells in front of the last column can be read again.** -/
structure Legible (front : List (List Char)) : Prop where
  /-- None is wider than any column may be. -/
  narrow : ∀ cell ∈ front, cell.length ≤ widest
  /-- None has a blank in it. -/
  solid : ∀ cell ∈ front, Solid cell
  /-- One is not empty. -/
  some : ∃ cell ∈ front, cell ≠ []

/-- Rows are read one after another, by induction over them. -/
theorem readRows_flatMap (haligns : aligns.length = widths.length)
    {rows : List (List (List Char) × List Char)}
    (hrows : ∀ row ∈ rows, Legible row.1 ∧ Fit row.1 widths ∧
      cellLines width row.2 = cellLines widest row.2) :
    readRows (marginWidth widths) ((rows.map fun row => row.1 ++ [row.2]).flatMap
        (rowLines (aligns ++ [.left]) (widths ++ [width]))) =
      ([], rows.map fun row => .ofCells row.1 row.2) := by
  induction rows with
  | nil => rfl
  | cons row rows ih =>
    obtain ⟨⟨hlegible, hfit, hlast⟩, hrows⟩ := List.forall_mem_cons.mp hrows
    exact readRows_rowLines haligns hfit hlegible.solid hlegible.some hlast (ih hrows)

/-- The titles take one line, and the last of them ends it. -/
theorem rowLines_titles (haligns : aligns.length = widths.length) {titles : List (List Char)}
    {title : List Char} (hne : titles ≠ []) (hfit : Fit titles widths)
    (hlast : cellLines width title = cellLines widest title) (hnarrow : title.length ≤ widest)
    (htrim : trimEnd title = title) (htitle : title ≠ []) :
    ∃ line, rowLines (aligns ++ [.left]) (widths ++ [width]) (titles ++ [title]) = [line] ∧
      line.toList.length - title.length = marginWidth widths := by
  have hone : cellLines width title = [title] := hlast.trans (if_pos hnarrow)
  have hfirst : onLine titles 0 = titles := List.map_id' titles
  refine ⟨line (aligns ++ [.left]) (widths ++ [width]) (titles ++ [title]), ?_, ?_⟩
  · rw [rowLines_eq hfit hne, hone]
    exact congrArg (fun front => [line _ _ (front ++ [title])]) hfirst
  · rw [toList_line haligns hfit, trimEnd_append_of_ne_nil (by rwa [htrim]), htrim,
      List.length_append, Nat.add_sub_cancel, length_margin haligns hfit]

/-- **What is read of a table are its rows**, whatever the widths of the columns are: the cells in
front of the last column, and the lines of the last cell. The last column stands to the left, and
the titles are not wider than any column may be. -/
theorem read_lines {front : List Column} {last : Column} (hne : front ≠ [])
    (hlast : last.align = .left)
    (hnarrow : ∀ column ∈ front ++ [last], column.title.toList.length ≤ widest)
    (htrim : trimEnd last.title.toList = last.title.toList) (htitle : last.title.toList ≠ [])
    {rows : List (List String × String)}
    (hrows : ∀ row ∈ rows, row.1.length = front.length ∧ Legible (row.1.map String.toList)) :
    read last.title (lines (front ++ [last]) (rows.map fun row => row.1 ++ [row.2])) =
      rows.map fun row => .ofCells (row.1.map String.toList) row.2.toList := by
  let titles : List (List Char) × List Char := (front.map (·.title.toList), last.title.toList)
  let below : List (List (List Char) × List Char) :=
    rows.map fun row => (row.1.map String.toList, row.2.toList)
  have hcells : (front ++ [last]).map (·.title.toList) ::
      (rows.map fun row => row.1 ++ [row.2]).map (·.map String.toList) =
        (titles :: below).map fun row => row.1 ++ [row.2] := by
    simp [titles, below]
  have haligns : (front ++ [last]).map (·.align) = front.map (·.align) ++ [.left] := by
    rw [List.map_append, ← hlast]
    rfl
  have hcount : ∀ row ∈ titles :: below, row.1.length = front.length := by
    refine List.forall_mem_cons.mpr ⟨List.length_map _, fun row hmem => ?_⟩
    obtain ⟨row, hrow, rfl⟩ := List.mem_map.mp hmem
    rw [List.length_map, (hrows row hrow).1]
  obtain ⟨widths, width, hlength, hwidths, hfits⟩ := exists_widths (List.cons_ne_nil _ _) hcount
  have hsame : (front.map (·.align)).length = widths.length := by rw [List.length_map, hlength]
  obtain ⟨htitles, hbelow⟩ := List.forall_mem_cons.mp hfits
  have hfront : ∀ cell ∈ front.map (·.title.toList), cell.length ≤ widest := by
    intro cell hmem
    obtain ⟨column, hcolumn, rfl⟩ := List.mem_map.mp hmem
    exact hnarrow column (List.mem_append_left _ hcolumn)
  have hlegible : ∀ row ∈ below, Legible row.1 ∧ Fit row.1 widths ∧
      cellLines width row.2 = cellLines widest row.2 := by
    intro row hmem
    obtain ⟨given, hgiven, rfl⟩ := List.mem_map.mp hmem
    have hrow := (hrows given hgiven).2
    exact ⟨hrow, hbelow _ hmem hrow.narrow⟩
  obtain ⟨line, hline, hplace⟩ := rowLines_titles hsame
    (fun hnil => hne (List.map_eq_nil_iff.mp hnil)) (htitles hfront).1 (htitles hfront).2
    (hnarrow last List.mem_concat_self) htrim htitle
  have hlines : lines (front ++ [last]) (rows.map fun row => row.1 ++ [row.2]) =
      line :: (below.map fun row => row.1 ++ [row.2]).flatMap
        (rowLines (front.map (·.align) ++ [.left]) (widths ++ [width])) := by
    rw [lines, hcells, hwidths, haligns, List.map_cons, List.flatMap_cons, hline]
    rfl
  rw [hlines, read, hplace, readRows_flatMap hsame hlegible, List.map_map]
  rfl

/-! ### What gets lost of a last cell -/

/-- A cell that is not wider than any column may be is read in one line. -/
theorem lastLines_of_le_widest (h : cell.length ≤ widest) : lastLines cell = [trimEnd cell] := by
  rw [lastLines, cellLines, if_pos h]
  rfl

/-- The lines that are read are those of the cell without the blanks at their ends, or an empty one
if there is none. -/
theorem exists_lastLines_eq (cell : List Char) : ∃ lines : List (List Char),
    lastLines cell = lines.map trimEnd ∧ (lines = cellLines widest cell ∨
      lines = [[]] ∧ cellLines widest cell = []) := by
  cases h : cellLines widest cell with
  | nil => exact ⟨[[]], by rw [lastLines, h]; rfl, .inr ⟨rfl, rfl⟩⟩
  | cons line lines =>
    refine ⟨line :: lines, ?_, .inl rfl⟩
    have hcount : max 1 (line :: lines).length = (line :: lines).length :=
      Nat.max_eq_right (Nat.succ_le_succ (Nat.zero_le _))
    rw [lastLines, h, hcount]
    generalize line :: lines = lines
    refine List.ext_getElem (by simp) fun index _ hindex => ?_
    have hlt : index < lines.length := by simpa using hindex
    simp [hlt]

theorem length_le_of_mem_cellLines {line : List Char} (h : line ∈ cellLines widest cell) :
    line.length ≤ widest := by
  rw [cellLines] at h
  split at h
  · rw [List.mem_singleton.mp h]
    assumption
  · exact Wrap.length_le_of_mem_lines (by decide) h

/-- **No line that is read is wider than any column may be.** -/
theorem length_le_of_mem_lastLines {line : List Char} (h : line ∈ lastLines cell) :
    line.length ≤ widest := by
  obtain ⟨lines, hlines, hsource⟩ := exists_lastLines_eq cell
  rw [hlines] at h
  obtain ⟨line, hmem, rfl⟩ := List.mem_map.mp h
  refine Nat.le_trans (length_trimEnd_le line) ?_
  rcases hsource with rfl | ⟨rfl, -⟩
  · exact length_le_of_mem_cellLines hmem
  · rw [List.mem_singleton.mp hmem]
    exact Nat.zero_le _

theorem ink_flatten_map_trimEnd (lines : List (List Char)) :
    ink (lines.map trimEnd).flatten = ink lines.flatten := by
  induction lines with
  | nil => rfl
  | cons line lines ih =>
    rw [List.map_cons, List.flatten_cons, List.flatten_cons, ink_append, ink_append, ink_trimEnd, ih]

/-- To break a cell loses blanks and nothing else. -/
theorem ink_cellLines (width : Nat) (cell : List Char) :
    ink (cellLines width cell).flatten = ink cell := by
  -- the blanks that get lost are only those of one kind
  have hspace : ∀ chars : List Char, ink (chars.filter (· ≠ ' ')) = ink chars := by
    intro chars
    rw [ink, List.filter_filter]
    refine List.filter_congr fun c _ => ?_
    by_cases hc : c = ' '
    · subst hc
      rfl
    · simp [hc]
  rw [cellLines]
  split
  · rw [List.flatten_singleton]
  · rw [← hspace, Wrap.filter_flatten_lines, hspace]

/-- **Of a cell nothing gets lost but blanks.** -/
theorem ink_lastLines (cell : List Char) : ink (lastLines cell).flatten = ink cell := by
  obtain ⟨lines, hlines, hsource⟩ := exists_lastLines_eq cell
  rw [hlines, ink_flatten_map_trimEnd, ← ink_cellLines widest cell]
  rcases hsource with rfl | ⟨rfl, hnone⟩
  · rfl
  · rw [hnone]
    rfl

end Columns

end ChunkStrings
