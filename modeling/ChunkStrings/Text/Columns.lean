import ChunkStrings.Text.Blank
import ChunkStrings.Text.Wrap

/-!
# Text in columns

A table without borders: each column is as wide as its widest cell or its title, two blanks
part neighbouring columns, and no line ends in a blank. No column is wider than `Columns.widest`
though: what does not fit is broken, and its row takes as many lines as that needs.
-/

namespace ChunkStrings

/-- The side of its column that a cell stands at. -/
inductive Align where
  /-- Cells start together. -/
  | left
  /-- Cells end together. -/
  | right
  deriving DecidableEq, Repr

/-- A column of a table. -/
structure Column where
  /-- The text at the head of the column. -/
  title : String
  /-- Where the cells of the column stand. -/
  align : Align
  deriving DecidableEq, Repr

namespace Columns

/-- A cell filled up with blanks to the width of its column. -/
def fill (align : Align) (width : Nat) (cell : List Char) : List Char :=
  match align with
  | .left => cell ++ List.replicate (width - cell.length) ' '
  | .right => List.replicate (width - cell.length) ' ' ++ cell

/-- The width that no column exceeds. -/
def widest : Nat := 65535

/-- The lengths of the longest cell of every column, over all rows. -/
def lengths (rows : List (List (List Char))) : List Nat :=
  match rows with
  | [] => []
  | row :: rows => rows.foldl (fun lengths row => List.zipWith max lengths (row.map List.length))
    (row.map List.length)

/-- The lines of a cell: it is broken only if it is wider than its column. -/
def cellLines (width : Nat) (cell : List Char) : List (List Char) :=
  if cell.length ≤ width then [cell] else Wrap.lines width cell

/-- One line of the table: a row whose cells are filled up, without the blanks at its end. -/
def line (aligns : List Align) (widths : List Nat) (row : List (List Char)) : String :=
  let cells := List.zipWith (fun shape cell => fill shape.1 shape.2 cell) (aligns.zip widths) row
  String.ofList (Blank.trimEnd (List.intercalate [' ', ' '] cells))

/-- The lines of a row, as many as its cell with the most of them has. The others are empty
below their own. -/
def rowLines (aligns : List Align) (widths : List Nat) (row : List (List Char)) : List String :=
  let cells := List.zipWith cellLines widths row
  let height := (cells.map List.length).foldl max 0
  (List.range height).map fun index => line aligns widths (cells.map (·.getD index []))

/-- The lines of a table, that of the titles first. -/
def lines (columns : List Column) (rows : List (List String)) : List String :=
  let cells := columns.map (·.title.toList) :: rows.map (·.map String.toList)
  let widths := (lengths cells).map (min widest)
  cells.flatMap (rowLines (columns.map (·.align)) widths)

end Columns

end ChunkStrings
