import StagedCodegen.Text.Split
import StagedCodegen.Text.Width

/-!
# Tables

Rows of cells between lines. Every column is as wide as its widest cell, with a blank on both sides
and one more between columns. A cell may have several lines, and then the row has as many.
-/

namespace StagedCodegen.Terminal

/-- A table: its header and its rows. -/
structure Table where
  /-- The titles of the columns. -/
  header : List String
  /-- The cells of each row. -/
  rows : List (List String)

namespace Table

/-- The lines of a cell. -/
def cellLines (cell : String) : List String :=
  (Text.split '\n' cell.toList).map String.ofList

/-- The columns that a cell takes up. -/
def cellWidth (cell : String) : Nat :=
  ((cellLines cell).map Text.width).foldl max 1

/-- The greater of two numbers at every place, those of the longer list being kept. -/
def maxima : List Nat → List Nat → List Nat
  | [], ys => ys
  | xs, [] => xs
  | x :: xs, y :: ys => max x y :: maxima xs ys

/-- The width of each column, blanks aside. -/
def widths (t : Table) : List Nat :=
  (t.header :: t.rows).foldl (fun ws row => maxima ws (row.map cellWidth)) []

/-- A line of a cell with blanks behind it to fill a column. -/
def padded (width : Nat) (s : String) : String :=
  s ++ String.ofList (List.replicate (width - Text.width s) ' ')

/-- One line of a row, each cell with the width of its column. -/
def lineText (cells : List (Nat × String)) : String :=
  "│" ++ Text.joinTexts " " (cells.map fun (w, s) => " " ++ padded w s ++ " ") ++ "│"

/-- The lines of a row. -/
def rowLines (widths : List Nat) (row : List String) : List String :=
  let cells := row.map cellLines
  let height := (cells.map List.length).foldl max 1
  (List.range height).map fun i =>
    lineText (widths.zip (cells.map fun ls => (ls[i]?).getD ""))

/-- A line across the table. -/
def rule (left middle right : String) (widths : List Nat) : String :=
  left ++ String.join (List.replicate (widths.foldl (· + · + 2) (widths.length - 1)) middle) ++
    right

/-- The lines of a table. -/
def lines (t : Table) : List String :=
  let ws := t.widths
  [rule "┌" "─" "┐" ws] ++ rowLines ws t.header ++ [rule "╞" "═" "╡" ws] ++
    t.rows.flatMap (rowLines ws) ++ [rule "└" "─" "┘" ws]

/-- The text of a table, without a newline at its end. -/
def text (t : Table) : String := Text.joinTexts "\n" t.lines

end Table

end StagedCodegen.Terminal
