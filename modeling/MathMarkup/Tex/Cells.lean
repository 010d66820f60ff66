import MathMarkup.Tex.Placeholder
import MathMarkup.Tex.Rows

/-!
# Cells of a table

The body of a table is cut into rows at its own line breaks and into cells at its own alignment tabs;
what stands inside commands and their arguments is left whole.
-/

namespace MathMarkup.Tex

open Text

/-- Puts a character in front of the first cell. -/
def consCell (c : Char) : List (List Char) → List (List Char)
  | [] => [[c]]
  | cell :: cells => (c :: cell) :: cells

/-- Cuts a row at its tabs; a tab behind an odd number of backslashes is none. -/
def splitCellsFrom (escaped : Bool) : List Char → List (List Char)
  | [] => [[]]
  | c :: s =>
    if c = '\\' then consCell c (splitCellsFrom (!escaped) s)
    else if c = '&' ∧ escaped = false then [] :: splitCellsFrom false s
    else consCell c (splitCellsFrom false s)

/-- The cells of a row. -/
def splitCells (row : List Char) : List (List Char) := splitCellsFrom false row

/-- The rows of a table, each a list of trimmed cells. -/
def tableCells (body : List Char) : List (List (List Char)) :=
  let (p, guarded) := Placeholders.empty.protect body
  (splitRows (collapseLineBreaks guarded)).map fun row =>
    (splitCells row).map fun cell => p.restore (trim cell)

end MathMarkup.Tex
