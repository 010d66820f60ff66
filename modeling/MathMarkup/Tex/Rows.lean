import MathMarkup.Text.Blank

/-!
# Rows of an expression

A text whose only line breaks are the ones between its rows becomes one `align*` environment: runs of
line breaks collapse into one, empty rows go, and every row after the first has an alignment anchor.
-/

namespace MathMarkup.Tex

open Text

/-- What stands between two rows once line breaks are collapsed. -/
def rowBreak : List Char := ['\\', '\\', ' ']

/-- The text after a line break, and after all further ones and the blanks around them. -/
def afterLineBreaks : List Char → List Char
  | '\\' :: '\\' :: s => afterLineBreaks (trimStart s)
  | s => s
termination_by s => s.length
decreasing_by
  have := (List.dropWhile_suffix (l := s) isBlank).length_le
  simp only [trimStart, List.length_cons]
  omega

/-- A run of line breaks at the start of the text becomes one. -/
def lineBreakRule : List Char → Option (List Char × List Char)
  | '\\' :: '\\' :: s => some (rowBreak, afterLineBreaks ('\\' :: '\\' :: s))
  | _ => none

/-- Makes one line break of every run of them. -/
def collapseLineBreaks (s : List Char) : List Char := substitute lineBreakRule s

/-- The rows between line breaks, trimmed, without the empty ones. -/
def splitRows (s : List Char) : List (List Char) :=
  ((splitOn rowBreak s).map trim).filter fun row => !row.isEmpty

/-- A row with the anchor that it is aligned by. -/
def anchored (row : List Char) : List Char :=
  match row with
  | '&' :: _ => row
  | _ => '&' :: ' ' :: row

/-- Every row after the first has an anchor. -/
def anchorRows : List (List Char) → List (List Char)
  | [] => []
  | row :: rows => row :: rows.map anchored

/-- The rows with ` \\ ` between them. -/
def joinRows (rows : List (List Char)) : List Char := [' ', '\\', '\\', ' '].intercalate rows

theorem intercalate_cons_eq (sep x : List Char) (xs : List (List Char)) :
    sep.intercalate (x :: xs) = x ++ xs.flatMap fun x => sep ++ x := by
  induction xs generalizing x with
  | nil => simp
  | cons y xs ih => rw [List.intercalate_cons_cons, ih, List.flatMap_cons, List.append_assoc, List.append_assoc]

theorem joinRows_cons (r : List Char) (rs : List (List Char)) :
    joinRows (r :: rs) = r ++ rs.flatMap fun r => [' ', '\\', '\\', ' '] ++ r := intercalate_cons_eq _ r rs

/-- The text as one `align*` environment. -/
def normalizeLines (s : List Char) : List Char :=
  "\\begin\x7balign*\x7d ".toList ++ joinRows (anchorRows (splitRows (collapseLineBreaks s))) ++
    " \\end\x7balign*\x7d".toList

end MathMarkup.Tex
