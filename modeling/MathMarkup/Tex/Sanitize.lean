import MathMarkup.Tex.Cosmetic
import MathMarkup.Text.Letter

/-!
# Commands that touch files

`sanitize` takes out every command that reads or writes files, with the number and the blanks behind
its name and a flat brace group that follows.
-/

namespace MathMarkup.Tex

open Text

/-- Names of the commands that read or write files. -/
def fileCommands : List (List Char) :=
  ["input".toList, "include".toList, "write".toList, "read".toList, "openout".toList,
    "closeout".toList, "load".toList, "output".toList]

/-- The text after digits, when no word character follows them. -/
def afterNumber? (s : List Char) : Option (List Char) :=
  match s.dropWhile isDecimalDigit with
  | [] => some []
  | c :: rest => if isWord c then none else some (c :: rest)

/-- The text after a brace group without braces inside, or all of it when none stands here. -/
def afterFlatGroup (s : List Char) : List Char :=
  match s with
  | '{' :: t =>
    match flatBody? t with
    | some (_, rest) => rest
    | none => s
  | _ => s

/-- Takes out one command that touches files. -/
def fileCommandRule (s : List Char) : Option (List Char × List Char) := do
  let s ← after? ['\\'] s
  let rest ← fileCommands.findSome? fun name => after? name s
  let rest ← afterNumber? rest
  return ([], afterFlatGroup (trimStart rest))

/-- The text without commands that touch files. -/
def sanitize (s : List Char) : List Char := substitute fileCommandRule s

end MathMarkup.Tex
