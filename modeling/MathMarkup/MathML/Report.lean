import MathMarkup.Diagnostic
import MathMarkup.Text.Letter
import MathMarkup.Xml.Escape

/-!
# Reports of outside checkers

What a checker elsewhere says about a fragment, read into diagnostics. Two forms are understood: the
page that a markup checker on the web answers with (`Verdict.ofPage`), and plain logs with a finding
per line (`readLog`). `webDocument` is what such a checker is given.
-/

namespace MathMarkup.MathML

open Text

/-! ## The document that is checked -/

/-- A fragment inside a whole document. -/
def webDocument (s : List Char) : List Char :=
  ("<?xml version=\"1.0\" encoding=\"UTF-8\"?>\n" ++
    "<!DOCTYPE html PUBLIC \"-//W3C//DTD XHTML 1.1 plus MathML 2.0//EN\"\n" ++
    "  \"http://www.w3.org/Math/DTD/mathml2/xhtml-math11-f.dtd\">\n" ++
    "<html xmlns=\"http://www.w3.org/1999/xhtml\">\n" ++
    "<head><title>MathML fragment</title></head>\n" ++
    "<body>\n").toList ++ s ++ "\n</body>\n</html>\n".toList

/-- How many lines of the document stand before the fragment. -/
def linesBefore : Nat := 6

/-! ## Pages -/

/-- What a checker on the web says. -/
inductive Verdict where
  | valid
  | invalid (diagnostics : List Diagnostic)
  /-- There is no answer that could be read. -/
  | unavailable (reason : String)
deriving DecidableEq, Repr

def Verdict.toJson : Verdict → Json
  | .valid => .object [("status", .string "valid")]
  | .invalid diagnostics =>
    .object [("status", .string "invalid"), ("detail", .array (diagnostics.map Diagnostic.toJson))]
  | .unavailable reason => .object [("status", .string "unavailable"), ("detail", .string reason)]

/-- The text behind a tag whose rest starts here. -/
def afterTag? (s : List Char) : Option (List Char) := (breakOn? ['>'] s).map (·.2)

/-- How the items that report an error start. -/
def itemStarts : List (List Char) :=
  ["<li class=\"error\"".toList, "<li class=\"msg_err\"".toList]

/-- The content of an item that reports an error, and the text behind it. -/
def item? (s : List Char) : Option (List Char × List Char) := do
  let rest ← itemStarts.findSome? fun start => after? start s
  let rest ← afterTag? rest
  breakOn? "</li>".toList rest

/-- The contents of all items that report errors. -/
def items : List Char → List (List Char)
  | [] => []
  | c :: s =>
    match item? (c :: s) with
    | some (content, rest) =>
      if rest.length ≤ s.length then content :: items rest else items s
    | none => items s
termination_by s => s.length

/-- A number of 32 bits in ASCII digits. -/
def number? (digits : List Char) : Option Nat :=
  let n := digits.foldl (fun n c => 10 * n + (c.toNat - '0'.toNat)) 0
  if digits.all Char.isDigit && n < Nat.pow 2 32 then some n else none

/-- The digits behind the word "line", when they stand here. -/
def lineDigits? (s : List Char) : Option (List Char) := do
  let s ← afterFolded? "line".toList s
  if !(s.head?.any isBlank) then none
  match (trimStart s).takeWhile isDecimalDigit with
  | [] => none
  | digits => return digits

/-- The digits of the first line that is mentioned; `inWord` tells whether a word goes on here. -/
def lineMention? (inWord : Bool) : List Char → Option (List Char)
  | [] => none
  | c :: s =>
    match if inWord then none else lineDigits? (c :: s) with
    | some digits => some digits
    | none => lineMention? (isWord c) s

/-- The line of the fragment that a line of the document is. -/
def fragmentLine (line : Nat) : Nat := max (line - linesBefore) 1

/-- Tags become spaces. -/
def tagRule (s : List Char) : Option (List Char × List Char) := do
  let rest ← after? ['<'] s
  let rest ← afterTag? rest
  return ([' '], rest)

/-- A run of blanks becomes one space. -/
def blankRule (s : List Char) : Option (List Char × List Char) :=
  if s.head?.any isBlank then some ([' '], trimStart s) else none

/-- The words of an item. -/
def itemMessage (s : List Char) : List Char :=
  Xml.unescape (substitute blankRule (trim (substitute tagRule s)))

/-- The diagnostic that an item reports. -/
def itemDiagnostic (s : List Char) : Diagnostic :=
  let message := String.ofList (itemMessage s)
  ⟨((lineMention? false s).bind number?).map fragmentLine, message, Category.ofMessage message⟩

/-- Reads the page with the result of a check. -/
def Verdict.ofPage (s : List Char) : Verdict :=
  let diagnostics := (items s).map itemDiagnostic
  if !diagnostics.isEmpty then .invalid diagnostics
  else if contains "Valid".toList s || contains "successfully checked".toList s then .valid
  else .unavailable "validator response contained no verdict"

/-! ## Logs -/

/-- The finding on a line of a log, if there is one. -/
def logDiagnostic? (line : List Char) : Option Diagnostic :=
  let behind (start : String) : Option (List Char) := after? start.toList line
  let starts (start : String) : Bool := (behind start).isSome
  let made (category : Category) (message : List Char) : Option Diagnostic :=
    some (.plain category (String.ofList message))
  match behind "Invalid tag:", behind "Missing required attribute:", behind "! " with
  | some rest, _, _ => made .badSyntax ("invalid tag ".toList ++ trim rest)
  | _, some rest, _ => made .missingAttribute ("missing required attribute ".toList ++ trim rest)
  | _, _, some rest =>
    if starts "! Undefined control sequence" then
      made .undefinedCommand "undefined control sequence".toList
    else made .badSyntax (rest.reverse.dropWhile (· == '.')).reverse
  | none, none, none =>
    if starts "Invalid attribute value" then made .badSyntax line
    else if starts "Malformed XML" then made .malformed line
    else none

/-- The digits of a reference to a line. -/
def lineReference? (line : List Char) : Option (List Char) := do
  let rest ← after? "l.".toList line
  match rest.takeWhile isDecimalDigit with
  | [] => none
  | digits => return digits

/-- Gives the newest diagnostic, which comes first, a line if it has none. -/
def placeNewest (line : Option Nat) : List Diagnostic → List Diagnostic
  | [] => []
  | d :: older => { d with line := d.line <|> line } :: older

/-- Reads lines; the diagnostics so far come newest first. -/
def readLogLines (found : List Diagnostic) : List (List Char) → List Diagnostic
  | [] => found.reverse
  | line :: rest =>
    let line := trim line
    match lineReference? line with
    | some digits => readLogLines (placeNewest (number? digits) found) rest
    | none => readLogLines ((logDiagnostic? line).toList ++ found) rest

/-- Reads a log: one finding per line, and lines that tell where the finding before them is. -/
def readLog (s : List Char) : List Diagnostic := readLogLines [] (splitOn ['\n'] s)

end MathMarkup.MathML
