import MathMarkup.Text.Basic
import MathMarkup.Text.Quoted

/-!
# Cursors, and faults in XML

A cursor is the rest of a text with its row and column. Whatever makes a text no XML is a `Fault`,
which knows its place and has one wording.
-/

namespace MathMarkup.Xml

open Text

/-- A place in a text, by row and column, both from 1; columns count characters. -/
structure Position where
  row : Nat
  column : Nat
deriving DecidableEq, Repr

/-- Row and column, as messages give them. -/
def Position.render (p : Position) : String := toString p.row ++ ":" ++ toString p.column

/-- What is wrong at some place. -/
inductive Mistake where
  | unknownToken
  | invalidName
  | badCharacter (c : Char)
  /-- Another character was needed; `got` is given by the first byte of its UTF-8 form. -/
  | expectedByte (wanted got : Char)
  | expectedKind (wanted : String) (got : Char)
  | expectedWord (word : String)
  | declaration
  | comment
  | characterData
  | closeTag (wanted got : String)
  | unknownEntity (name : String)
  | malformedReference
  | elementPrefix
  | wrongXmlSpace
  | xmlSpaceTaken
  | xmlnsDeclared
  | duplicatePrefix (name : String)
  | unknownPrefix (name : String)
  | duplicateAttribute (name : String)
deriving DecidableEq, Repr

/-- Why a text is no XML. -/
inductive Fault where
  | at (mistake : Mistake) (position : Position)
  /-- There is a document type declaration. -/
  | doctype
  | noRoot
  | unclosedRoot
  | unexpectedEnd
deriving DecidableEq, Repr

/-- A character that XML excludes, as messages show it. -/
def showExcluded (c : Char) : String :=
  "'" ++ String.ofList (if c = '\x00' then ['\\', '0'] else codePoint c) ++ "'"

def Mistake.message (m : Mistake) (place : String) : String :=
  match m with
  | unknownToken => "unknown token at " ++ place
  | invalidName => "invalid name token at " ++ place
  | badCharacter c => "a non-XML character " ++ showExcluded c ++ " found at " ++ place
  | expectedByte wanted got =>
    "expected '" ++ wanted.toString ++ "' not '" ++ got.toString ++ "' at " ++ place
  | expectedKind wanted got => "expected " ++ wanted ++ " not '" ++ got.toString ++ "' at " ++ place
  | expectedWord word => "expected '" ++ word ++ "' at " ++ place
  | declaration => "unexpected XML declaration at " ++ place
  | comment => "comment at " ++ place ++ " contains '--'"
  | characterData => "']]>' at " ++ place ++ " is not allowed inside a character data"
  | closeTag wanted got => "expected '" ++ wanted ++ "' tag, not '" ++ got ++ "' at " ++ place
  | unknownEntity name => "unknown entity reference '" ++ name ++ "' at " ++ place
  | malformedReference => "malformed entity reference at " ++ place
  | elementPrefix => "the 'xmlns' prefix is used at " ++ place ++ ", but it must not be"
  | wrongXmlSpace => "'xml' namespace prefix mapped to wrong URI at " ++ place
  | xmlSpaceTaken => "the 'xml' namespace URI is used for not 'xml' prefix at " ++ place
  | xmlnsDeclared => "the 'xmlns' URI is used at " ++ place ++ ", but it must not be declared"
  | duplicatePrefix name => "namespace '" ++ name ++ "' at " ++ place ++ " is already defined"
  | unknownPrefix name => "an unknown namespace prefix '" ++ name ++ "' at " ++ place
  | duplicateAttribute name => "attribute '" ++ name ++ "' at " ++ place ++ " is already defined"

def Fault.message : Fault → String
  | .at mistake position => mistake.message position.render
  | doctype => "XML with DTD detected"
  | noRoot => "the document does not have a root node"
  | unclosedRoot => "the root node was opened but never closed"
  | unexpectedEnd => "unexpected end of stream"

/-- The row to report; a fault without a place is reported in the first one. -/
def Fault.row : Fault → Nat
  | .at _ position => position.row
  | _ => 1

/-! ## Cursors -/

/-- The rest of a text and its place. -/
structure Cursor where
  rest : List Char
  position : Position

/-- The place behind one more character. -/
def Position.next (p : Position) (c : Char) : Position :=
  if c = '\n' then ⟨p.row + 1, 1⟩ else ⟨p.row, p.column + 1⟩

/-- The place behind a text. -/
def Position.after (p : Position) (s : List Char) : Position := s.foldl Position.next p

namespace Cursor

/-- The start of a text. -/
def start (s : List Char) : Cursor := ⟨s, ⟨1, 1⟩⟩

/-- The cursor `n` characters further on. -/
def advance (c : Cursor) (n : Nat) : Cursor :=
  ⟨c.rest.drop n, c.position.after (c.rest.take n)⟩

/-- A mistake at this place. -/
def fault (c : Cursor) (m : Mistake) : Fault := .at m c.position

/-- Does this word come next? -/
def sees (c : Cursor) (word : String) : Bool := (after? word.toList c.rest).isSome

/-- The characters in front that satisfy `p`, and the cursor behind them. -/
def span (p : Char → Bool) (c : Cursor) : List Char × Cursor :=
  let word := c.rest.takeWhile p
  (word, c.advance word.length)

/-- Blanks between the parts of markup. -/
def isSpace (c : Char) : Bool := c == ' ' || c == '\t' || c == '\n' || c == '\r'

/-- Does a blank come next? -/
def atSpace (c : Cursor) : Bool := (c.rest.head?.map isSpace).getD false

def skipSpace (c : Cursor) : Cursor := (c.span isSpace).2

/-- A character by the first byte of its UTF-8 form. -/
def leadByte (c : Char) : Char :=
  let n := c.toNat
  if n < 0x80 then c
  else if n < 0x800 then Char.ofNat (0xC0 + n / 0x40)
  else if n < 0x10000 then Char.ofNat (0xE0 + n / 0x1000)
  else Char.ofNat (0xF0 + n / 0x40000)

/-- Consumes this character. -/
def expect (wanted : Char) (c : Cursor) : Except Fault Cursor :=
  match c.rest with
  | [] => .error .unexpectedEnd
  | got :: _ =>
    if got = wanted then .ok (c.advance 1) else .error (c.fault (.expectedByte wanted (leadByte got)))

/-- Consumes this word. -/
def expectWord (word : String) (c : Cursor) : Except Fault Cursor :=
  if c.sees word then .ok (c.advance word.length) else .error (c.fault (.expectedWord word))

/-- Consumes a quote and tells which one. -/
def expectQuote (c : Cursor) : Except Fault (Char × Cursor) :=
  match c.rest with
  | [] => .error .unexpectedEnd
  | got :: _ =>
    if got = '\'' ∨ got = '"' then .ok (got, c.advance 1)
    else .error (c.fault (.expectedKind "a quote" (leadByte got)))

/-- Characters that XML admits. -/
def isAdmitted (c : Char) : Bool :=
  let n := c.toNat
  if n < 0x20 then n == 0x9 || n == 0xA || n == 0xD else n != 0xFFFE && n != 0xFFFF

/-- The text up to the first place where `stop` holds of the rest, and the cursor there. -/
def admittedFrom (stop : List Char → Bool) : Position → List Char → Except Fault (List Char × Cursor)
  | p, [] => .ok ([], ⟨[], p⟩)
  | p, c :: s =>
    if !isAdmitted c then .error (.at (.badCharacter c) p)
    else if stop (c :: s) then .ok ([], ⟨c :: s, p⟩)
    else (admittedFrom stop (p.next c) s).map fun (text, rest) => (c :: text, rest)

/-- The text in front of the first place where `stop` holds of the rest. -/
def admitted (stop : List Char → Bool) (c : Cursor) : Except Fault (List Char × Cursor) :=
  admittedFrom stop c.position c.rest

/-- Does the text start with this word? -/
def starts (word : String) (s : List Char) : Bool := (after? word.toList s).isSome

end Cursor

end MathMarkup.Xml
