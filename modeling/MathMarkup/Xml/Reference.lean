import MathMarkup.Xml.Name

/-!
# References and line ends

What character data and attribute values stand for: references are replaced by characters, line ends
become line feeds in text and spaces in attribute values. Only the predefined entities are known.
-/

namespace MathMarkup.Xml

open Text

/-- What a reference stands for. -/
inductive Reference where
  | char (c : Char)
  | entity (name : List Char)
deriving DecidableEq, Repr

/-- The predefined entities. -/
def predefined : List (String × Char) :=
  [("quot", '"'), ("amp", '&'), ("apos", '\''), ("lt", '<'), ("gt", '>')]

/-- The value of a digit of the given radix, 10 or 16. -/
def digitValue? (radix : Nat) (c : Char) : Option Nat :=
  if c.isDigit then some (c.toNat - '0'.toNat)
  else if radix = 16 ∧ 'a' ≤ c ∧ c ≤ 'f' then some (c.toNat - 'a'.toNat + 10)
  else if radix = 16 ∧ 'A' ≤ c ∧ c ≤ 'F' then some (c.toNat - 'A'.toNat + 10)
  else none

/-- The number that digits make. -/
def numberOf (radix : Nat) (digits : List Char) : Nat :=
  digits.foldl (fun n c => n * radix + (digitValue? radix c).getD 0) 0

/-- The character with this number; a number that is none stands for the replacement character. -/
def characterOf (n : Nat) : Char := if n.isValidChar then Char.ofNat n else '\ufffd'

/-- The character that digits stand for: the number fits into 32 bits, and XML admits the character. -/
def numbered? (radix : Nat) (digits : List Char) : Option Reference :=
  let n := numberOf radix digits
  if digits.isEmpty || Nat.pow 2 32 ≤ n then none
  else
    let c := characterOf n
    if Cursor.isAdmitted c then some (.char c) else none

/-- The reference that digits of this radix make, and the text after them. -/
def splitNumber? (radix : Nat) (s : List Char) : Option (Reference × List Char) :=
  let isDigit (c : Char) := (digitValue? radix c).isSome
  (numbered? radix (s.takeWhile isDigit)).map fun reference => (reference, s.dropWhile isDigit)

/-- What an entity name stands for. -/
def named (name : List Char) : Reference :=
  match predefined.lookup (String.ofList name) with
  | some c => .char c
  | none => .entity name

/-- The reference between an ampersand and a semicolon, and the text from that semicolon on. -/
def splitUnclosed? : List Char → Option (Reference × List Char)
  | '#' :: 'x' :: s => splitNumber? 16 s
  | '#' :: s => splitNumber? 10 s
  | s => (splitName? s).map fun (name, rest) => (named name, rest)

/-- The reference behind an ampersand, up to its semicolon, and the text after it. -/
def splitReference? (s : List Char) : Option (Reference × List Char) := do
  let (reference, rest) ← splitUnclosed? s
  let rest ← after? [';'] rest
  return (reference, rest)

/-- A character that was written, or one that a reference stands for. -/
structure Letter where
  char : Char
  referenced : Bool
deriving DecidableEq, Repr

/-- The characters of a text without its references. -/
def resolve (p : Position) : List Char → Except Fault (List Letter)
  | [] => .ok []
  | c :: s =>
    if c ≠ '&' then (resolve (p.next c) s).map (⟨c, false⟩ :: ·)
    else
      match splitReference? s with
      | none => .error (.at .malformedReference p)
      | some (.entity name, _) => .error (.at (.unknownEntity (String.ofList name)) p)
      | some (.char d, rest) =>
        if rest.length ≤ s.length then
          (resolve ((p.next c).after (s.take (s.length - rest.length))) rest).map (⟨d, true⟩ :: ·)
        else .error (.at .malformedReference p)
termination_by s => s.length

/-- An attribute value: written blanks are spaces, and a written carriage return before a line feed is
dropped. -/
def normalizeBlanks : List Letter → List Char
  | [] => []
  | ⟨c, true⟩ :: rest => c :: normalizeBlanks rest
  | ⟨c, false⟩ :: rest =>
    if c = '\r' ∧ rest.head? = some ⟨'\n', false⟩ then normalizeBlanks rest
    else
      let c := if c = '\n' ∨ c = '\r' ∨ c = '\t' then ' ' else c
      c :: normalizeBlanks rest

/-- The value of an attribute that is written at this place. -/
def attributeValue (p : Position) (s : List Char) : Except Fault (List Char) :=
  (resolve p s).map normalizeBlanks

/-- Appends a written character to a text, which comes last character first. A carriage return at its
end becomes a line feed once something is written behind it, unless that is a line feed itself, and at
the end of the run. -/
def appendWritten (text : List Char) (c : Char) (last : Bool) : List Char :=
  match text with
  | '\r' :: text =>
    if last ∧ c = '\r' then '\n' :: '\n' :: text
    else if c = '\n' then '\n' :: text
    else c :: '\n' :: text
  | text => if last ∧ c = '\r' then '\n' :: text else c :: text

/-- Appends characters to a text, which comes last character first. What a reference stands for is
taken as it is, and so is the character right behind it. -/
def normalizeLines (asIs : Bool) (text : List Char) : List Letter → List Char
  | [] => text.reverse
  | u :: rest =>
    if u.referenced || asIs then normalizeLines u.referenced (u.char :: text) rest
    else normalizeLines false (appendWritten text u.char rest.isEmpty) rest

/-- The character data that is written at this place. -/
def characterData (p : Position) (s : List Char) : Except Fault (List Char) :=
  if s.any fun c => c == '&' || c == '\r' then (resolve p s).map (normalizeLines false []) else .ok s

/-- The text of a section without references. -/
def sectionText (s : List Char) : List Char := normalizeLines false [] (s.map (⟨·, false⟩))

end MathMarkup.Xml
