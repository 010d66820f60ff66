import MathMarkup.Text.Blank
import MathMarkup.Xml.Cursor

/-!
# Names in XML

The characters of names, plain names, and qualified names, in which one colon sets off a prefix.
-/

namespace MathMarkup.Xml

open Text

/-- The characters beyond ASCII that a name may start with. -/
def nameStartRanges : List (Nat × Nat) := [
  (0xc0, 0xd6), (0xd8, 0xf6), (0xf8, 0x2ff), (0x370, 0x37d), (0x37f, 0x1fff), (0x200c, 0x200d),
  (0x2070, 0x218f), (0x2c00, 0x2fef), (0x3001, 0xd7ff), (0xf900, 0xfdcf), (0xfdf0, 0xfffd),
  (0x10000, 0xeffff)]

/-- The characters beyond ASCII that a name may hold but not start with. -/
def namePartRanges : List (Nat × Nat) := [(0xb7, 0xb7), (0x300, 0x36f), (0x203f, 0x2040)]

/-- May a name start with this character? -/
def isNameStart (c : Char) : Bool :=
  if c.toNat < 0x80 then c.isAlpha || c == ':' || c == '_' else inRanges c.toNat nameStartRanges

/-- May a name hold this character? -/
def isNamePart (c : Char) : Bool :=
  if c.toNat < 0x80 then c.isAlphanum || c == ':' || c == '_' || c == '-' || c == '.'
  else inRanges c.toNat nameStartRanges || inRanges c.toNat namePartRanges

/-- A name at the start of the text, in which colons mean nothing, and the text after it. -/
def splitName? (s : List Char) : Option (List Char × List Char) :=
  match s with
  | [] => none
  | c :: rest =>
    if isNameStart c then some (c :: rest.takeWhile isNamePart, rest.dropWhile isNamePart) else none

/-- A qualified name. -/
structure QName where
  prefixName : List Char
  localName : List Char
deriving DecidableEq, Repr

/-- The name as it is written. -/
def QName.render (n : QName) : String :=
  String.ofList (if n.prefixName.isEmpty then n.localName else n.prefixName ++ ':' :: n.localName)

/-- Splits the characters of a name at its colon: at most one colon is allowed, and both parts must
start as names do; only the prefix may be empty. -/
def QName.ofChars? (s : List Char) : Option QName :=
  let startsName (part : List Char) := (part.head?.map isNameStart).getD true
  match s.span (· != ':') with
  | (name, []) => if name.isEmpty || !startsName name then none else some ⟨[], name⟩
  | (pre, _ :: name) =>
    if name.contains ':' || name.isEmpty || !startsName pre || !startsName name then none
    else some ⟨pre, name⟩

/-- Consumes a qualified name. -/
def Cursor.qname (c : Cursor) : Except Fault (QName × Cursor) :=
  let (word, rest) := c.span isNamePart
  match QName.ofChars? word with
  | some name => .ok (name, rest)
  | none => .error (c.fault .invalidName)

/-- Consumes a plain name. -/
def Cursor.name (c : Cursor) : Except Fault (List Char × Cursor) :=
  match splitName? c.rest with
  | some (name, _) => .ok (name, c.advance name.length)
  | none => .error (c.fault .invalidName)

end MathMarkup.Xml
