import MathMarkup.Xml.Reference
import MathMarkup.Xml.Scope
import MathMarkup.Xml.Tree

/-!
# Start tags

Reads a start tag: its name, its attributes and the namespaces it declares. Values and declarations
are checked while the attributes are read; prefixes are resolved at the end of the tag, those of the
attributes before that of the element.
-/

namespace MathMarkup.Xml

/-- An attribute as it is written, and where. -/
structure RawAttribute where
  name : QName
  value : List Char
  position : Position

/-- How a start tag ends. -/
inductive TagEnd where
  | opened
  | empty
  /-- The text ends in the middle of it. -/
  | cutOff
deriving DecidableEq, Repr

/-- A name, an equals sign and a quoted value without `<`; the value comes as it is written, with its
place. -/
def readAttribute (c : Cursor) : Except Fault (QName × List Char × Position × Cursor) := do
  let (name, c) ← c.qname
  let c ← c.skipSpace.expect '='
  let (quote, c) ← c.skipSpace.expectQuote
  let start := c.position
  let (raw, c) ← c.admitted fun s => s.head? = some quote || s.head? = some '<'
  let c ← c.expect quote
  return (name, raw, start, c)

/-- What was read of a start tag: the namespaces it declares, and its attributes. -/
structure Attributes where
  own : Scope
  list : List RawAttribute

/-- Adds an attribute that starts at `position`, or the declaration that it is. -/
def Attributes.add (a : Attributes) (name : QName) (value : List Char) (position : Position) :
    Except Fault Attributes :=
  let declared (own : Except Mistake Scope) : Except Fault Attributes :=
    match own with
    | .ok own => .ok { a with own := own }
    | .error m => .error (.at m position)
  let space := String.ofList value
  if name.prefixName = "xmlns".toList then
    declared (a.own.declarePrefix (String.ofList name.localName) space)
  else if name.localName = "xmlns".toList then declared (a.own.declareDefault space)
  else .ok { a with list := a.list ++ [⟨name, value, position⟩] }

/-- Reads attributes up to the end of the tag. -/
def readAttributes (a : Attributes) (c : Cursor) : Except Fault (Attributes × TagEnd × Cursor) :=
  if c.rest.isEmpty then .ok (a, .cutOff, c)
  else
    let here := c.skipSpace
    match here.rest with
    | [] => .error .unexpectedEnd
    | '/' :: _ => ((here.advance 1).expect '>').map fun c => (a, .empty, c)
    | '>' :: _ => .ok (a, .opened, here.advance 1)
    | next :: _ =>
      if !c.atSpace then .error (here.fault (.expectedKind "a whitespace" (Cursor.leadByte next)))
      else
        match readAttribute here with
        | .error fault => .error fault
        | .ok (name, raw, start, behind) =>
          match attributeValue start raw with
          | .error fault => .error fault
          | .ok value =>
            match a.add name value here.position with
            | .error fault => .error fault
            | .ok a =>
              if behind.rest.length < c.rest.length then readAttributes a behind
              else .error .unexpectedEnd
termination_by c.rest.length

/-- The namespace of a prefix that is not empty. -/
def resolvePrefix (scope : Scope) (pre : List Char) (position : Position) : Except Fault String :=
  match scope.spaceOf? (some (String.ofList pre)) with
  | some space => .ok space
  | none => .error (.at (.unknownPrefix (String.ofList pre)) position)

/-- The namespace of an attribute. Without a prefix it has none. -/
def RawAttribute.space (scope : Scope) (a : RawAttribute) : Except Fault (Option String) :=
  if a.name.prefixName = "xml".toList then .ok (some xmlSpace)
  else if a.name.prefixName.isEmpty then .ok none
  else (resolvePrefix scope a.name.prefixName a.position).map some

/-- Resolves the attributes in order; `seen` holds the names before. -/
def resolveAttributes (scope : Scope) (seen : List (Option String × List Char)) :
    List RawAttribute → Except Fault (List (Option String × RawAttribute))
  | [] => .ok []
  | a :: rest => do
    let space ← a.space scope
    let name := (space, a.name.localName)
    if seen.contains name then
      throw (.at (.duplicateAttribute (String.ofList a.name.localName)) a.position)
    let resolved ← resolveAttributes scope (name :: seen) rest
    return (space, a) :: resolved

/-- The prefix that an attribute is known by, with its namespace. -/
def knownPrefix? (scope : Scope) (space : Option String) : Option (String × String) := do
  let space ← space
  let pre ← scope.prefixOf? space
  if pre.isEmpty then none else return (pre, space)

/-- A start tag: the element, the namespaces in scope, and the prefixes that its attributes use. -/
structure StartTag where
  name : QName
  tag : Tag
  scope : Scope
  prefixes : List (String × String)

/-- The attribute by its name with its prefix. -/
def keyed (scope : Scope) (a : Option String × RawAttribute) : String × List Char :=
  let name := String.ofList a.2.name.localName
  match knownPrefix? scope a.1 with
  | some (pre, _) => (pre ++ ":" ++ name, a.2.value)
  | none => (name, a.2.value)

/-- The element whose start tag stands at `start`, inside `parent`. -/
def makeTag (parent : Scope) (start : Position) (name : QName) (a : Attributes) :
    Except Fault StartTag := do
  let scope := a.own.extend parent
  let attributes ← resolveAttributes scope [] a.list
  let space ←
    if name.prefixName.isEmpty then pure (scope.spaceOf? none)
    else (resolvePrefix scope name.prefixName (start.next '<')).map some
  let tag : Tag :=
    { name := String.ofList name.localName
      space := space
      attributes := attributes.map (keyed scope)
      line := start.row }
  let prefixes := (attributes.filterMap fun a => knownPrefix? scope a.1).filter fun p => p.1 ≠ "xml"
  return ⟨name, tag, scope, prefixes⟩

/-- Reads the start tag here; there is none when the text ends in the middle of it. -/
def readStartTag (parent : Scope) (c : Cursor) : Except Fault (Option StartTag × TagEnd × Cursor) := do
  let start := c.position
  let (name, c) ← (c.advance 1).qname
  if name.prefixName = "xmlns".toList then throw (.at .elementPrefix (start.next '<'))
  let (a, tagEnd, c) ← readAttributes ⟨[], []⟩ c
  match tagEnd with
  | .cutOff => return (none, .cutOff, c)
  | tagEnd =>
    let tag ← makeTag parent start name a
    return (some tag, tagEnd, c)

end MathMarkup.Xml
