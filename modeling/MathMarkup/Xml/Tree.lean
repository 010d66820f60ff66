import MathMarkup.Text.Blank
import MathMarkup.Xml.Escape

/-!
# Element trees

An element as the rest of the library sees it: its name without a prefix, its namespace, its
attributes, and its children, which are elements and texts. `Element.toXml` writes a tree; a namespace
declaration stands only where the namespace changes, and an element without a namespace of its own is
in that of its parent.
-/

namespace MathMarkup.Xml

open Text

/-- All of an element but its children. -/
structure Tag where
  name : String
  /-- The namespace, when the element has one of its own. -/
  space : Option String := none
  /-- Attributes in order, by their names with prefixes. -/
  attributes : List (String × List Char) := []
  /-- Prefixes declared here, with their namespaces. -/
  prefixes : List (String × String) := []
  /-- The 1-based line of the start tag; zero for an element that was made. -/
  line : Nat := 0
deriving DecidableEq, Repr, Inhabited

/-- An element with its children, or a text. -/
inductive Node where
  | element (tag : Tag) (children : List Node)
  | text (s : List Char)
deriving Repr, Inhabited

structure Element where
  tag : Tag
  children : List Node
deriving Repr, Inhabited

/-- The element as a node. -/
def Element.toNode (e : Element) : Node := .element e.tag e.children

/-- The element that a node is. -/
def Node.element? : Node → Option Element
  | .element tag children => some ⟨tag, children⟩
  | .text _ => none

def Node.isElement : Node → Bool
  | .element .. => true
  | .text _ => false

/-- Is the node a text of blanks only? -/
def Node.isBlankText : Node → Bool
  | .element .. => false
  | .text s => s.all isBlank

/-! ## Tags -/

/-- The value of an attribute. -/
def Tag.get? (t : Tag) (name : String) : Option (List Char) := t.attributes.lookup name

/-- The attributes with a new value for one of them, which is the last one when it is new. -/
def setAttribute (name : String) (value : List Char) :
    List (String × List Char) → List (String × List Char)
  | [] => [(name, value)]
  | a :: rest => if a.1 = name then (name, value) :: rest else a :: setAttribute name value rest

/-- Sets an attribute. -/
def Tag.set (t : Tag) (name : String) (value : List Char) : Tag :=
  { t with attributes := setAttribute name value t.attributes }

/-- The line to report, when the element stands in a text. -/
def Tag.sourceLine (t : Tag) : Option Nat := if 0 < t.line then some t.line else none

/-! ## Children -/

/-- An element that stands in no text. -/
def Node.made (name : String) (children : List Node) : Node := .element { name := name } children

/-- The elements among the children. -/
def Element.elements (e : Element) : List Element := e.children.filterMap Node.element?

/-- The text directly in an element. -/
def ownText (children : List Node) : List Char :=
  children.flatMap fun
    | .text s => s
    | .element .. => []

/-! ## Writing -/

/-- A blank, the name and the quoted value. -/
def writeAttribute (name : String) (value : List Char) : List Char :=
  ' ' :: name.toList ++ '=' :: '"' :: escapeAttribute value ++ ['"']

/-- The declaration of a namespace that is not the inherited one. -/
def writeSpace (inherited scope : Option String) : List Char :=
  match scope with
  | some space => if scope = inherited then [] else writeAttribute "xmlns" space.toList
  | none => []

/-- Name, declarations and attributes of a start tag. -/
def writeHead (inherited : Option String) (t : Tag) : List Char :=
  '<' :: t.name.toList ++ writeSpace inherited (t.space <|> inherited) ++
    t.prefixes.flatMap (fun p => writeAttribute ("xmlns:" ++ p.1) p.2.toList) ++
    t.attributes.flatMap (fun a => writeAttribute a.1 a.2)

mutual

/-- Writes a node; `inherited` is the default namespace in scope. -/
def Node.write (inherited : Option String) : Node → List Char
  | .text s => escapeText s
  | .element t [] => writeHead inherited t ++ ['/', '>']
  | .element t (child :: children) =>
    writeHead inherited t ++ '>' :: Node.writeAll (t.space <|> inherited) (child :: children) ++
      '<' :: '/' :: t.name.toList ++ ['>']

def Node.writeAll (inherited : Option String) : List Node → List Char
  | [] => []
  | n :: rest => Node.write inherited n ++ Node.writeAll inherited rest

end

/-- The element as compact XML. -/
def Element.toXml (e : Element) : List Char := e.toNode.write none

end MathMarkup.Xml
