import MathMarkup.Xml.Escape

/-!
# Written markup

What the transliteration of LaTeX produces: elements that are always closed by a tag of their own,
empty elements that are one tag, and character data. `Markup.render` writes one of them and
`Markup.renderList` a list, one after the other.
-/

namespace MathMarkup.MathML

open Xml

/-- The namespace of MathML. -/
def mathNamespace : String := "http://www.w3.org/1998/Math/MathML"

inductive Markup where
  | element (name : String) (attributes : List (String × List Char)) (children : List Markup)
  /-- An element without content, written as one tag. -/
  | void (name : String) (attributes : List (String × List Char))
  | text (s : List Char)
deriving Inhabited, Repr

namespace Markup

/-- A blank, the name and the quoted value. -/
def renderAttribute (a : String × List Char) : List Char :=
  ' ' :: a.1.toList ++ '=' :: '"' :: escapeAttribute a.2 ++ ['"']

/-- Name and attributes of a tag. -/
def renderHead (name : String) (attributes : List (String × List Char)) : List Char :=
  '<' :: name.toList ++ attributes.flatMap renderAttribute

mutual

def render : Markup → List Char
  | element name attributes children =>
    renderHead name attributes ++ '>' :: renderList children ++ '<' :: '/' :: name.toList ++ ['>']
  | void name attributes => renderHead name attributes ++ ['/', '>']
  | text s => escapeText s

def renderList : List Markup → List Char
  | [] => []
  | m :: rest => render m ++ renderList rest

end

/-- An element without attributes. -/
def node (name : String) (children : List Markup) : Markup := element name [] children

/-- A token element around its text. -/
def token (name : String) (s : List Char) : Markup := node name [text s]

/-- An identifier. -/
def identifier (s : List Char) : Markup := token "mi" s

/-- An operator. -/
def operator (s : List Char) : Markup := token "mo" s

/-- A number. -/
def number (s : List Char) : Markup := token "mn" s

/-- A group that counts as one operand. -/
def row (children : List Markup) : Markup := node "mrow" children

/-- A space of the given width. -/
def space (width : String) : Markup := void "mspace" [("width", width.toList)]

end Markup

end MathMarkup.MathML
