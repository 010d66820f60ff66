import MathMarkup.Diagnostic
import MathMarkup.Xml.Tree

/-!
# The grammar of presentation MathML

What each element may contain (`contentModel?`) and must carry (`requiredAttributes`), and how a tree
breaks these rules (`violations`). An element whose name is unknown, and the content of a token, an
empty or an unchecked element, is not looked into.
-/

namespace MathMarkup.MathML

open Text Xml

/-- What an element may contain. -/
inductive ContentModel where
  /-- Character data only. -/
  | token
  /-- Nothing. -/
  | empty
  /-- Any number of elements, laid out as a row. -/
  | row
  /-- At most one element. -/
  | single
  /-- So many elements, each a `mrow`. -/
  | operands (count : Nat)
  /-- Rows of a table only. -/
  | table
  /-- Cells of a table only. -/
  | tableRow
  /-- Anything. -/
  | unchecked
deriving DecidableEq, Repr

/-- The content model of an element; names that are none of presentation MathML have none. -/
def contentModel? : String → Option ContentModel
  | "mi" | "mn" | "mo" | "mtext" | "ms" => some .token
  | "mspace" | "mglyph" | "none" | "mprescripts" | "malignmark" | "maligngroup" => some .empty
  | "math" | "mrow" | "mstyle" | "merror" | "mpadded" | "mphantom" | "mtd" | "mfenced" | "maction" =>
    some .row
  | "msqrt" | "menclose" => some .single
  | "mfrac" | "mroot" | "msub" | "msup" | "munder" | "mover" => some (.operands 2)
  | "msubsup" | "munderover" => some (.operands 3)
  | "mtable" => some .table
  | "mtr" | "mlabeledtr" => some .tableRow
  | "mmultiscripts" | "semantics" | "annotation" | "annotation-xml" => some .unchecked
  | _ => none

/-- The attributes an element must carry, with the values that are filled in. -/
def requiredAttributes : String → List (String × List Char)
  | "mglyph" => [("alt", [])]
  | _ => []

/-- The required attributes that are missing, with the values that are filled in. -/
def missingAttributes (tag : Tag) : List (String × List Char) :=
  (requiredAttributes tag.name).filter fun a => (tag.get? a.1).isNone

/-- Is the name that of a row of a table? -/
def isTableRow (name : String) : Bool := name == "mtr" || name == "mlabeledtr"

/-! ## Violations -/

/-- A broken rule. -/
inductive Violation where
  | unknownElement (name : String)
  | missingAttribute (name key : String)
  | elementInToken (child name : String)
  | notEmpty (name : String)
  | characterData (name : String)
  | severalChildren (name : String) (found : Nat)
  | operandCount (name : String) (expected found : Nat)
  | bareOperand (index : Nat) (name child : String)
  | strayInTable (child : String)
  | strayInRow (child name : String)
deriving DecidableEq, Repr

namespace Violation

def category : Violation → Category
  | unknownElement _ | elementInToken .. | notEmpty _ | characterData _ => .badSyntax
  | missingAttribute .. => .missingAttribute
  | severalChildren .. | operandCount .. | bareOperand .. | strayInTable _ | strayInRow .. =>
    .missingElement

/-- The name as a start tag. -/
def angled (name : String) : String := "<" ++ name ++ ">"

def message : Violation → String
  | unknownElement name => "invalid tag " ++ angled name ++ ": not a presentation MathML element"
  | missingAttribute name key => angled name ++ " requires attribute \"" ++ key ++ "\""
  | elementInToken child name =>
    angled child ++ " is not allowed inside token element " ++ angled name
  | notEmpty name => angled name ++ " must be empty"
  | characterData name =>
    "character data is not allowed directly inside " ++ angled name ++ "; use a token element"
  | severalChildren name found =>
    angled name ++ " has " ++ toString found ++ " children; wrap them in a single <mrow>"
  | operandCount name expected found =>
    angled name ++ " expects " ++ toString expected ++ " operands, found " ++ toString found
  | bareOperand index name child =>
    "operand " ++ toString index ++ " of " ++ angled name ++ " must be wrapped in <mrow>, found " ++
      angled child
  | strayInTable child => angled child ++ " inside <mtable> must be wrapped in <mtr>"
  | strayInRow child name => angled child ++ " inside " ++ angled name ++ " must be wrapped in <mtd>"

/-- The violation as a diagnostic at the line of `tag`. -/
def diagnostic (v : Violation) (tag : Tag) : Diagnostic := ⟨tag.sourceLine, v.message, v.category⟩

end Violation

/-- A token holds no element; the first one is reported. -/
def tokenViolations (tag : Tag) (children : List Tag) : List Diagnostic :=
  match children with
  | [] => []
  | child :: _ => [(Violation.elementInToken child.name tag.name).diagnostic child]

/-- Operands are counted, and each one must be a row. -/
def operandViolations (tag : Tag) (count : Nat) (children : List Tag) : List Diagnostic :=
  let miscounted :=
    if children.length = count then []
    else [(Violation.operandCount tag.name count children.length).diagnostic tag]
  let bare := (children.zipIdx 1).filterMap fun (child, i) =>
    if child.name = "mrow" then none
    else some ((Violation.bareOperand i tag.name child.name).diagnostic child)
  miscounted ++ bare

/-- How the elements directly in an element that has no text break its content model. -/
def shapeViolations (tag : Tag) (children : List Tag) : ContentModel → List Diagnostic
  | .single =>
    if 1 < children.length then [(Violation.severalChildren tag.name children.length).diagnostic tag]
    else []
  | .operands count => operandViolations tag count children
  | .table => (children.filter fun c => !isTableRow c.name).map fun c =>
      (Violation.strayInTable c.name).diagnostic c
  | .tableRow => (children.filter fun c => c.name != "mtd").map fun c =>
      (Violation.strayInRow c.name tag.name).diagnostic c
  | .token | .empty | .row | .unchecked => []

/-- Character data that stands where only elements may. -/
def textViolations (tag : Tag) (hasText : Bool) : List Diagnostic :=
  if hasText then [(Violation.characterData tag.name).diagnostic tag] else []

/-- How the content of an element breaks its content model, by what stands directly in it. -/
def contentViolations (tag : Tag) (hasText : Bool) (children : List Tag) :
    ContentModel → List Diagnostic
  | .unchecked => []
  | .token => tokenViolations tag children
  | .empty =>
    if hasText || !children.isEmpty then [(Violation.notEmpty tag.name).diagnostic tag] else []
  | model => textViolations tag hasText ++ shapeViolations tag children model

/-- Are the children of such an element looked into? -/
def ContentModel.isWalked : ContentModel → Bool
  | token | empty | unchecked => false
  | row | single | operands _ | table | tableRow => true

/-- Is the element known, and are its children looked into? -/
def isWalked (name : String) : Bool := (contentModel? name).any ContentModel.isWalked

/-- The tags of the elements among the children. -/
def childTags (children : List Node) : List Tag := children.filterMap fun
  | .element tag _ => some tag
  | .text _ => none

/-- Is there text that is not blank among the children? -/
def hasText (children : List Node) : Bool := children.any fun
  | .element .. => false
  | .text s => !s.all isBlank

/-- How an element breaks the rules, its descendants left aside. -/
def ownViolations (tag : Tag) (children : List Node) : List Diagnostic :=
  match contentModel? tag.name with
  | none => [(Violation.unknownElement tag.name).diagnostic tag]
  | some model =>
    (missingAttributes tag).map (fun a => (Violation.missingAttribute tag.name a.1).diagnostic tag) ++
      contentViolations tag (hasText children) (childTags children) model

mutual

/-- The violations in a tree, in the order of the text. -/
def violations : Node → List Diagnostic
  | .text _ => []
  | .element tag children =>
    ownViolations tag children ++ if isWalked tag.name then violationsAll children else []

def violationsAll : List Node → List Diagnostic
  | [] => []
  | n :: rest => violations n ++ violationsAll rest

end

end MathMarkup.MathML
