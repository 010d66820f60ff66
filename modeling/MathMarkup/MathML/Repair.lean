import MathMarkup.MathML.Validation
import MathMarkup.Text.Letter

/-!
# Repair of MathML

Repair only adds structure: it wraps loose text in token elements, operands and the children of a root
in `mrow`, and what is stray in a table in `mtr` and `mtd`; it fills in required attributes and the
namespace of the root. It deletes nothing, so a fraction without a denominator stays one.

`repaired` is the tree afterwards and `actions` what was done, a node before its children.
-/

namespace MathMarkup.MathML

open Text Xml

/-- A change that repair makes. -/
inductive Action where
  | addAttribute (name key : String) (value : List Char)
  | wrapText (text : List Char) (token : String)
  | wrapChildren (name : String)
  | wrapOperand (child wrapper name : String)
  | wrapCell
  | wrapInRow (child : String)
  | insertNamespace
deriving DecidableEq, Repr

def Action.message : Action → String
  | addAttribute name key value =>
    "added " ++ key ++ "=\"" ++ String.ofList value ++ "\" to <" ++ name ++ ">"
  | wrapText text token => "wrapped text " ++ String.ofList (quoted text) ++ " in <" ++ token ++ ">"
  | wrapChildren name => "wrapped children of <" ++ name ++ "> in <mrow>"
  | wrapOperand child wrapper name =>
    "wrapped <" ++ child ++ "> in <" ++ wrapper ++ "> inside <" ++ name ++ ">"
  | wrapCell => "wrapped <mtd> in <mtr>"
  | wrapInRow child => "wrapped <" ++ child ++ "> in <mtr><mtd>"
  | insertNamespace => "inserted MathML namespace on <math>"

/-! ## Text -/

/-- The token element for a text: a number, a single letter, or any other text. -/
def tokenName (s : List Char) : String :=
  if s.all fun c => c.isDigit || c == '.' then "mn"
  else
    match s with
    | [c] => if isLetter c then "mi" else "mtext"
    | _ => "mtext"

/-- A text without the blanks around it, in a token element. -/
def tokenOf (s : List Char) : Node := .made (tokenName (trim s)) [.text (trim s)]

/-- A text becomes a token; an element stays. -/
def tokenized : Node → Node
  | .text s => tokenOf s
  | n => n

/-! ## Children -/

/-- Wraps an element whose name is not accepted. -/
def wrapUnless (accepted : String → Bool) (wrapper : String) : Node → Node
  | .element tag children =>
    if accepted tag.name then .element tag children else .made wrapper [.element tag children]
  | n => n

/-- A child of a table as a row of it. -/
def asTableRow : Node → Node
  | .element tag children =>
    if isTableRow tag.name then .element tag children
    else .made "mtr" [wrapUnless (· == "mtd") "mtd" (.element tag children)]
  | n => n

/-- Wraps the children as a content model asks for. -/
def wrapped : ContentModel → List Node → List Node
  | .single, children => if 1 < children.length then [.made "mrow" children] else children
  | .operands _, children => children.map (wrapUnless (· == "mrow") "mrow")
  | .table, children => children.map asTableRow
  | .tableRow, children => children.map (wrapUnless (· == "mtd") "mtd")
  | _, children => children

/-- What is done about the text among the children. -/
def textActions (children : List Node) : List Action := children.filterMap fun
  | .text s => some (.wrapText (trim s) (tokenName (trim s)))
  | .element .. => none

/-- What is done about a child of a table. -/
def tableActions (child : Tag) : List Action :=
  if isTableRow child.name then []
  else if child.name = "mtd" then [.wrapCell]
  else [.wrapInRow child.name]

/-- What is done when children that are not accepted are wrapped. -/
def wrapActions (accepted wrapper name : String) (children : List Tag) : List Action :=
  (children.filter fun c => c.name != accepted).map fun c => .wrapOperand c.name wrapper name

/-- What is done about the shape of the children. -/
def shapeActions (name : String) (children : List Tag) : ContentModel → List Action
  | .single => if 1 < children.length then [.wrapChildren name] else []
  | .operands _ => wrapActions "mrow" "mrow" name children
  | .table => children.flatMap tableActions
  | .tableRow => wrapActions "mtd" "mtd" name children
  | _ => []

/-! ## Trees -/

/-- The tag with its required attributes. -/
def withRequired (tag : Tag) : Tag :=
  { tag with attributes := tag.attributes ++ missingAttributes tag }

mutual

/-- The tree after repair. Wrapping depends on names only, and these stay, so it does not matter that
the children are repaired first. -/
def repaired : Node → Node
  | .text s => .text s
  | .element tag children =>
    match contentModel? tag.name with
    | some model =>
      if model.isWalked then
        .element (withRequired tag) (wrapped model (repairedAll children))
      else .element (withRequired tag) children
    | none => .element (withRequired tag) children

/-- The children after repair, texts in tokens, and not yet wrapped. -/
def repairedAll : List Node → List Node
  | [] => []
  | .text s :: rest => tokenOf s :: repairedAll rest
  | n :: rest => repaired n :: repairedAll rest

end

/-- What is done about an element, its descendants left aside. -/
def ownActions (tag : Tag) (children : List Node) : List Action :=
  (missingAttributes tag).map (fun a => .addAttribute tag.name a.1 a.2) ++
    match contentModel? tag.name with
    | some model =>
      if model.isWalked then
        textActions children ++ shapeActions tag.name (childTags (children.map tokenized)) model
      else []
    | none => []

mutual

/-- What repair does to a tree, in order. -/
def actions : Node → List Action
  | .text _ => []
  | .element tag children =>
    ownActions tag children ++ if isWalked tag.name then actionsAll children else []

def actionsAll : List Node → List Action
  | [] => []
  | n :: rest => actions n ++ actionsAll rest

end

/-! ## Fragments -/

/-- A text after repair, with what was done. -/
structure Repair where
  text : List Char
  actions : List Action
deriving DecidableEq, Repr

/-- Was nothing done? -/
def Repair.isUnchanged (r : Repair) : Bool := r.actions.isEmpty

/-- Does the root need the namespace of MathML? -/
def needsNamespace (tag : Tag) : Bool := tag.name == "math" && tag.space.isNone

/-- The tag in the namespace of MathML, if it needs it. -/
def withNamespace (tag : Tag) : Tag :=
  if needsNamespace tag then { tag with space := some mathNamespace } else tag

/-- A root element after repair. -/
def repairedRoot (root : Element) : Element :=
  match repaired root.toNode with
  | .element tag children => ⟨withNamespace tag, children⟩
  | .text _ => root

/-- What repair does to a root element. -/
def rootActions (root : Element) : List Action :=
  actions root.toNode ++ if needsNamespace root.tag then [.insertNamespace] else []

/-- Repairs a fragment by the findings of its validation. A valid one needs nothing, and a malformed
one cannot be walked. -/
def repair (s : List Char) (v : Validation) : Repair :=
  if (v.isValid && !v.lacksNamespace) || v.isMalformed then ⟨s, []⟩
  else
    match parse s with
    | .ok root => ⟨(repairedRoot root).toXml, rootActions root⟩
    | .error _ => ⟨s, []⟩

end MathMarkup.MathML
