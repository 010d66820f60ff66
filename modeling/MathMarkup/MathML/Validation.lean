import MathMarkup.Config
import MathMarkup.MathML.Grammar
import MathMarkup.MathML.Markup
import MathMarkup.Xml.Reader

/-!
# Validation of MathML

A fragment is valid when it can be read, its root is `math` in the namespace of MathML or in none, and
(unless the configuration says otherwise) every element follows its content model.
-/

namespace MathMarkup.MathML

open Xml

structure Validation where
  diagnostics : List Diagnostic
  /-- The root is in no namespace; the one of MathML should be added. -/
  lacksNamespace : Bool
deriving DecidableEq, Repr

namespace Validation

/-- Is there nothing to report? -/
def isValid (v : Validation) : Bool := v.diagnostics.isEmpty

/-- Could the fragment not be read? -/
def isMalformed (v : Validation) : Bool := v.diagnostics.any fun d => d.category == .malformed

def toJson (v : Validation) : Json :=
  .object [
    ("is_valid", .bool v.isValid),
    ("diagnostics", .array (v.diagnostics.map Diagnostic.toJson)),
    ("namespace_inserted", .bool v.lacksNamespace)]

end Validation

/-- A fault as a diagnostic. -/
def malformed (fault : Fault) : Diagnostic :=
  ⟨some fault.row, "malformed XML: " ++ fault.message, .malformed⟩

/-- A root that is not `math`. -/
def rootViolations (tag : Tag) : List Diagnostic :=
  if tag.name = "math" then []
  else [⟨tag.sourceLine, "root element must be <math>, found <" ++ tag.name ++ ">", .other⟩]

/-- A root in another namespace. -/
def spaceViolations (tag : Tag) : List Diagnostic :=
  match tag.space with
  | none => []
  | some space =>
    if space = mathNamespace then []
    else
      let shown := String.ofList (Text.quoted space.toList)
      [.plain .other ("root element is in namespace " ++ shown ++ ", not MathML")]

/-- Validates a tree. -/
def validateTree (config : Config) (root : Element) : Validation where
  diagnostics :=
    rootViolations root.tag ++ spaceViolations root.tag ++
      if config.grammarChecks then violations root.toNode else []
  lacksNamespace := root.tag.space.isNone

/-- Validates a fragment. -/
def validate (config : Config) (s : List Char) : Validation :=
  match parse s with
  | .ok root => validateTree config root
  | .error fault => ⟨[malformed fault], false⟩

end MathMarkup.MathML
