import MathMarkup.Json.Basic
import MathMarkup.Text.Basic

/-!
# Diagnostics

What a check has to say about a fragment: a message, a category, and the line it is about when there
is one. `Category.ofMessage` derives a category from the wording of a message that comes from outside.
-/

namespace MathMarkup

/-- The kind of problem a diagnostic reports. -/
inductive Category where
  | badSyntax
  | missingAttribute
  | missingElement
  /-- The fragment cannot be read at all. -/
  | malformed
  | undefinedCommand
  | other
deriving DecidableEq, Repr

/-- How severe a category is for the caller. -/
inductive Severity where
  /-- The fragment cannot be read. -/
  | malformedInput
  /-- It can be read, and breaks a rule. -/
  | structuralViolation
  /-- It uses a command that has no rule and is passed on. -/
  | unsupportedConstruct
deriving DecidableEq, Repr

namespace Category

def name : Category → String
  | badSyntax => "syntax"
  | missingAttribute => "missing_attribute"
  | missingElement => "missing_element"
  | malformed => "malformed"
  | undefinedCommand => "undefined_command"
  | other => "other"

def severity : Category → Severity
  | malformed => .malformedInput
  | undefinedCommand => .unsupportedConstruct
  | _ => .structuralViolation

/-- The category that the words of a message suggest. Case does not matter. -/
def ofMessage (message : String) : Category :=
  let lower := message.toList.map Char.toLower
  let has (word : String) := Text.contains word.toList lower
  if has "attribute" then missingAttribute
  else if has "element" && (has "missing" || has "required") then missingElement
  else if has "not allowed" || has "invalid" || has "syntax" then badSyntax
  else other

end Category

def Severity.name : Severity → String
  | malformedInput => "malformed_input"
  | structuralViolation => "structural_violation"
  | unsupportedConstruct => "unsupported_construct"

structure Diagnostic where
  /-- The 1-based line it is about. -/
  line : Option Nat
  message : String
  category : Category
deriving DecidableEq, Repr

namespace Diagnostic

/-- A diagnostic without a line. -/
def plain (category : Category) (message : String) : Diagnostic := ⟨none, message, category⟩

def atLine (d : Diagnostic) (line : Nat) : Diagnostic := { d with line := some line }

/-- The diagnostic on one line of text. -/
def render (d : Diagnostic) : String :=
  let body := "[" ++ d.category.name ++ "] " ++ d.message
  match d.line with
  | some line => "line " ++ toString line ++ ": " ++ body
  | none => body

def toJson (d : Diagnostic) : Json :=
  .object [("line", .ofNat? d.line), ("message", .string d.message), ("type", .string d.category.name)]

end Diagnostic

end MathMarkup
