import MathMarkup.Diagnostic

/-!
# Processed math

One step's math before and after processing, with what the checks said about it.
-/

namespace MathMarkup

/-- The two ways of writing math. -/
inductive Dialect where
  | latex
  | mathml
deriving DecidableEq, Repr

def Dialect.name : Dialect → String
  | latex => "latex"
  | mathml => "mathml"

structure Blob where
  dialect : Dialect
  raw : List Char
  normalized : List Char
  isValid : Bool
  diagnostics : List Diagnostic
deriving DecidableEq, Repr

/-- Did processing change the text? -/
def Blob.wasChanged (b : Blob) : Bool := b.raw != b.normalized

def Blob.toJson (b : Blob) : Json :=
  .object [
    ("kind", .string b.dialect.name),
    ("raw", .string (String.ofList b.raw)),
    ("normalized", .string (String.ofList b.normalized)),
    ("is_valid", .bool b.isValid),
    ("diagnostics", .array (b.diagnostics.map Diagnostic.toJson))]

end MathMarkup
