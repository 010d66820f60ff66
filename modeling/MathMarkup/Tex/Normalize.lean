import MathMarkup.Blob
import MathMarkup.Tex.Check
import MathMarkup.Tex.Cosmetic
import MathMarkup.Tex.Display
import MathMarkup.Tex.Placeholder
import MathMarkup.Tex.Rows
import MathMarkup.Tex.Sanitize

/-!
# Normal form of a LaTeX expression

`normalize` brings an expression into one `align*` environment between display brackets. The line
structure is normalized while commands are protected; then come the cosmetic fixes. What the checks
find is attached, and decides whether the result counts as valid.
-/

namespace MathMarkup.Tex

/-- Stands in for math that could not be processed. -/
def sentinel : List Char := "\\[\\text\x7bError processing math request\x7d\\]".toList

/-- The normal form of the text between display brackets. -/
def normalizeBody (s : List Char) : Except StageError (List Char) := do
  let aligned ← withCommandsProtected "line normalizer" (stripDisplay s) fun p =>
    .ok (normalizeLines p)
  return cosmetic aligned

/-- An expression over the limit of the configuration. -/
def lengthDiagnostics (config : Config) (s : List Char) : List Diagnostic :=
  if config.maxLength < s.length then
    [.plain .other ("expression is " ++ toString s.length ++ " characters long; the limit is " ++
      toString config.maxLength)]
  else []

/-- What stands for an expression that cannot be normalized. -/
def fallbackText (config : Config) (raw : List Char) : List Char :=
  match config.fallback with
  | .sentinel => sentinel
  | .asGiven | .repaired => raw

/-- The normal form of one step's math. -/
def normalize (config : Config) (raw : List Char) : Blob :=
  let s := if config.sanitize then sanitize raw else raw
  let diagnostics := lengthDiagnostics config s ++ check config (stripDisplay s)
  match normalizeBody s with
  | .ok body =>
    let isBad (d : Diagnostic) := d.category == .badSyntax || d.category == .malformed
    ⟨.latex, raw, wrapDisplay body, !diagnostics.any isBad, diagnostics⟩
  | .error e => ⟨.latex, raw, fallbackText config raw, false, diagnostics ++ [.plain .other e.message]⟩

end MathMarkup.Tex
