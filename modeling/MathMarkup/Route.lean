import MathMarkup.MathML.Process
import MathMarkup.Tex.Normalize
import MathMarkup.Text.Letter

/-!
# From mixed text to math

A text with a `math` start tag in it, with or without a prefix, is MathML; any other is LaTeX. Of
MathML only the span from that tag to the last `math` end tag counts, and the prose around it is
dropped.
-/

namespace MathMarkup

open Text

/-! ## Tags -/

/-- The text after a prefix and its colon. -/
def afterPrefix? (s : List Char) : Option (List Char) :=
  match s with
  | c :: s =>
    if c.isAlpha || c == '_' then
      after? [':'] (s.dropWhile fun c => isWord c || c == '.' || c == '-')
    else none
  | [] => none

/-- The end of a tag by the name of `math`, with or without a prefix, which starts here behind its
opening; `tagEnd?` reads what follows the name. -/
def afterMathName? (tagEnd? : List Char → Option (List Char)) (s : List Char) : Option (List Char) :=
  let named (s : List Char) := (after? "math".toList s).bind tagEnd?
  ((afterPrefix? s).bind named) <|> named s

/-- The text after a character that ends the name in a start tag. -/
def afterNameEnd? : List Char → Option (List Char)
  | c :: s => if isBlank c || c == '>' || c == '/' then some s else none
  | [] => none

/-- The text after blanks and the end of an end tag. -/
def afterTagEnd? (s : List Char) : Option (List Char) := after? ['>'] (trimStart s)

/-- Does a `math` start tag stand here? -/
def startsMath (s : List Char) : Bool :=
  match s with
  | '<' :: s => (afterMathName? afterNameEnd? s).isSome
  | _ => false

/-- The text after a `math` end tag that stands here. -/
def afterMathEnd? (s : List Char) : Option (List Char) :=
  match s with
  | '<' :: '/' :: s => afterMathName? afterTagEnd? s
  | _ => none

/-! ## Spans -/

/-- The text from the first `math` start tag on. -/
def fromMath? : List Char → Option (List Char)
  | [] => none
  | c :: s => if startsMath (c :: s) then some (c :: s) else fromMath? s

/-- The text through the last `math` end tag. -/
def throughMath? : List Char → Option (List Char)
  | [] => none
  | c :: s =>
    match throughMath? s with
    | some span => some (c :: span)
    | none =>
      (afterMathEnd? (c :: s)).map fun rest => (c :: s).take (s.length + 1 - rest.length)

/-- The dialect of a text. -/
def Dialect.ofText (s : List Char) : Dialect := if (fromMath? s).isSome then .mathml else .latex

/-- The span of a text that is MathML; a text without a start tag is its own span, and where no end
tag follows, the span runs to the end. -/
def mathSpan (s : List Char) : List Char :=
  match fromMath? s with
  | some rest => (throughMath? rest).getD rest
  | none => s

/-- Processes a step's math in its dialect. -/
def route (config : Config) (s : List Char) : Blob :=
  match Dialect.ofText s with
  | .mathml => MathML.process config (mathSpan s)
  | .latex => Tex.normalize config s

end MathMarkup
