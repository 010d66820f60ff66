import MathMarkup.Blob
import MathMarkup.MathML.Repair
import MathMarkup.MathML.Sanitize

/-!
# Processing MathML

A fragment is sanitized and validated. One that is not valid is repaired, once, and validated again;
what is wrong then is reported, and the configuration decides what stands in for it.
-/

namespace MathMarkup.MathML

open Text

/-- Stands in for MathML that could not be made valid. -/
def sentinel : List Char :=
  ("<math xmlns=\"" ++ mathNamespace ++
    "\"><merror><mtext>Error processing math request</mtext></merror></math>").toList

/-! ## The namespace in a text -/

/-- The rest of the first `math` tag of a text that starts behind that name, with its end. -/
def tagRest? (s : List Char) : Option (List Char) :=
  match s with
  | '>' :: _ => some ['>']
  | '/' :: '>' :: _ => some ['/', '>']
  | c :: _ => if isBlank c && s.contains '>' then some (s.takeWhile (· != '>')) else none
  | [] => none

/-- Cuts a text behind the name of its first `math` tag, and gives the rest of that tag too. -/
def breakAtMath? : List Char → Option (List Char × List Char × List Char)
  | [] => none
  | c :: s =>
    let later := (breakAtMath? s).map fun (before, tag, rest) => (c :: before, tag, rest)
    match after? ['<', 'm', 'a', 't', 'h'] (c :: s) with
    | some rest =>
      match tagRest? rest with
      | some tag => some (['<', 'm', 'a', 't', 'h'], tag, rest)
      | none => later
    | none => later

/-- Declares the namespace of MathML in the first `math` tag, if there is no declaration in it. The
rest of the text stays as it is. -/
def ensureNamespace (s : List Char) : List Char :=
  match breakAtMath? s with
  | some (before, tag, rest) =>
    if contains "xmlns=".toList tag then s
    else before ++ (" xmlns=\"" ++ mathNamespace ++ "\"").toList ++ rest
  | none => s

/-! ## The whole -/

/-- What stands for a fragment that stays invalid. -/
def fallbackText (config : Config) (raw repaired : List Char) : List Char :=
  match config.fallback with
  | .repaired => repaired
  | .asGiven => raw
  | .sentinel => sentinel

/-- The fragment that is validated: without what is not safe, unless the configuration says so. -/
def entered (config : Config) (raw : List Char) : List Char :=
  if config.sanitize then (sanitize? raw).getD raw else raw

/-- Processes one step's MathML. -/
def process (config : Config) (raw : List Char) : Blob :=
  let s := entered config raw
  let first := validate config s
  if first.isValid then
    ⟨.mathml, raw, if first.lacksNamespace then ensureNamespace s else s, true, []⟩
  else
    let r := repair s first
    let second := validate config r.text
    if second.isValid then ⟨.mathml, raw, r.text, true, first.diagnostics⟩
    else ⟨.mathml, raw, fallbackText config raw r.text, false, second.diagnostics⟩

end MathMarkup.MathML
