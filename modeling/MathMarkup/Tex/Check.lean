import MathMarkup.Config
import MathMarkup.Diagnostic
import MathMarkup.Tex.Delimiter
import MathMarkup.Tex.Span
import MathMarkup.Tex.Vocabulary

/-!
# Checks on a LaTeX expression

Three checks that leave the text alone: the pairing of delimiters, the arguments that commands
demand, and commands outside the vocabulary. `check` lists what they find in the order of the text;
findings at one place keep the order of the checks.
-/

namespace MathMarkup.Tex

open Text

/-- What a check found. -/
inductive Finding where
  | pairing (fault : PairingFault)
  | missingArguments (command : List Char) (position expected actual : Nat)
  | unknownCommand (command : List Char) (position : Nat)
deriving DecidableEq, Repr

namespace Finding

/-- Where it is reported, in bytes. A mismatch is reported where it is noticed. -/
def position : Finding → Nat
  | pairing (.mismatched _ right) => right.position
  | pairing (.unclosed left) => left.position
  | pairing (.unopened right) => right.position
  | missingArguments _ position _ _ => position
  | unknownCommand _ position => position

def message : Finding → String
  | pairing (.mismatched left right) =>
    "Mismatched delimiters: " ++ left.bracket.name ++ " paired with " ++ right.bracket.name
  | pairing (.unclosed left) => "Unmatched opening delimiter: " ++ left.bracket.name
  | pairing (.unopened right) => "Unmatched closing delimiter: " ++ right.bracket.name
  | missingArguments command _ expected actual =>
    "Command '\\" ++ String.ofList command ++ "' expects " ++ toString expected ++
      " argument(s) but got " ++ toString actual
  | unknownCommand command _ => "Undefined command '\\" ++ String.ofList command ++ "'"

def category : Finding → Category
  | unknownCommand .. => .undefinedCommand
  | _ => .badSyntax

/-- The finding with the line of the text that it is about. -/
def toDiagnostic (source : List Char) (f : Finding) : Diagnostic :=
  ⟨some (lineOf source f.position), f.message, f.category⟩

end Finding

/-! ## Arguments -/

/-- The text after an optional argument; all of it when there is none. -/
def skipOptional (s : List Char) : List Char :=
  match trimStart s with
  | '[' :: inner => ((breakOn? [']'] inner).map (·.2)).getD s
  | _ => s

/-- How many arguments stand at the start of the text, counted up to `limit`. -/
def countArguments : Nat → List Char → Nat
  | 0, _ => 0
  | limit + 1, s =>
    match splitArgument? s with
    | some (_, _, rest) => countArguments limit rest + 1
    | none => 0

/-- The arguments that a command misses, when `rest` follows it. -/
def missingArguments? (t : Token) (rest : List Char) : Option Finding :=
  if t.kind != .command then none
  else
    let name := t.text.tail
    (argumentCount? (String.ofList name)).bind fun expected =>
      let rest := if name == "sqrt".toList then skipOptional rest else rest
      let actual := countArguments expected rest
      if actual < expected then some (.missingArguments name t.offset expected actual) else none

/-- The commands of a text that starts with the given tokens and miss arguments. -/
def argumentFindingsOf (s : List Char) : List Token → List Finding
  | [] => []
  | t :: ts =>
    let rest := s.drop t.text.length
    (missingArguments? t rest).toList ++ argumentFindingsOf rest ts

/-- Commands that miss arguments. -/
def argumentFindings (s : List Char) : List Finding := argumentFindingsOf s (tokens s)

/-! ## Vocabulary -/

/-- A word command outside the vocabulary. -/
def unknownCommand? (config : Config) (t : Token) : Option Finding :=
  t.word?.bind fun name =>
    if isKnownCommand (String.ofList name) || config.knowsCommand name then none
    else some (.unknownCommand name t.offset)

/-- Word commands outside the vocabulary. -/
def commandFindings (config : Config) (s : List Char) : List Finding :=
  (tokens s).filterMap (unknownCommand? config)

/-! ## All checks -/

/-- The faults in the pairing of the delimiters of a text. -/
def pairingFindings (s : List Char) : List Finding := (unpaired (delimiters s)).map .pairing

/-- All findings, in the order of the text. -/
def findings (config : Config) (s : List Char) : List Finding :=
  let vocabulary := if config.grammarChecks then commandFindings config s else []
  (pairingFindings s ++ argumentFindings s ++ vocabulary).mergeSort fun a b =>
    a.position ≤ b.position

/-- All findings as diagnostics. -/
def check (config : Config) (s : List Char) : List Diagnostic :=
  (findings config s).map (Finding.toDiagnostic s)

end MathMarkup.Tex
