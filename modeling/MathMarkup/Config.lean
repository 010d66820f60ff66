import MathMarkup.Text.Blank

/-!
# Engine settings

Every setting has a default, so an empty configuration is a working one.
-/

namespace MathMarkup

/-- What stands in for a step whose math cannot be made valid. -/
inductive Fallback where
  /-- The repaired text, although it is still not valid. -/
  | repaired
  /-- The text as it was given. -/
  | asGiven
  /-- A visible error message. -/
  | sentinel
deriving DecidableEq, Repr

namespace Fallback

def name : Fallback → String
  | repaired => "repaired"
  | asGiven => "original"
  | sentinel => "sentinel"

/-- The names of all policies. -/
def names : List String := [repaired.name, asGiven.name, sentinel.name]

/-- The policy of this name. -/
def ofName? (name : String) : Option Fallback :=
  [repaired, asGiven, sentinel].find? fun p => p.name == name

/-- The policy that a person wrote down: blanks around it and case do not matter. A name that is none
comes back as it was understood. -/
def ofText (text : String) : Except String Fallback :=
  let name := String.ofList ((Text.trim text.toList).map Char.toLower)
  match ofName? name with
  | some policy => .ok policy
  | none => .error name

end Fallback

structure Config where
  /-- Take out commands that touch files, and unsafe MathML. -/
  sanitize : Bool := true
  /-- Check the grammar of MathML and the vocabulary of LaTeX. -/
  grammarChecks : Bool := true
  fallback : Fallback := .sentinel
  /-- A longer expression, in characters, gets a diagnostic. -/
  maxLength : Nat := 1000
  /-- Commands that are known besides the built-in ones. -/
  extraCommands : List String := []
deriving DecidableEq, Repr

/-- Is the command among the extra ones? They may be given with backslashes in front. -/
def Config.knowsCommand (config : Config) (name : List Char) : Bool :=
  config.extraCommands.any fun command => command.toList.dropWhile (· == '\\') == name

end MathMarkup
