import MathMarkup.Tex.Transliteration

/-!
# Math in words

Seven substitutions, each over the whole text and in this order, turn common phrasings such as
"square root of x" into LaTeX. Case does not matter in the words; what none of them knows stays as it
is.
-/

namespace MathMarkup.Phrase

open Text

/-- A run of one or more characters, and the text after it. -/
def run? (p : Char → Bool) (s : List Char) : Option (List Char × List Char) :=
  match s.takeWhile p with
  | [] => none
  | word => some (word, s.dropWhile p)

/-- Characters between blanks. -/
def isInk (c : Char) : Bool := !isBlank c

/-- The text after one of several words, in either case; the first that stands here counts. -/
def afterAny? (words : List String) (s : List Char) : Option (List Char) :=
  words.findSome? fun word => afterFolded? word.toList s

/-- Between braces. -/
def braced (s : List Char) : List Char := '{' :: s ++ ['}']

/-- A script between braces. -/
def scripted (marker : Char) (s : List Char) : List Char := marker :: braced s

def rootRule (s : List Char) : Option (List Char × List Char) := do
  let s ← afterFolded? "square root of ".toList s
  let (radicand, s) ← run? isInk s
  return ("\\sqrt".toList ++ braced radicand, s)

def fractionRule (s : List Char) : Option (List Char × List Char) := do
  let s ← afterFolded? "fraction ".toList s
  let (a, s) ← run? isWord s
  let s ← after? ['/'] s
  let (b, s) ← run? isWord s
  return ("\\frac".toList ++ braced a ++ braced b, s)

/-- A large operator with its two bounds. -/
def boundsRule (words : String) (command : List Char) (s : List Char) :
    Option (List Char × List Char) := do
  let s ← afterFolded? words.toList s
  let (low, s) ← run? isInk s
  let s ← afterFolded? " to ".toList s
  let (high, s) ← run? isInk s
  return (command ++ scripted '_' low ++ scripted '^' high, s)

def powerRule (s : List Char) : Option (List Char × List Char) := do
  let s := trimStart s
  let s := (afterAny? ["raised to the ", "to the "] s).getD s
  let (exponent, s) ← run? isDecimalDigit s
  let s ← afterAny? ["st", "nd", "rd", "th"] s
  let s ← afterFolded? " power".toList s
  return (scripted '^' exponent, s)

def subscriptRule (s : List Char) : Option (List Char × List Char) := do
  let s ← afterFolded? "subscript ".toList (trimStart s)
  let (index, s) ← run? isWord s
  return (scripted '_' index, s)

/-- The names of symbols, and the commands for them. -/
def symbolNames : List (String × String) := [
  ("alpha", "\\alpha"), ("beta", "\\beta"), ("pi", "\\pi"), ("theta", "\\theta"),
  ("infinity", "\\infty")]

/-- A symbol by its name, when the name ends there. -/
def symbolHere? (s : List Char) : Option (List Char × List Char) := do
  let (command, rest) ← symbolNames.findSome? fun (name, command) =>
    (afterFolded? name.toList s).map fun rest => (command, rest)
  match rest with
  | [] => return (command.toList, [])
  | c :: rest => if isWord c then none else return (command.toList, c :: rest)

/-- A symbol by its name behind a character that is neither part of a word nor a backslash. -/
def symbolRule : List Char → Option (List Char × List Char)
  | [] => none
  | c :: s =>
    if c = '\\' || isWord c then none
    else (symbolHere? s).map fun (command, rest) => (c :: command, rest)

/-- Replaces the names of symbols; at the start of the text a name needs nothing before it. -/
def replaceSymbols (s : List Char) : List Char :=
  match symbolHere? s with
  | some (command, rest) => command ++ substitute symbolRule rest
  | none => substitute symbolRule s

/-- The phrase with everything that is known turned into LaTeX. -/
def toLatex (s : List Char) : List Char :=
  replaceSymbols <|
    substitute subscriptRule <|
      substitute powerRule <|
        substitute (boundsRule "integral from " "\\int".toList) <|
          substitute (boundsRule "sum from " "\\sum".toList) <|
            substitute fractionRule <|
              substitute rootRule s

end MathMarkup.Phrase
