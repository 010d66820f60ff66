import MathMarkup.Text.Blank

/-!
# Cosmetic fixes

Four substitutions, each over the whole text and in this order: a thin space between a digit, letter
or closing bracket and a following `\text`, single braces around the argument of `\text`, braces
around the one token that `\color` applies to, and a space between any other character and a following
`\text`. What one of them writes it does not match again.
-/

namespace MathMarkup.Tex

open Text

/-- `\text` with the brace that opens its argument. -/
def textOpen : List Char := ['\\', 't', 'e', 'x', 't', '{']

/-- `\color` with the brace that opens its argument. -/
def colorOpen : List Char := ['\\', 'c', 'o', 'l', 'o', 'r', '{']

def isBrace (c : Char) : Bool := c == '{' || c == '}'

/-- A text without braces and the text after the closing brace behind it. -/
def flatBody? (s : List Char) : Option (List Char × List Char) :=
  match s.dropWhile fun c => !isBrace c with
  | '}' :: rest => some (s.takeWhile fun c => !isBrace c, rest)
  | _ => none

/-- The text up to and with the brace that closes a group, and the text after it; groups inside may
be open to the given depth. Backslashes play no role. -/
def closeNested? : Nat → Nat → List Char → Option (List Char × List Char)
  | _, _, [] => none
  | limit, opened, c :: s =>
    if c = '}' then
      match opened with
      | 0 => some ([c], s)
      | opened + 1 => (closeNested? limit opened s).map fun (body, rest) => (c :: body, rest)
    else if c = '{' then
      if opened < limit then
        (closeNested? limit (opened + 1) s).map fun (body, rest) => (c :: body, rest)
      else none
    else (closeNested? limit opened s).map fun (body, rest) => (c :: body, rest)

theorem append_of_closeNested? {limit opened : Nat} {s body rest : List Char}
    (h : closeNested? limit opened s = some (body, rest)) : s = body ++ rest := by
  induction s generalizing opened body rest with
  | nil => simp [closeNested?] at h
  | cons c s ih =>
    simp only [closeNested?] at h
    split at h
    · split at h
      · simp only [Option.some.injEq, Prod.mk.injEq] at h
        obtain ⟨rfl, rfl⟩ := h
        rfl
      · simp only [Option.map_eq_some_iff, Prod.exists, Prod.mk.injEq] at h
        obtain ⟨b, r, h', rfl, rfl⟩ := h
        simp [ih h']
    · split at h
      · split at h
        · simp only [Option.map_eq_some_iff, Prod.exists, Prod.mk.injEq] at h
          obtain ⟨b, r, h', rfl, rfl⟩ := h
          simp [ih h']
        · simp at h
      · simp only [Option.map_eq_some_iff, Prod.exists, Prod.mk.injEq] at h
        obtain ⟨b, r, h', rfl, rfl⟩ := h
        simp [ih h']

/-- The brace groups at the start of the text, of three levels at most, and the text after them. -/
def splitNested (s : List Char) : List Char × List Char :=
  match s with
  | [] => ([], [])
  | c :: t =>
    if c = '{' then
      match _h : closeNested? 2 0 t with
      | none => ([], s)
      | some (body, rest) =>
        let (groups, rest) := splitNested rest
        (c :: body ++ groups, rest)
    else ([], s)
termination_by s.length
decreasing_by
  have := congrArg List.length (append_of_closeNested? _h)
  simp only [List.length_append, List.length_cons] at *
  omega

/-- The one token that a color applies to: a word command with its groups, or a single character. -/
def colored? : List Char → Option (List Char × List Char)
  | [] => none
  | c :: s =>
    if c = '\\' then
      match s.takeWhile Char.isAlpha with
      | [] => none
      | name =>
        let (groups, rest) := splitNested (s.dropWhile Char.isAlpha)
        some (c :: name ++ groups, rest)
    else if isBlank c || isBrace c || c == '&' || c == '^' || c == '_' then none
    else some ([c], s)

/-- A thin space before `\text` behind a digit, a letter or a closing bracket. -/
def thinSpaceRule : List Char → Option (List Char × List Char)
  | [] => none
  | c :: s =>
    if c.isAlphanum || c == ')' || c == ']' then
      (after? textOpen s).map fun rest => (c :: '\\' :: ',' :: textOpen, rest)
    else none

/-- Single braces around the argument of `\text`. -/
def doubledBracesRule (s : List Char) : Option (List Char × List Char) := do
  let s ← after? (textOpen ++ ['{']) s
  let (body, rest) ← flatBody? s
  let rest ← after? ['}'] rest
  return (textOpen ++ body ++ ['}'], rest)

/-- Braces around what `\color` applies to. -/
def coloredTokenRule (s : List Char) : Option (List Char × List Char) := do
  let s ← after? colorOpen s
  let (color, rest) ← flatBody? s
  let (token, rest) ← colored? rest
  return (colorOpen ++ color ++ ['}', '{'] ++ token ++ ['}'], rest)

/-- Characters after which `\text` needs no space. -/
def spacesItself (c : Char) : Bool :=
  isBlank c || isBrace c || c == '\\' || c == ',' || c == ';' || c == ':' || c == '!'

/-- A space before `\text` behind any other character. -/
def spaceRule : List Char → Option (List Char × List Char)
  | [] => none
  | c :: s =>
    if spacesItself c then none
    else (after? textOpen s).map fun rest => (c :: ' ' :: textOpen, rest)

/-- All fixes, in order. -/
def cosmetic (s : List Char) : List Char :=
  substitute spaceRule <| substitute coloredTokenRule <| substitute doubledBracesRule <|
    substitute thinSpaceRule s

end MathMarkup.Tex
