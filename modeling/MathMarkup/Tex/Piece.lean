import MathMarkup.Diagnostic
import MathMarkup.Tex.Cells
import MathMarkup.Tex.Construct
import MathMarkup.Text.Letter

/-!
# Pieces of an expression

`pieces` reads an expression from left to right into what its parts turn into: finished markup, a
construct whose arguments are still to be converted, a script for what stands before it, a table, or a
remark. Nothing is converted yet, so reading is a single pass. What a command without a rule is
called is kept as an identifier.
-/

namespace MathMarkup.Tex

open MathML Text

/-- What the transliteration has to say. -/
inductive Remark where
  | unclosedGroup
  | unmatchedBrace
  | missingOperand (marker : Char)
  | missingArguments (command : List Char) (arity : Nat)
  | strayEnd
  | unnamedEnvironment
  | unclosedEnvironment (name : List Char)
  | unknownCommand (name : List Char)
  | unknownEnvironment (name : List Char)
deriving DecidableEq, Repr

namespace Remark

def message : Remark → String
  | unclosedGroup => "unclosed '\x7b'"
  | unmatchedBrace => "unmatched '\x7d'"
  | missingOperand marker => "'" ++ String.ofList [marker] ++ "' has no operand"
  | missingArguments command arity =>
    "\\" ++ String.ofList command ++ " is missing " ++ toString arity ++ " argument(s)"
  | strayEnd => "\\end without \\begin"
  | unnamedEnvironment => "\\begin without an environment name"
  | unclosedEnvironment name => "\\begin\x7b" ++ String.ofList name ++ "\x7d is never closed"
  | unknownCommand name => "no MathML rule for \\" ++ String.ofList name
  | unknownEnvironment name => "no MathML rule for environment " ++ String.ofList name

def category : Remark → Category
  | unknownCommand _ | unknownEnvironment _ => .undefinedCommand
  | _ => .badSyntax

def toDiagnostic (r : Remark) : Diagnostic := .plain r.category r.message

end Remark

/-- The brackets that an environment sets around its table. -/
structure Fences where
  opening : Option Char
  closing : Option Char
deriving DecidableEq, Repr

/-- A part of an expression. -/
inductive Piece where
  | remark (r : Remark)
  | plain (m : Markup)
  /-- Markup around a converted text. -/
  | unary (f : List Markup → Markup) (a : List Char)
  /-- Markup around two texts, converted in this order. -/
  | binary (f : List Markup → List Markup → Markup) (a b : List Char)
  /-- A subscript or superscript for what stands before it. -/
  | script (sub : Bool) (operand : List Char)
  /-- A table with the texts of its cells. -/
  | table (fences : Fences) (rows : List (List (List Char)))

/-- The environments that are tables. -/
def plainTables : List String := [
  "matrix", "smallmatrix", "array", "aligned", "align", "align*", "alignat", "gathered", "gather",
  "gather*", "split", "equation", "equation*"]

/-- The brackets of an environment that is a table. -/
def fences? (name : String) : Option Fences :=
  if plainTables.contains name then some ⟨none, none⟩
  else [("pmatrix", ⟨some '(', some ')'⟩), ("bmatrix", ⟨some '[', some ']'⟩),
    ("Bmatrix", ⟨some '{', some '}'⟩), ("vmatrix", ⟨some '|', some '|'⟩),
    ("Vmatrix", ⟨some '‖', some '‖'⟩), ("cases", Fences.mk (some '{') none)].lookup name

/-! ## Reading one piece

Each reader returns pieces and the rest of the text. -/

/-- The digits of a number behind its first one, with a fraction when a digit follows the point. -/
def splitNumber (s : List Char) : List Char × List Char :=
  let whole := s.takeWhile Char.isDigit
  match s.dropWhile Char.isDigit with
  | '.' :: rest =>
    match rest.takeWhile Char.isDigit with
    | [] => (whole, '.' :: rest)
    | fraction => (whole ++ '.' :: fraction, rest.dropWhile Char.isDigit)
  | rest => (whole, rest)

/-- A construct with its arguments; `none` when one of them is missing. -/
def construct? (build : Build) (s : List Char) : Option (Piece × List Char) :=
  match build with
  | .unary f => do
    let (a, s) ← argument? s
    return (.unary f a, s)
  | .binary f => do
    let (a, s) ← argument? s
    let (b, s) ← argument? s
    return (.binary f a b, s)
  | .indexed bare f =>
    match bracketed? s with
    | none => do
      let (a, s) ← argument? s
      return (.unary bare a, s)
    | some none => none
    | some (some (index, s)) => do
      let (a, s) ← argument? s
      return (.binary f a index, s)
  | .plain f => do
    let (a, s) ← argument? s
    return (.plain (f a), s)
  | .styled f => do
    let (a, s) ← argument? s
    let (b, s) ← argument? s
    return (.unary (f a) b, s)

/-- The brace group that comes next, with its braces, and the text after it. -/
def nextGroup? (s : List Char) : Option (List Char × List Char) :=
  match splitArgument? s with
  | some (_, '{' :: group, rest) => some ('{' :: group, rest)
  | _ => none

/-- The body of an array without the description of its columns. -/
def dropColumns (body : List Char) : List Char := ((nextGroup? body).map (·.2)).getD body

/-- What an environment with this body turns into. -/
def environmentPieces (name body : List Char) : List Piece :=
  match fences? (String.ofList name) with
  | some fences =>
    let body := if name = "array".toList then dropColumns body else body
    [.table fences (tableCells body)]
  | none => [.remark (.unknownEnvironment name), .unary .row body]

/-- An environment behind its opening command. -/
def readEnvironment (s : List Char) : List Piece × List Char :=
  match nextGroup? s with
  | none => ([.remark .unnamedEnvironment], s)
  | some (group, rest) =>
    let name := trim (groupBody group)
    match splitEnvironment? name rest with
    | none => ([.remark (.unclosedEnvironment name)], rest)
    | some (body, rest) =>
      (environmentPieces name (body.take (body.length - (endOf name).length)), rest)

/-- The text after a sizing command; a point is a delimiter that is not there. -/
def dropNullDelimiter (s : List Char) : List Char :=
  match trimStart s with
  | '.' :: rest => rest
  | _ => s

/-- The command as an identifier. -/
def verbatimCommand (name : List Char) : Piece := .plain (.identifier ('\\' :: name))

/-- A command with this name, when `s` follows it. -/
def readWord (name s : List Char) : List Piece × List Char :=
  let command := String.ofList name
  if command = "begin" then readEnvironment s
  else if command = "end" then
    ([.remark .strayEnd], ((splitArgument? s).map fun (_, _, rest) => rest).getD s)
  else if sizingCommands.contains command then ([], dropNullDelimiter s)
  else
    match build? command with
    | some build =>
      match construct? build s with
      | some (piece, rest) => ([piece], rest)
      | none => ([.remark (.missingArguments name build.arity), verbatimCommand name], s)
    | none =>
      match symbol? command with
      | some symbol => ((symbol.markup? name).toList.map .plain, s)
      | none => ([.remark (.unknownCommand name), verbatimCommand name], s)

/-- What follows a backslash. -/
def readCommand : List Char → List Piece × List Char
  | [] => ([.plain (.operator ['\\'])], [])
  | c :: s =>
    if c = '\\' then ([.plain (.void "mspace" [("linebreak", "newline".toList)])], s)
    else if isCommandLetter c then
      readWord (c :: s.takeWhile isCommandLetter) (s.dropWhile isCommandLetter)
    else ((escapedSymbol? c).toList.map .plain, s)

/-- A script marker, when `s` follows it. -/
def readScript (marker : Char) (s : List Char) : List Piece × List Char :=
  match argument? s with
  | some (operand, rest) => ([.script (marker == '_') operand], rest)
  | none => ([.remark (.missingOperand marker), .script (marker == '_') []], s)

/-- An opening brace, when `s` follows it. -/
def readGroup (s : List Char) : List Piece × List Char :=
  match splitGroup? ('{' :: s) with
  | some (group, rest) => ([.unary .row (groupBody group)], rest)
  | none => ([.remark .unclosedGroup], s)

/-- A character that is neither markup nor blank. -/
def readPlain (c : Char) (s : List Char) : List Piece × List Char :=
  if c.isDigit then
    let (digits, rest) := splitNumber s
    ([.plain (.number (c :: digits))], rest)
  else if isLetter c then ([.plain (.identifier [c])], s)
  else if c = '*' then ([.plain (.operator ['×'])], s)
  else if c = '/' then ([.plain (.operator ['÷'])], s)
  else ([.plain (.operator [c])], s)

/-- What stands at the start of `c :: s`. -/
def readPieces (c : Char) (s : List Char) : List Piece × List Char :=
  if c = '\\' then readCommand s
  else if c = '^' || c = '_' then readScript c s
  else if c = '{' then readGroup s
  else if c = '}' then ([.remark .unmatchedBrace], s)
  else if c = '&' || c = '$' then ([], s)
  else if c = '%' then ([], s.dropWhile (· != '\n'))
  else if isBlank c || !isCarried c then ([], s)
  else readPlain c s

/-! ## Reading gets on -/

theorem length_dropWhile_le (p : Char → Bool) (s : List Char) : (s.dropWhile p).length ≤ s.length :=
  (List.dropWhile_suffix p).length_le

theorem length_splitNumber (s : List Char) : (splitNumber s).2.length ≤ s.length := by
  have := length_dropWhile_le Char.isDigit s
  unfold splitNumber
  split
  · rename_i rest h
    have := length_dropWhile_le Char.isDigit rest
    split
    · simp_all
    · simp_all
      omega
  · simpa using this

theorem length_nextGroup? {s group rest : List Char} (h : nextGroup? s = some (group, rest)) :
    rest.length < s.length := by
  unfold nextGroup? at h
  split at h
  · rename_i h'
    simp only [Option.some.injEq, Prod.mk.injEq] at h
    obtain ⟨rfl, rfl⟩ := h
    obtain ⟨rfl, -⟩ := append_of_splitArgument? h'
    simp only [List.length_append, List.length_cons]
    omega
  · simp at h

theorem length_bracketed? {s index rest : List Char} (h : bracketed? s = some (some (index, rest))) :
    rest.length < s.length := by
  have hs := length_dropWhile_le isBlank s
  unfold bracketed? at h
  split at h
  · rename_i inner h'
    simp only [Option.some.injEq] at h
    have := congrArg List.length (eq_append_of_breakOn? h)
    simp only [trimStart] at h'
    rw [h'] at hs
    simp only [List.length_append, List.length_cons] at *
    omega
  · simp at h

theorem length_construct? {build : Build} {s rest : List Char} {piece : Piece}
    (h : construct? build s = some (piece, rest)) : rest.length ≤ s.length := by
  cases build with
  | unary f | plain f =>
    simp only [construct?, Option.bind_eq_bind, Option.pure_def, Option.bind_eq_some_iff, Prod.exists,
      Option.some.injEq, Prod.mk.injEq] at h
    obtain ⟨a, r, ha, -, rfl⟩ := h
    exact Nat.le_of_lt (length_of_argument? ha)
  | binary f | styled f =>
    simp only [construct?, Option.bind_eq_bind, Option.pure_def, Option.bind_eq_some_iff, Prod.exists,
      Option.some.injEq, Prod.mk.injEq] at h
    obtain ⟨a, r, ha, b, r', hb, -, rfl⟩ := h
    have := length_of_argument? ha
    have := length_of_argument? hb
    omega
  | indexed bare f =>
    simp only [construct?] at h
    split at h
    · simp only [Option.bind_eq_bind, Option.pure_def, Option.bind_eq_some_iff, Prod.exists,
        Option.some.injEq, Prod.mk.injEq] at h
      obtain ⟨a, r, ha, -, rfl⟩ := h
      exact Nat.le_of_lt (length_of_argument? ha)
    · simp at h
    · rename_i index r hr
      simp only [Option.bind_eq_bind, Option.pure_def, Option.bind_eq_some_iff, Prod.exists,
        Option.some.injEq, Prod.mk.injEq] at h
      obtain ⟨a, r', ha, -, rfl⟩ := h
      have := length_bracketed? hr
      have := length_of_argument? ha
      omega

theorem length_readEnvironment (s : List Char) : (readEnvironment s).2.length ≤ s.length := by
  unfold readEnvironment
  split
  · simp
  · rename_i group rest h
    have := length_nextGroup? h
    simp only
    split
    · simp only; omega
    · rename_i body rest' h'
      have := congrArg List.length (append_of_closeEnvironments? h')
      simp only [List.length_append] at *
      omega

theorem length_readWord (name s : List Char) : (readWord name s).2.length ≤ s.length := by
  unfold readWord
  simp only
  split
  · exact length_readEnvironment s
  split
  · cases h : splitArgument? s with
    | none => simp
    | some r =>
      obtain ⟨blanks, arg, rest⟩ := r
      obtain ⟨rfl, -⟩ := append_of_splitArgument? h
      simp only [Option.map_some, Option.getD_some, List.length_append]
      omega
  split
  · have := length_dropWhile_le isBlank s
    unfold dropNullDelimiter
    split
    · rename_i rest h
      simp only [trimStart] at h
      rw [h] at this
      simp only [List.length_cons] at this ⊢
      omega
    · exact Nat.le_refl _
  split
  · split
    · rename_i h
      exact length_construct? h
    · exact Nat.le_refl _
  · split <;> exact Nat.le_refl _

theorem length_readCommand (s : List Char) : (readCommand s).2.length ≤ s.length := by
  unfold readCommand
  split
  · simp
  · rename_i c s
    split
    · simp
    split
    · have := length_readWord (c :: s.takeWhile isCommandLetter) (s.dropWhile isCommandLetter)
      have := length_dropWhile_le isCommandLetter s
      simp only [List.length_cons]
      omega
    · simp

/-- Every piece takes at least the first character. -/
theorem length_readPieces (c : Char) (s : List Char) : (readPieces c s).2.length ≤ s.length := by
  unfold readPieces
  split
  · exact length_readCommand s
  split
  · unfold readScript
    split
    · rename_i h
      exact Nat.le_of_lt (length_of_argument? h)
    · exact Nat.le_refl _
  split
  · unfold readGroup
    split
    · rename_i group rest h
      obtain ⟨h, hne⟩ := append_of_splitGroup? h
      have := congrArg List.length h
      have := List.length_pos_iff.2 hne
      simp only [List.length_append, List.length_cons] at *
      omega
    · exact Nat.le_refl _
  split
  · exact Nat.le_refl _
  split
  · exact Nat.le_refl _
  split
  · exact length_dropWhile_le _ s
  split
  · exact Nat.le_refl _
  unfold readPlain
  split
  · exact length_splitNumber s
  · split
    · exact Nat.le_refl _
    · split
      · exact Nat.le_refl _
      · split <;> exact Nat.le_refl _

/-- The pieces of an expression, in order. -/
def pieces : List Char → List Piece
  | [] => []
  | c :: s => (readPieces c s).1 ++ pieces (readPieces c s).2
termination_by s => s.length
decreasing_by
  have := length_readPieces c s
  simp only [List.length_cons]
  omega

end MathMarkup.Tex
