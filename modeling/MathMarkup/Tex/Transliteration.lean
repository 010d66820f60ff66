import MathMarkup.MathML.Markup
import MathMarkup.Tex.Display
import MathMarkup.Tex.Piece

/-!
# From LaTeX to MathML

`convert` turns the pieces of an expression into markup; scripts attach to what stands before them.
Arguments and cells are converted in turn, and `fuel` bounds how deep they are nested: the answer is
`none` when it does not suffice. An argument is shorter than the text it stands in, so the length of
the text is enough, unless forged placeholders bring text into a cell that was not there; then the
nesting need not end at all. `transliterate` gives the whole `math` element.
-/

namespace MathMarkup.Tex

open MathML Text

/-- Markup that scripts may attach to. -/
inductive Atom where
  | plain (m : Markup)
  | scripted (base : List Markup) (sub sup : Option (List Markup))

/-- The markup of an atom. Base and scripts are grouped. -/
def Atom.markup : Atom → List Markup
  | plain m => [m]
  | scripted base (some sub) (some sup) => [.node "msubsup" [.row base, .row sub, .row sup]]
  | scripted base (some sub) none => [.node "msub" [.row base, .row sub]]
  | scripted base none (some sup) => [.node "msup" [.row base, .row sup]]
  | scripted base none none => base

/-- A script on its own base. -/
def Atom.withScript (base : List Markup) (sub : Bool) (operand : List Markup) : Atom :=
  if sub then .scripted base (some operand) none else .scripted base none (some operand)

/-- Adds a script. A second script of one kind takes the scripted atom as its base. -/
def Atom.addScript (sub : Bool) (operand : List Markup) (a : Atom) : Atom :=
  match a, sub with
  | .scripted base none sup, true => .scripted base (some operand) sup
  | .scripted base sub none, false => .scripted base sub (some operand)
  | a, sub => .withScript a.markup sub operand

/-- Attaches a script to the last atom, or to nothing; atoms come last first. -/
def attachScript (sub : Bool) (operand : List Markup) : List Atom → List Atom
  | [] => [.withScript [] sub operand]
  | a :: atoms => a.addScript sub operand :: atoms

/-- Markup with the remarks made on the way. -/
structure Converted where
  markup : List Markup
  remarks : List Remark

/-- A table with the converted cells, between its brackets. -/
def tableMarkup (fences : Fences) (rows : List (List (List Markup))) : Markup :=
  let table := Markup.node "mtable" <| rows.map fun cells =>
    .node "mtr" (cells.map fun cell => .node "mtd" cell)
  let fence (c : Option Char) : List Markup := (c.map fun c => Markup.operator [c]).toList
  if fences.opening.isNone && fences.closing.isNone then table
  else .row (fence fences.opening ++ [table] ++ fence fences.closing)

/-- Converts texts one after the other. -/
def convertAll (convert : List Char → Option Converted) :
    List (List Char) → Option (List (List Markup) × List Remark)
  | [] => some ([], [])
  | s :: rest => do
    let c ← convert s
    let (markup, remarks) ← convertAll convert rest
    return (c.markup :: markup, c.remarks ++ remarks)

/-- Converts the cells of a table, row by row. -/
def convertRows (convert : List Char → Option Converted) :
    List (List (List Char)) → Option (List (List (List Markup)) × List Remark)
  | [] => some ([], [])
  | row :: rest => do
    let (cells, remarks) ← convertAll convert row
    let (rows, more) ← convertRows convert rest
    return (cells :: rows, remarks ++ more)

/-- A table of converted cells. -/
def convertTable (convert : List Char → Option Converted) (fences : Fences)
    (rows : List (List (List Char))) : Option (Markup × List Remark) :=
  (convertRows convert rows).map fun (rows, remarks) => (tableMarkup fences rows, remarks)

/-- What was converted so far: the atoms, last first, and the remarks. -/
structure Progress where
  atoms : List Atom
  remarks : List Remark

/-- One more atom, with the remarks made on the way to it. -/
def Progress.push (p : Progress) (m : Markup) (remarks : List Remark) : Progress :=
  ⟨.plain m :: p.atoms, p.remarks ++ remarks⟩

/-- Adds a piece; `convert` is used for the texts in it. -/
def place (convert : List Char → Option Converted) (p : Progress) : Piece → Option Progress
  | .remark r => some ⟨p.atoms, p.remarks ++ [r]⟩
  | .plain m => some (p.push m [])
  | .unary f a => do
    let a ← convert a
    return p.push (f a.markup) a.remarks
  | .binary f a b => do
    let a ← convert a
    let b ← convert b
    return p.push (f a.markup b.markup) (a.remarks ++ b.remarks)
  | .script sub operand => do
    let operand ← convert operand
    return ⟨attachScript sub operand.markup p.atoms, p.remarks ++ operand.remarks⟩
  | .table fences rows => do
    let (m, remarks) ← convertTable convert fences rows
    return p.push m remarks

/-- Adds pieces, one after the other. -/
def placeAll (convert : List Char → Option Converted) : Progress → List Piece → Option Progress
  | p, [] => some p
  | p, piece :: rest => do
    let p ← place convert p piece
    placeAll convert p rest

/-- The markup of all atoms. -/
def Progress.finish (p : Progress) : Converted := ⟨p.atoms.reverse.flatMap Atom.markup, p.remarks⟩

/-- The markup of an expression. -/
def convert : Nat → List Char → Option Converted
  | 0, _ => none
  | fuel + 1, s => (placeAll (convert fuel) ⟨[], []⟩ (pieces s)).map Progress.finish

/-! ## Whole expressions -/

/-- Drops the dollar signs that are not escaped; `escaped` says that an odd number of backslashes
stands before the text. -/
def dropShifts (escaped : Bool) : List Char → List Char
  | [] => []
  | c :: s =>
    if c = '$' ∧ escaped = false then dropShifts false s
    else c :: dropShifts (c == '\\' && !escaped) s

/-- An expression of several rows is a table without brackets. -/
def convertBody (fuel : Nat) (body : List Char) : Option Converted :=
  let rows := tableCells body
  if 1 < rows.length then
    (convertTable (convert fuel) ⟨none, none⟩ rows).map fun (m, remarks) => ⟨[m], remarks⟩
  else convert fuel body

/-- A complete `math` element and what there is to say about it. -/
structure Transliteration where
  mathml : List Char
  diagnostics : List Diagnostic

/-- Did every part have a rule? -/
def Transliteration.isClean (t : Transliteration) : Bool := t.diagnostics.isEmpty

/-- The element around converted markup. -/
def Converted.transliteration (c : Converted) : Transliteration :=
  ⟨(Markup.element "math" [("xmlns", mathNamespace.toList)] c.markup).render,
    c.remarks.map Remark.toDiagnostic⟩

/-- The bare expression without math shifts. -/
def expressionBody (latex : List Char) : List Char := dropShifts false (stripDisplay latex)

/-- A depth of nesting that a text of this length does not need unless its nesting has no end. -/
def nestingBound (s : List Char) : Nat := (s.length + 1) * (s.length + 1)

/-- The MathML of a LaTeX expression; `none` when its nesting has no end. -/
def transliterate? (latex : List Char) : Option Transliteration :=
  let body := expressionBody latex
  (convertBody (nestingBound body) body).map Converted.transliteration

/-- The MathML of a LaTeX expression; an empty element when its nesting has no end. -/
def transliterate (latex : List Char) : Transliteration :=
  (transliterate? latex).getD (Converted.transliteration ⟨[], []⟩)

def Transliteration.toJson (t : Transliteration) : Json :=
  .object [("mathml", .string (String.ofList t.mathml)),
    ("diagnostics", .array (t.diagnostics.map Diagnostic.toJson))]

end MathMarkup.Tex
