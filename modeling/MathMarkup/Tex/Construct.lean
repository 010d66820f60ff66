import MathMarkup.Tex.Span
import MathMarkup.Tex.Symbol

/-!
# Constructs with arguments

The LaTeX commands that take arguments: how many, whether they are math or plain text, and the markup
that is built around them. `Construct.ofCommand?` finds the construct of a command.
-/

namespace MathMarkup.Tex

open MathML Text

/-- The plain text of an argument, as far as markup carries it. -/
def carriedText (s : List Char) : List Char := s.filter isCarried

/-- What a construct makes of its arguments. Functions get the markup of math arguments, each of them
in order, and the text of plain ones. -/
inductive Build where
  /-- One math argument. -/
  | unary (f : List Markup → Markup)
  /-- Two math arguments. -/
  | binary (f : List Markup → List Markup → Markup)
  /-- One math argument, and another one before it in square brackets that may be missing. -/
  | indexed (bare : List Markup → Markup) (f : List Markup → List Markup → Markup)
  /-- One plain argument. -/
  | plain (f : List Char → Markup)
  /-- A plain argument and a math argument. -/
  | styled (f : List Char → List Markup → Markup)

/-- How many mandatory arguments there are. -/
def Build.arity : Build → Nat
  | unary _ | indexed _ _ | plain _ => 1
  | binary _ | styled _ => 2

/-- A family of commands; what is built may depend on the command. -/
structure Construct where
  commands : List String
  build : String → Build

/-- A fraction; its parts are grouped. -/
def fraction (attributes : List (String × List Char)) (a b : List Markup) : Markup :=
  .element "mfrac" attributes [.row a, .row b]

/-- The value of `mathvariant` for a font command. -/
def fontVariant : String → String
  | "mathbf" => "bold"
  | "mathit" => "italic"
  | "mathbb" => "double-struck"
  | "mathcal" => "script"
  | "mathfrak" => "fraktur"
  | "mathsf" => "sans-serif"
  | "mathtt" => "monospace"
  | _ => "bold-italic"

/-- The mark that an accent command sets. -/
def accentMark : String → Char
  | "hat" | "widehat" => '^'
  | "bar" | "overline" => '\u00af'
  | "vec" => '→'
  | "dot" => '\u02d9'
  | "ddot" => '\u00a8'
  | _ => '~'

/-- All constructs. -/
def constructs : List Construct := [
  { commands := ["frac", "dfrac", "tfrac", "cfrac"]
    build := fun _ => .binary (fraction []) },
  { commands := ["binom", "dbinom", "tbinom"]
    build := fun _ => .binary fun a b =>
      .row [.operator ['('], fraction [("linethickness", ['0'])] a b, .operator [')']] },
  { commands := ["sqrt"]
    build := fun _ => .indexed (fun a => .node "msqrt" [.row a]) fun a index =>
      .node "mroot" [.row a, .row index] },
  { commands := ["text", "textrm", "textbf", "textit", "mbox"]
    build := fun _ => .plain fun s => .token "mtext" (carriedText s) },
  { commands := ["mathrm", "operatorname"]
    build := fun _ => .plain fun s =>
      .element "mi" [("mathvariant", "normal".toList)] [.text (carriedText (trim s))] },
  { commands := ["mathbf", "mathit", "mathbb", "mathcal", "mathfrak", "mathsf", "mathtt", "boldsymbol"]
    build := fun command => .unary fun a =>
      .element "mstyle" [("mathvariant", (fontVariant command).toList)] a },
  { commands := ["hat", "widehat", "bar", "overline", "vec", "dot", "ddot", "tilde", "widetilde"]
    build := fun command => .unary fun a =>
      .element "mover" [("accent", "true".toList)]
        [.row a, .row [.operator [accentMark command]]] },
  { commands := ["underline"]
    build := fun _ => .unary fun a => .node "munder" [.row a, .row [.operator ['_']]] },
  { commands := ["color", "textcolor"]
    build := fun _ => .styled fun color a =>
      .element "mstyle" [("mathcolor", carriedText (trim color))] a },
  { commands := ["boxed"]
    build := fun _ => .unary fun a =>
      .element "menclose" [("notation", "box".toList)] [.row a] }]

/-- How the arguments of a command are used. -/
def build? (command : String) : Option Build :=
  (constructs.find? fun c => c.commands.contains command).map fun c => c.build command

/-! ## Reading arguments -/

/-- A brace group without its braces; anything else as it is. -/
def unbrace (arg : List Char) : List Char :=
  match arg with
  | '{' :: rest => if rest.getLast? = some '}' then rest.dropLast else arg
  | _ => arg

/-- The next argument without its braces, and the text after it. -/
def argument? (s : List Char) : Option (List Char × List Char) :=
  (splitArgument? s).map fun (_, arg, rest) => (unbrace arg, rest)

theorem length_of_argument? {s arg rest : List Char} (h : argument? s = some (arg, rest)) :
    rest.length < s.length := by
  simp only [argument?, Option.map_eq_some_iff, Prod.exists, Prod.mk.injEq] at h
  obtain ⟨blanks, a, r, h', rfl, rfl⟩ := h
  obtain ⟨rfl, hne⟩ := append_of_splitArgument? h'
  have := List.length_pos_iff.2 hne
  simp only [List.length_append]
  omega

/-- The text in square brackets that comes next, up to the first closing one, and the text after it:
`none` when there is no opening bracket, `some none` when there is no closing one. -/
def bracketed? (s : List Char) : Option (Option (List Char × List Char)) :=
  match trimStart s with
  | '[' :: inner => some (breakOn? [']'] inner)
  | _ => none

end MathMarkup.Tex
