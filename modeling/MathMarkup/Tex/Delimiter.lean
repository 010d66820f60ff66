import MathMarkup.Tex.Token

/-!
# Delimiters

`delimiters` collects the brackets of an expression in order, and `unpaired` pairs them with a stack:
each closing one takes the last open one, and what does not fit is reported. A pair made with `\left`
and `\right` may carry any two brackets, but pairs only with itself.
-/

namespace MathMarkup.Tex

inductive Shape where
  | paren | bracket | brace | literalBrace | angle | floor | ceil
  /-- No bracket at all, as in `\left.` -/
  | null
deriving DecidableEq, Repr

/-- The shape as messages name it. -/
def Shape.name : Shape → String
  | paren => "Paren"
  | bracket => "Bracket"
  | brace => "Brace"
  | literalBrace => "LiteralBrace"
  | angle => "Angle"
  | floor => "Floor"
  | ceil => "Ceil"
  | null => "Null"

/-- A bracket: its shape, and the side it stands on. -/
structure Bracket where
  shape : Shape
  opening : Bool
deriving DecidableEq, Repr

def Bracket.name (b : Bracket) : String := (if b.opening then "Left" else "Right") ++ b.shape.name

/-- Do two brackets make a pair on their own? -/
def Bracket.pairs (left right : Bracket) : Bool :=
  left.opening && !right.opening && left.shape == right.shape

structure Delimiter where
  bracket : Bracket
  /-- Where it starts, in bytes. -/
  position : Nat
  /-- Is it made with `\left` or `\right`? -/
  sized : Bool
deriving DecidableEq, Repr

/-- Do two delimiters make a pair? -/
def Delimiter.pairs (left right : Delimiter) : Bool :=
  if left.sized || right.sized then left.sized && right.sized else left.bracket.pairs right.bracket

/-- The commands that stand for a bracket. -/
def bracketCommands : List (String × Bracket) := [
  ("\\\x7b", ⟨.literalBrace, true⟩), ("\\\x7d", ⟨.literalBrace, false⟩),
  ("\\langle", ⟨.angle, true⟩), ("\\rangle", ⟨.angle, false⟩),
  ("\\lfloor", ⟨.floor, true⟩), ("\\rfloor", ⟨.floor, false⟩),
  ("\\lceil", ⟨.ceil, true⟩), ("\\rceil", ⟨.ceil, false⟩)]

/-- The bracket that a token is. -/
def Token.bracket? (t : Token) : Option Bracket :=
  match t.kind with
  | .lparen => some ⟨.paren, true⟩
  | .rparen => some ⟨.paren, false⟩
  | .lbracket => some ⟨.bracket, true⟩
  | .rbracket => some ⟨.bracket, false⟩
  | .lbrace => some ⟨.brace, true⟩
  | .rbrace => some ⟨.brace, false⟩
  | .command => bracketCommands.lookup (String.ofList t.text)
  | _ => none

/-- Is the token `\left` (true) or `\right` (false)? -/
def Token.side? (t : Token) : Option Bool :=
  if t.kind == .command then
    if t.text == "\\left".toList then some true
    else if t.text == "\\right".toList then some false
    else none
  else none

/-- The delimiters of a list of tokens without trivia. `\left` and `\right` take the next token along;
when that is no bracket of their side, they carry none. -/
def delimitersOf : List Token → List Delimiter
  | [] => []
  | t :: ts =>
    match t.side? with
    | some opening =>
      match ts with
      | [] => [⟨⟨.null, opening⟩, t.offset, true⟩]
      | next :: ts =>
        let carried := next.bracket?.filter fun b => b.opening == opening
        ⟨carried.getD ⟨.null, opening⟩, t.offset, true⟩ :: delimitersOf ts
    | none =>
      match t.bracket? with
      | some b => ⟨b, t.offset, false⟩ :: delimitersOf ts
      | none => delimitersOf ts

/-- The delimiters of an expression, in order. -/
def delimiters (s : List Char) : List Delimiter :=
  delimitersOf ((tokens s).filter fun t => !t.kind.isTrivia)

/-- What is wrong with the pairing of delimiters. -/
inductive PairingFault where
  | mismatched (left right : Delimiter)
  | unclosed (left : Delimiter)
  | unopened (right : Delimiter)
deriving DecidableEq, Repr

/-- Reads delimiters while `stack` are open, the innermost first. -/
def pairFrom (stack : List Delimiter) : List Delimiter → List PairingFault
  | [] => stack.reverse.map .unclosed
  | d :: ds =>
    if d.bracket.opening then pairFrom (d :: stack) ds
    else
      match stack with
      | [] => .unopened d :: pairFrom [] ds
      | left :: stack =>
        if left.pairs d then pairFrom stack ds else .mismatched left d :: pairFrom stack ds

/-- The faults in the pairing of a list of delimiters. -/
def unpaired (ds : List Delimiter) : List PairingFault := pairFrom [] ds

/-! ## Several lists -/

/-- A check that goes on from one list to the next, with the faults found so far. -/
structure PairingCheck where
  faults : List PairingFault := []
deriving DecidableEq, Repr

namespace PairingCheck

/-- Reads one delimiter, with what is open, the innermost first, and the faults found so far. -/
def read : List Delimiter × List PairingFault → Delimiter → List Delimiter × List PairingFault
  | (stack, faults), d =>
    if d.bracket.opening then (d :: stack, faults)
    else
      match stack with
      | [] => ([], faults ++ [.unopened d])
      | left :: stack => (stack, if left.pairs d then faults else faults ++ [.mismatched left d])

/-- Reads a list to its end. Nothing stays open for the next one. -/
def validate (check : PairingCheck) (ds : List Delimiter) : PairingCheck :=
  let (stack, faults) := ds.foldl read ([], check.faults)
  ⟨faults ++ stack.reverse.map .unclosed⟩

end PairingCheck

end MathMarkup.Tex
