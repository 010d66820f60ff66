import MathMarkup.Tex.Span
import MathMarkup.Text.Quoted

/-!
# Placeholders for command spans

A change of the line structure must not touch the inside of a command such as `\text{a \\ b}`.
`Placeholders.protect` swaps each command span for a token made of two private-use characters around
its number, `Placeholders.restore` puts the spans back, and `withCommandsProtected` runs a pass over
the lines in between: the result is restored text or an error, never a token.
-/

namespace MathMarkup.Tex

open Text

/-- Opens a placeholder token. -/
def openMark : Char := '\ue000'

/-- Closes a placeholder token. -/
def closeMark : Char := '\ue001'

/-- The token that stands for span number `n`. -/
def placeholder (n : Nat) : List Char := openMark :: Nat.toDigits 10 n ++ [closeMark]

/-! ## Command spans -/

/-- The brace groups at the start of the text, and the text after them. -/
def splitGroups (s : List Char) : List (List Char) × List Char :=
  match _h : splitGroup? s with
  | none => ([], s)
  | some (group, rest) =>
    let (groups, rest) := splitGroups rest
    (group :: groups, rest)
termination_by s.length
decreasing_by
  obtain ⟨rfl, hne⟩ := append_of_splitGroup? _h
  have := List.length_pos_iff.2 hne
  simp only [List.length_append]
  omega

/-- The command that opens an environment. -/
def beginCommand : List Char := ['\\', 'b', 'e', 'g', 'i', 'n']

/-- What belongs to a command besides its name: the brace groups right behind it, and for the opening
of an environment everything up to its end, when it has one. -/
def commandTail (command rest : List Char) : List Char :=
  let (groups, after) := splitGroups rest
  match groups with
  | [] => []
  | group :: _ =>
    if command = beginCommand then
      match splitEnvironment? (groupBody group) after with
      | some (body, _) => groups.flatten ++ body
      | none => groups.flatten
    else groups.flatten

/-- Is this token text a backslash and letters? -/
def isWordCommand (kind : TokenKind) (text : List Char) : Bool :=
  kind == .command && 1 < text.length && text.tail.all isCommandLetter

/-! ## The map -/

/-- The spans that tokens stand for, by their numbers. -/
structure Placeholders where
  spans : List (List Char)
deriving DecidableEq, Repr

namespace Placeholders

def empty : Placeholders := ⟨[]⟩

def size (p : Placeholders) : Nat := p.spans.length

def isEmpty (p : Placeholders) : Bool := p.spans.isEmpty

/-- Walks over the tokens of `s`: the new spans in order, numbered from `n`, and the text with a token
in place of each. The first `covered` characters belong to the span before and are left out. -/
def protectFrom (n covered : Nat) : List Char → List (List Char) × List Char
  | [] => ([], [])
  | c :: s =>
    let (kind, k) := munch c s
    let token := c :: s.take k
    if 0 < covered then
      let (spans, out) := protectFrom n (covered - (k + 1)) (s.drop k)
      (spans, token.drop covered ++ out)
    else if isWordCommand kind token then
      let tail := commandTail token (s.drop k)
      let (spans, out) := protectFrom (n + 1) tail.length (s.drop k)
      ((token ++ tail) :: spans, placeholder n ++ out)
    else
      let (spans, out) := protectFrom n 0 (s.drop k)
      (spans, token ++ out)
termination_by s => s.length
decreasing_by all_goals simp only [List.length_drop, List.length_cons]; omega

/-- Replaces every command span by a fresh token. -/
def protect (p : Placeholders) (s : List Char) : Placeholders × List Char :=
  let (spans, out) := protectFrom p.size 0 s
  (⟨p.spans ++ spans⟩, out)

/-- The tokens with their spans, in order. -/
def entries (p : Placeholders) : List (List Char × List Char) :=
  p.spans.zipIdx.map fun (span, n) => (placeholder n, span)

/-- Puts the spans back, the first one first. -/
def restore (p : Placeholders) (s : List Char) : List Char :=
  p.entries.foldl (fun s (token, span) => replaceAll token span s) s

/-- The first span whose token does not occur in the text. -/
def firstMissing? (p : Placeholders) (s : List Char) : Option (List Char) :=
  (p.entries.find? fun (token, _) => !contains token s).map (·.2)

end Placeholders

/-! ## Protected passes -/

/-- Why a stage of the pipeline failed. -/
inductive StageCause where
  /-- The token of this span is gone. -/
  | dropped (span : List Char)
  /-- A placeholder character is left over. -/
  | leaked
  /-- The pass gave up. -/
  | gaveUp (message : String)
deriving DecidableEq, Repr

structure StageError where
  stage : String
  cause : StageCause
deriving DecidableEq, Repr

def StageError.message (e : StageError) : String :=
  e.stage ++ ": " ++
    match e.cause with
    | .dropped span =>
      "placeholder for " ++ String.ofList (quoted span) ++ " was lost during rewriting"
    | .leaked => "placeholder text survived restoration"
    | .gaveUp message => message

/-- Does the text hold a placeholder character? -/
def hasMark (s : List Char) : Bool := s.any fun c => c == openMark || c == closeMark

theorem hasMark_cons (c : Char) (s : List Char) :
    hasMark (c :: s) = ((c == openMark || c == closeMark) || hasMark s) := rfl

theorem hasMark_append (s t : List Char) : hasMark (s ++ t) = (hasMark s || hasMark t) := List.any_append

theorem hasMark_eq_false_of_subset {s t : List Char} (h : hasMark s = false) (hts : t ⊆ s) : hasMark t = false := by
  rw [hasMark, List.any_eq_false] at h ⊢
  exact fun c hc => h c (hts hc)

/-- Runs `pass` on the text with a token in place of each command span, and restores its result. -/
def withCommandsProtected (stage : String) (s : List Char)
    (pass : List Char → Except StageError (List Char)) : Except StageError (List Char) := do
  let (p, guarded) := Placeholders.empty.protect s
  let changed ← pass guarded
  match p.firstMissing? changed with
  | some span => throw ⟨stage, .dropped span⟩
  | none =>
    let restored := p.restore changed
    if hasMark restored then throw ⟨stage, .leaked⟩ else return restored

end MathMarkup.Tex
