import MathMarkup.Text.Blank

/-!
# Tokens of a LaTeX fragment

`tokens` cuts a fragment into tokens, each the longest of its kind at its place: a command is a
backslash with a run of ASCII letters or with one other character, `\\` is a line break of its own,
a comment runs up to the end of its line, and what nothing else claims is text. Every text has
tokens, however malformed it is. `Token.concat_tokens` says that nothing is lost.
-/

namespace MathMarkup.Tex

open Text

inductive TokenKind where
  | lbrace | rbrace | lbracket | rbracket | lparen | rparen
  /-- `\frac`, `\alpha`, `\%` -/
  | command
  /-- `\\` -/
  | lineBreak
  | dollar | ampersand | caret | underscore
  | whitespace
  /-- `%` up to the end of the line -/
  | comment
  | text
deriving DecidableEq, Repr

/-- Tokens that carry no meaning for the structure of the expression. -/
def TokenKind.isTrivia : TokenKind → Bool
  | .whitespace | .comment => true
  | _ => false

structure Token where
  kind : TokenKind
  text : List Char
  /-- Where the token starts, in bytes. -/
  offset : Nat
deriving DecidableEq, Repr

/-- The letters that command names are made of. -/
def isCommandLetter (c : Char) : Bool := c.isAlpha

/-- Characters that end a text token. -/
def isSpecial : Char → Bool
  | '\\' | '{' | '}' | '[' | ']' | '(' | ')' | '%' | '$' | '&' | '^' | '_' => true
  | _ => false

/-- The kind of a token that is one character long whatever follows it. -/
def TokenKind.ofChar? : Char → Option TokenKind
  | '{' => some .lbrace
  | '}' => some .rbrace
  | '[' => some .lbracket
  | ']' => some .rbracket
  | '(' => some .lparen
  | ')' => some .rparen
  | '$' => some .dollar
  | '&' => some .ampersand
  | '^' => some .caret
  | '_' => some .underscore
  | _ => none

/-- What a backslash makes of the characters after it: a kind, and how many of them it takes. -/
def afterBackslash : List Char → TokenKind × Nat
  | [] => (.text, 0)
  | c :: s =>
    if c = '\\' then (.lineBreak, 1)
    else if isCommandLetter c then (.command, ((c :: s).takeWhile isCommandLetter).length)
    else (.command, 1)

/-- The kind of the token that starts with `c`, and how many characters of `s` belong to it. -/
def munch (c : Char) (s : List Char) : TokenKind × Nat :=
  if c = '\\' then afterBackslash s
  else if c = '%' then (.comment, (s.takeWhile fun n => n != '\n' && n != '\r').length)
  else
    match TokenKind.ofChar? c with
    | some kind => (kind, 0)
    | none =>
      if isBlank c then (.whitespace, (s.takeWhile isBlank).length)
      else (.text, (s.takeWhile fun n => !isSpecial n && !isBlank n).length)

/-- The tokens of a text that starts at byte `offset`. -/
def tokensFrom (offset : Nat) : List Char → List Token
  | [] => []
  | c :: s =>
    let (kind, n) := munch c s
    let text := c :: s.take n
    ⟨kind, text, offset⟩ :: tokensFrom (offset + byteLength text) (s.drop n)
termination_by s => s.length
decreasing_by simp only [List.length_drop, List.length_cons]; omega

/-- The tokens of a text. -/
def tokens (s : List Char) : List Token := tokensFrom 0 s

theorem Token.concat_tokensFrom (offset : Nat) (s : List Char) :
    (tokensFrom offset s).flatMap Token.text = s := by
  fun_induction tokensFrom offset s with
  | case1 => rfl
  | case2 offset c s kind n hm text ih => simp only [List.flatMap_cons, ih]; simp [text]

/-- The texts of the tokens, one after the other, are the text. -/
theorem Token.concat_tokens (s : List Char) : (tokens s).flatMap Token.text = s :=
  Token.concat_tokensFrom 0 s

/-- The name of a command made of letters, such as `frac` for `\frac`. -/
def Token.word? (t : Token) : Option (List Char) :=
  match t.kind, t.text with
  | .command, _ :: c :: name => if (c :: name).all isCommandLetter then some (c :: name) else none
  | _, _ => none

end MathMarkup.Tex
