import MathMarkup.Proofs.Normal.Silence

/-!
# The end of the normal form is read as code

The closing words of a normal form are its last tokens, unless a comment that is open in front of them
swallows them (`isClosed_iff`). Normalizing opens none, so that only a comment of the input can.

Main theorem: `normalize_closing`.
-/

namespace MathMarkup.Tex

open Text

variable {s : List Char}

/-- Text without placeholder characters is normalized without an error. -/
theorem exists_normalizeBody (h : hasMark s = false) : ∃ body, normalizeBody s = .ok body := by
  obtain ⟨aligned, haligned, -⟩ := withCommandsProtected_normalizeLines "line normalizer"
    (hasMark_eq_false_of_subset h (stripDisplay_subset s))
  exact ⟨cosmetic (inFrame aligned), by rw [normalizeBody, haligned]; rfl⟩

/-- What is read of a token: its kind and its text. -/
def Token.reading (t : Token) : TokenKind × List Char := (t.kind, t.text)

/-- What is read does not depend on where the text starts. -/
theorem reading_tokensFrom (offset offset' : Nat) (s : List Char) :
    (tokensFrom offset s).map Token.reading = (tokensFrom offset' s).map Token.reading := by
  fun_induction tokensFrom offset s generalizing offset' with
  | case1 => rw [tokensFrom]
  | case2 offset c s kind k hm text ih =>
    rw [tokensFrom_cons hm, List.map_cons, List.map_cons, ih]
    rfl

/-- The last tokens of a normal form. -/
def closingTokens : List (TokenKind × List Char) :=
  [(.command, "\\end".toList), (.lbrace, ['{']), (.text, "align*".toList), (.rbrace, ['}']), (.command, ['\\', ']'])]

/-- The text ends with the words that close the environment and the display, read as code. -/
def IsClosed (s : List Char) : Prop := closingTokens <:+ (tokens s).map Token.reading

instance (s : List Char) : Decidable (IsClosed s) := inferInstanceAs (Decidable (_ <:+ _))

/-- The closing words are read as code unless a comment is open in front of them. -/
theorem isClosed_iff (s : List Char) : IsClosed (s ++ " \\end\x7balign*\x7d\\]".toList) ↔
    ∀ t ∈ (tokens s).getLast?, t.kind ≠ .comment := by
  have hmode := after_eq_comment_iff 0 s
  constructor
  · intro hclosed t ht hkind
    have hcomment : Mode.plain.after (s ++ " \\end\x7balign*\x7d\\]".toList) = .comment := by
      rw [after_append, hmode.2 ⟨t, ht, hkind⟩]
      decide
    obtain ⟨last, hlast, hlastkind⟩ := (after_eq_comment_iff 0 _).1 hcomment
    obtain ⟨front, hfront⟩ := hclosed
    have hreading := congrArg List.getLast? hfront
    rw [List.getLast?_append, List.getLast?_map, tokens, Option.mem_def.1 hlast] at hreading
    have hcommand : (.command, ['\\', ']']) = last.reading := Option.some.inj hreading
    rw [← show TokenKind.command = last.kind from congrArg Prod.fst hcommand] at hlastkind
    cases hlastkind
  · intro hlast
    have hsettles : Settles [' '] := settles_of_modes (by decide) (by decide)
    have hne : Mode.plain.after s ≠ .comment := fun hcomment => by
      obtain ⟨t, ht, hkind⟩ := hmode.1 hcomment
      exact hlast t ht hkind
    have hplain : Mode.plain.after (s ++ [' ']) = .plain := by
      rw [after_append]
      exact (hsettles _ hne).2
    have hsplit : s ++ " \\end\x7balign*\x7d\\]".toList = s ++ [' '] ++ '\\' :: "end\x7balign*\x7d\\]".toList := by simp
    have hclosing : (tokensFrom 0 ('\\' :: "end\x7balign*\x7d\\]".toList)).map Token.reading = closingTokens := by
      decide +kernel
    rw [IsClosed, tokens, hsplit, tokensFrom_append_slash hplain, List.map_append, ← hclosing,
      reading_tokensFrom (0 + byteLength (s ++ [' '])) 0]
    exact List.suffix_append _ _

/-- **The closing words are read as code** unless the input comments them out. For every configuration and
every expression that is normalized without an error: the normal form is one display with one environment
around the rows, and its last tokens are the closing words exactly when no comment is open in front of
them. No comment is when the bare expression has none. -/
theorem normalize_closing (config : Config) (raw : List Char) {body : List Char}
    (h : normalizeBody (if config.sanitize then sanitize raw else raw) = .ok body) :
    ∃ t, (normalize config raw).normalized =
        "\\[\\begin\x7balign*\x7d ".toList ++ t ++ " \\end\x7balign*\x7d\\]".toList ∧
      (IsClosed (normalize config raw).normalized ↔
        ∀ token ∈ (tokens ("\\[\\begin\x7balign*\x7d ".toList ++ t)).getLast?, token.kind ≠ .comment) ∧
      ((∀ token ∈ tokens (stripDisplay (if config.sanitize then sanitize raw else raw)), token.kind ≠ .comment) →
        IsClosed (normalize config raw).normalized) := by
  obtain ⟨t, rfl, hsilent⟩ := exists_of_normalizeBody h
  have hnormal : (normalize config raw).normalized =
      "\\[\\begin\x7balign*\x7d ".toList ++ t ++ " \\end\x7balign*\x7d\\]".toList := by
    rw [normalize]
    simp only [h]
    simp [wrapDisplay, inFrame, alignOpening, alignClosing]
  have hclosed := isClosed_iff ("\\[\\begin\x7balign*\x7d ".toList ++ t)
  rw [← hnormal] at hclosed
  generalize stripDisplay (if config.sanitize then sanitize raw else raw) = bare at hsilent ⊢
  refine ⟨t, hnormal, hclosed, fun hcomments => hclosed.2 fun token htoken hkind => ?_⟩
  have hcomment := (after_eq_comment_iff 0 _).2 ⟨token, htoken, hkind⟩
  have hbare := hsilent (silent_of_tokensFrom hcomments)
  have hopening : "\\[\\begin\x7balign*\x7d ".toList ++ t = ['\\', '['] ++ (alignOpening ++ t) := by
    simp [alignOpening]
  rw [inFrame, silent_append] at hbare
  rw [hopening, after_append] at hcomment
  exact hbare.1.after_ne_comment hcomment

/-- An escaped percent sign in a group that is not closed, and a backslash at the end. -/
theorem normalize_closing_escaped :
    ∃ t, (normalize {} "\x7b5\\%\\\\x\\".toList).normalized =
        "\\[\\begin\x7balign*\x7d ".toList ++ t ++ " \\end\x7balign*\x7d\\]".toList ∧
      IsClosed (normalize {} "\x7b5\\%\\\\x\\".toList).normalized := by
  obtain ⟨body, hbody⟩ := exists_normalizeBody (s := sanitize "\x7b5\\%\\\\x\\".toList) (by decide +kernel)
  obtain ⟨t, hnormal, -, hclosed⟩ := normalize_closing {} "\x7b5\\%\\\\x\\".toList hbody
  exact ⟨t, hnormal, hclosed (by decide +kernel)⟩

/-- A comment at the end of the expression swallows the closing words. -/
theorem normalize_unclosed : (∃ body, normalizeBody (sanitize "x%c".toList) = .ok body) ∧
    ¬ IsClosed (normalize {} "x%c".toList).normalized :=
  ⟨exists_normalizeBody (by decide +kernel), by decide +kernel⟩

end MathMarkup.Tex
