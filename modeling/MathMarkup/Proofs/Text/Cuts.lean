import MathMarkup.Proofs.Normal.Modes

/-!
# A text is cut into tokens in one way

`TokenKind.Fits` says what the text of a token of each kind looks like in front of what follows it; runs
end only where the next character does not belong to them. The lexer takes such a token (`fits_munch`), and there
is no other one at its place (`munch_of_fits`).

Main theorem `isCut_iff_eq_tokens`: the tokens of a text are its only cut into non-empty tokens that fit.
-/

namespace MathMarkup.Tex

open Text

variable {offset k : Nat} {kind : TokenKind} {c : Char} {s rest : List Char} {t : Token} {ts : List Token}

/-! ## Tokens that fit -/

/-- All of `s` belongs to the class, and what follows starts with no character of it. -/
structure IsLongestRun (p : Char → Bool) (s rest : List Char) : Prop where
  all : ∀ c ∈ s, p c = true
  ends : ∀ c ∈ rest.head?, p c = false

/-- What the text of a token of this kind is, when `rest` follows. -/
def TokenKind.Fits (text rest : List Char) : TokenKind → Prop
  | .lbrace => text = ['{']
  | .rbrace => text = ['}']
  | .lbracket => text = ['[']
  | .rbracket => text = [']']
  | .lparen => text = ['(']
  | .rparen => text = [')']
  | .dollar => text = ['$']
  | .ampersand => text = ['&']
  | .caret => text = ['^']
  | .underscore => text = ['_']
  | .lineBreak => text = ['\\', '\\']
  | .command =>
    (∃ name, text = '\\' :: name ∧ name ≠ [] ∧ IsLongestRun isCommandLetter name rest) ∨
      ∃ c, text = ['\\', c] ∧ c ≠ '\\' ∧ isCommandLetter c = false
  | .comment => ∃ line, text = '%' :: line ∧ IsLongestRun (fun c => c != '\n' && c != '\r') line rest
  | .whitespace => text ≠ [] ∧ IsLongestRun isBlank text rest
  | .text =>
    (text ≠ [] ∧ IsLongestRun (fun c => !isSpecial c && !isBlank c) text rest) ∨ (text = ['\\'] ∧ rest = [])

/-- The tokens make up a text that starts at byte `offset`: nothing is lost, each token tells where it
starts, and each fits in front of what follows it. -/
structure IsCut (offset : Nat) (s : List Char) (ts : List Token) : Prop where
  concat : ts.flatMap Token.text = s
  nonempty : ∀ t ∈ ts, t.text ≠ []
  offset : ∀ before t after, ts = before ++ t :: after →
    t.offset = offset + byteLength (before.flatMap Token.text)
  fits : ∀ before t after, ts = before ++ t :: after → t.kind.Fits t.text (after.flatMap Token.text)

theorem isLongestRun_takeWhile (p : Char → Bool) (s : List Char) :
    IsLongestRun p (s.takeWhile p) (s.dropWhile p) :=
  ⟨fun _ hc => List.mem_takeWhile_imp hc, fun _ hc => eq_false_of_mem_head?_dropWhile hc⟩

theorem IsLongestRun.takeWhile_append {p : Char → Bool} (h : IsLongestRun p s rest) :
    (s ++ rest).takeWhile p = s := (takeWhile_append_of_head h.all h.ends).1

/-- A run with its first character, which the class holds too. -/
theorem isLongestRun_cons {p : Char → Bool} (hc : p c = true) (s : List Char) :
    IsLongestRun p (c :: s.take (s.takeWhile p).length) (s.drop (s.takeWhile p).length) := by
  have hrun := isLongestRun_takeWhile p s
  rw [take_length_takeWhile, drop_length_takeWhile]
  exact ⟨List.forall_mem_cons.2 ⟨hc, hrun.all⟩, hrun.ends⟩

/-! ## The lexer takes a token that fits -/

theorem fits_of_ofChar? (h : TokenKind.ofChar? c = some kind) (rest : List Char) : kind.Fits [c] rest := by
  unfold TokenKind.ofChar? at h
  split at h
  all_goals first | (cases h; rfl) | cases h

theorem fits_afterBackslash (h : afterBackslash s = (kind, k)) : kind.Fits ('\\' :: s.take k) (s.drop k) := by
  unfold afterBackslash at h
  split at h
  · cases h
    exact Or.inr ⟨rfl, rfl⟩
  · rename_i c s
    split at h
    · rename_i hslash
      cases h
      rw [hslash]
      rfl
    rename_i hslash
    split at h
    · rename_i hletter
      cases h
      rw [take_length_takeWhile, drop_length_takeWhile]
      refine Or.inl ⟨_, rfl, ?_, isLongestRun_takeWhile isCommandLetter (c :: s)⟩
      rw [List.takeWhile_cons_of_pos hletter]
      exact List.cons_ne_nil _ _
    · rename_i hletter
      cases h
      exact Or.inr ⟨c, rfl, hslash, by simpa using hletter⟩

/-- What the lexer takes fits in front of what it leaves. -/
theorem fits_munch (h : munch c s = (kind, k)) : kind.Fits (c :: s.take k) (s.drop k) := by
  unfold munch at h
  split at h
  · rename_i hslash
    rw [hslash]
    exact fits_afterBackslash h
  rename_i hslash
  split at h
  · rename_i hpercent
    cases h
    rw [hpercent, take_length_takeWhile, drop_length_takeWhile]
    exact ⟨_, rfl, isLongestRun_takeWhile _ s⟩
  rename_i hpercent
  split at h
  · rename_i single hsingle
    cases h
    exact fits_of_ofChar? hsingle s
  rename_i hnone
  split at h
  · rename_i hblank
    cases h
    exact ⟨List.cons_ne_nil _ _, isLongestRun_cons hblank s⟩
  · rename_i hblank
    cases h
    refine Or.inl ⟨List.cons_ne_nil _ _, isLongestRun_cons ?_ s⟩
    rw [not_isSpecial_iff.2 ⟨hslash, hpercent, hnone⟩]
    simpa using hblank

/-! ## No other token fits -/

theorem munch_of_ofChar? (h : TokenKind.ofChar? c = some kind) (s : List Char) : munch c s = (kind, 0) := by
  have hslash : c ≠ '\\' := by
    rintro rfl
    cases h
  have hpercent : c ≠ '%' := by
    rintro rfl
    cases h
  rw [munch, if_neg hslash, if_neg hpercent, h]

/-- A class whose members all start a token of one kind, made of members only, is munched as a run. -/
theorem munch_of_isLongestRun {p : Char → Bool} (hmunch : ∀ c s, p c = true → munch c s = (kind, (s.takeWhile p).length))
    (h : IsLongestRun p (c :: s) rest) : munch c (s ++ rest) = (kind, s.length) := by
  obtain ⟨hc, hs⟩ := List.forall_mem_cons.1 h.all
  have hrun : IsLongestRun p s rest := ⟨hs, h.ends⟩
  rw [hmunch c _ hc, hrun.takeWhile_append]

/-- Where a token fits, the lexer takes it. -/
theorem munch_of_fits (h : kind.Fits (c :: s) rest) : munch c (s ++ rest) = (kind, s.length) := by
  have hsingle : ∀ d, TokenKind.ofChar? d = some kind → c :: s = [d] → munch c (s ++ rest) = (kind, s.length) := by
    intro d hd hcs
    obtain ⟨rfl, rfl⟩ := List.cons.inj hcs
    exact munch_of_ofChar? hd _
  cases kind with
  | lbrace => exact hsingle '{' rfl h
  | rbrace => exact hsingle '}' rfl h
  | lbracket => exact hsingle '[' rfl h
  | rbracket => exact hsingle ']' rfl h
  | lparen => exact hsingle '(' rfl h
  | rparen => exact hsingle ')' rfl h
  | dollar => exact hsingle '$' rfl h
  | ampersand => exact hsingle '&' rfl h
  | caret => exact hsingle '^' rfl h
  | underscore => exact hsingle '_' rfl h
  | lineBreak =>
    obtain ⟨rfl, rfl⟩ := List.cons.inj h
    rfl
  | command =>
    rcases h with ⟨name, hcs, hne, hrun⟩ | ⟨d, hcs, hslash, hletter⟩
    · obtain ⟨rfl, rfl⟩ := List.cons.inj hcs
      exact munch_word hne hrun.all hrun.ends
    · obtain ⟨rfl, rfl⟩ := List.cons.inj hcs
      simp [munch, afterBackslash, hslash, hletter]
  | comment =>
    obtain ⟨line, hcs, hrun⟩ := h
    obtain ⟨rfl, rfl⟩ := List.cons.inj hcs
    exact congrArg (fun run => (TokenKind.comment, List.length run)) hrun.takeWhile_append
  | whitespace => exact munch_of_isLongestRun (fun c s hc => munch_blank hc s) h.2
  | text =>
    rcases h with ⟨-, hrun⟩ | ⟨hcs, rfl⟩
    · exact munch_of_isLongestRun (fun c s hc => munch_text hc s) hrun
    · obtain ⟨rfl, rfl⟩ := List.cons.inj hcs
      rfl

/-! ## Cuts -/

/-- A cut is a token that fits and a cut of the rest. -/
theorem isCut_cons : IsCut offset s (t :: ts) ↔ ∃ rest, s = t.text ++ rest ∧ t.text ≠ [] ∧ t.offset = offset ∧
    t.kind.Fits t.text rest ∧ IsCut (offset + byteLength t.text) rest ts := by
  constructor
  · intro h
    refine ⟨ts.flatMap Token.text, h.concat.symm, h.nonempty t List.mem_cons_self, ?_, h.fits [] t ts rfl, rfl,
      fun u hu => h.nonempty u (List.mem_cons_of_mem t hu), fun before u after hsplit => ?_,
      fun before u after hsplit => ?_⟩
    · simpa using h.offset [] t ts rfl
    · rw [h.offset (t :: before) u after (by rw [hsplit]; rfl), List.flatMap_cons, byteLength_append, Nat.add_assoc]
    · exact h.fits (t :: before) u after (by rw [hsplit]; rfl)
  · rintro ⟨rest, rfl, hne, hoffset, hfits, hcut⟩
    refine ⟨by rw [List.flatMap_cons, hcut.concat], List.forall_mem_cons.2 ⟨hne, hcut.nonempty⟩,
      fun before u after hsplit => ?_, fun before u after hsplit => ?_⟩
    · cases before with
      | nil =>
        obtain ⟨rfl, rfl⟩ := List.cons.inj hsplit
        simpa using hoffset
      | cons first before =>
        obtain ⟨rfl, htail⟩ := List.cons.inj hsplit
        rw [hcut.offset before u after htail, List.flatMap_cons, byteLength_append, Nat.add_assoc]
    · cases before with
      | nil =>
        obtain ⟨rfl, rfl⟩ := List.cons.inj hsplit
        rw [hcut.concat]
        exact hfits
      | cons first before =>
        obtain ⟨rfl, htail⟩ := List.cons.inj hsplit
        exact hcut.fits before u after htail

theorem isCut_tokensFrom (offset : Nat) (s : List Char) : IsCut offset s (tokensFrom offset s) := by
  fun_induction tokensFrom offset s with
  | case1 => exact ⟨rfl, by simp, fun _ _ _ h => by simp at h, fun _ _ _ h => by simp at h⟩
  | case2 offset c s kind k hm text ih =>
    exact isCut_cons.2 ⟨s.drop k, by simp [text], List.cons_ne_nil _ _, rfl, fits_munch hm, ih⟩

theorem IsCut.eq_tokensFrom (h : IsCut offset s ts) : ts = tokensFrom offset s := by
  induction ts generalizing offset s with
  | nil =>
    obtain rfl : s = [] := h.concat.symm
    simp [tokensFrom]
  | cons t ts ih =>
    obtain ⟨rest, rfl, hne, rfl, hfits, hcut⟩ := isCut_cons.1 h
    obtain ⟨kind, text, start⟩ := t
    obtain ⟨c, w, rfl⟩ := List.exists_cons_of_ne_nil hne
    rw [List.cons_append, tokensFrom_cons (munch_of_fits hfits), ih hcut]
    simp

/-- **The tokens of a text** are its only cut into non-empty tokens whose texts, one after the other, are the
text, which tell the bytes in front of them, and of which each fits in front of what follows it. -/
theorem isCut_iff_eq_tokens (s : List Char) (ts : List Token) : IsCut 0 s ts ↔ ts = tokens s := by
  constructor
  · exact IsCut.eq_tokensFrom
  · rintro rfl
    exact isCut_tokensFrom 0 s

end MathMarkup.Tex
