import MathMarkup.Proofs.Text.Search
import MathMarkup.Proofs.Text.Slices
import MathMarkup.Tex.Token

/-!
# Tokens and where they start

A token is cut off at the place that its offset tells (`exists_munch_of_mem_tokensFrom`), and its word is
the run of letters behind the backslash there (`word?_munch`).
-/

namespace MathMarkup.Tex

open Text

variable {offset k : Nat} {kind : TokenKind} {c : Char} {s name : List Char} {token : Token}

/-! ## Tokens -/

theorem tokensFrom_cons (h : munch c s = (kind, k)) :
    tokensFrom offset (c :: s) = ⟨kind, c :: s.take k, offset⟩ ::
      tokensFrom (offset + byteLength (c :: s.take k)) (s.drop k) := by
  rw [tokensFrom, h]

theorem offset_le_of_mem_tokensFrom (ht : token ∈ tokensFrom offset s) : offset ≤ token.offset := by
  fun_induction tokensFrom offset s with
  | case1 => cases ht
  | case2 offset c s kind k hm text ih =>
    rcases List.mem_cons.1 ht with rfl | ht
    · exact Nat.le_refl _
    · have := ih ht
      omega

/-- A token is what is cut off at its place. -/
theorem exists_munch_of_mem_tokensFrom (ht : token ∈ tokensFrom offset s) :
    ∃ a c b k, s = a ++ c :: b ∧ token.offset = offset + byteLength a ∧ munch c b = (token.kind, k) ∧
      token.text = c :: b.take k := by
  fun_induction tokensFrom offset s with
  | case1 => cases ht
  | case2 offset c s kind k hm text ih =>
    rcases List.mem_cons.1 ht with rfl | ht
    · exact ⟨[], c, s, k, rfl, rfl, hm, rfl⟩
    · obtain ⟨a, d, b, m, hs, hoffset, hmunch, htext⟩ := ih ht
      refine ⟨c :: s.take k ++ a, d, b, m, ?_, ?_, hmunch, htext⟩
      · rw [List.append_assoc, ← hs]
        simp
      · rw [hoffset, byteLength_append, Nat.add_assoc]

/-! ## Words -/

/-- Only a backslash starts a command. -/
theorem eq_slash_of_munch (h : munch c s = (.command, k)) : c = '\\' := by
  have hone : TokenKind.ofChar? c ≠ some .command := by
    unfold TokenKind.ofChar?
    split <;> simp
  rw [munch] at h
  split at h
  · assumption
  · split at h
    · cases h
    · split at h
      · rename_i kind hkind
        obtain ⟨rfl, -⟩ := Prod.mk.inj h
        exact absurd hkind hone
      · split at h <;> cases h

/-- A backslash takes the letters behind it. -/
theorem munch_slash_letter (hc : isCommandLetter c = true) (s : List Char) :
    munch '\\' (c :: s) = (.command, ((c :: s).takeWhile isCommandLetter).length) := by
  have hslash : c ≠ '\\' := by
    rintro rfl
    cases hc
  rw [munch, if_pos rfl, afterBackslash, if_neg hslash, if_pos hc]

/-- The word of a token is the run of letters behind its backslash. -/
theorem word?_munch (h : munch c s = (kind, k)) (offset : Nat) :
    (Token.mk kind (c :: s.take k) offset).word? = some name ↔
      c = '\\' ∧ name ≠ [] ∧ s.takeWhile isCommandLetter = name := by
  have hword : ∀ d t, c = '\\' → s = d :: t → isCommandLetter d = true →
      (Token.mk kind (c :: s.take k) offset).word? = some (s.takeWhile isCommandLetter) := by
    rintro d t rfl rfl hd
    rw [munch_slash_letter hd, Prod.mk.injEq] at h
    obtain ⟨rfl, rfl⟩ := h
    have hletters : ((d :: t).takeWhile isCommandLetter).all isCommandLetter = true := List.all_takeWhile
    rw [take_length_takeWhile, Token.word?]
    rw [List.takeWhile_cons_of_pos hd] at hletters ⊢
    exact if_pos hletters
  constructor
  · intro hname
    have hstart : ∃ d t, c = '\\' ∧ s = d :: t ∧ isCommandLetter d = true := by
      rw [Token.word?] at hname
      split at hname
      · rename_i d rest hkind htext
        obtain rfl : kind = .command := hkind
        obtain ⟨e, t, rfl⟩ : ∃ e t, s = e :: t := by
          cases s with
          | nil => simp at htext
          | cons e t => exact ⟨e, t, rfl⟩
        obtain ⟨m, rfl⟩ : ∃ m, k = m + 1 := by
          cases k with
          | zero => simp at htext
          | succ m => exact ⟨m, rfl⟩
        simp only [List.take_succ_cons, List.cons.injEq] at htext
        split at hname
        · rename_i hall
          exact ⟨e, t, eq_slash_of_munch h, rfl, htext.2.1 ▸ List.all_eq_true.1 hall d List.mem_cons_self⟩
        · cases hname
      · cases hname
    obtain ⟨d, t, hslash, hs, hd⟩ := hstart
    rw [hword d t hslash hs hd, Option.some.injEq] at hname
    refine ⟨hslash, ?_, hname⟩
    rw [← hname, hs, List.takeWhile_cons_of_pos hd]
    exact List.cons_ne_nil _ _
  · rintro ⟨rfl, hne, rfl⟩
    cases s with
    | nil => exact absurd rfl hne
    | cons d t =>
      by_cases hd : isCommandLetter d = true
      · exact hword d t rfl rfl hd
      · exact absurd (List.takeWhile_cons_of_neg hd) hne

end MathMarkup.Tex
