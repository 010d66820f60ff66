import MathMarkup.Proofs.Normal.Modes
import MathMarkup.Proofs.Text.Cuts

/-!
# Tokens by the places where they start

A token starts where a character is read as it stands, and the other such places are inside runs of
characters that mean nothing. So what is looked for at special characters is found along the tokens of a
text exactly where it is found at these places (`filterMap_withRest`), and in two texts, one behind the
other, it is found in each of them in its mode (`filterMap_places_append`).
-/

namespace MathMarkup.Tex

open Text

variable {α : Type} {f : List Char → Option α} {m : Mode} {kind : TokenKind} {offset k : Nat} {c : Char}
variable {s t : List Char}

/-! ## Places -/

/-- The places where a character is read as it stands, each with the text from there on. -/
def Mode.places : Mode → List Char → List (List Char)
  | _, [] => []
  | m, c :: s => if m = .plain then (c :: s) :: (m.next c).places s else (m.next c).places s

@[simp] theorem places_plain_cons (c : Char) (s : List Char) :
    Mode.plain.places (c :: s) = (c :: s) :: (Mode.plain.next c).places s := rfl

@[simp] theorem places_comment_cons (c : Char) (s : List Char) :
    Mode.comment.places (c :: s) = (Mode.comment.next c).places s := rfl

theorem ne_nil_of_mem_places (h : s ∈ m.places t) : s ≠ [] := by
  induction t generalizing m with
  | nil => cases h
  | cons c t ih =>
    rw [Mode.places] at h
    split at h
    · rcases List.mem_cons.1 h with rfl | h
      · exact List.cons_ne_nil c t
      · exact ih h
    · exact ih h

/-- What is found in a text and the text behind it, when nothing is found across the cut. -/
theorem filterMap_places_append (hf : ∀ x, x ≠ [] → f (x ++ t) = f x) (m : Mode) (s : List Char) :
    (m.places (s ++ t)).filterMap f = (m.places s).filterMap f ++ ((m.after s).places t).filterMap f := by
  induction s generalizing m with
  | nil => rfl
  | cons c s ih =>
    rw [List.cons_append, Mode.places, Mode.places, after_cons]
    split
    · rw [List.filterMap_cons, List.filterMap_cons, ← List.cons_append, hf (c :: s) (List.cons_ne_nil c s), ih]
      cases f (c :: s) <;> rfl
    · rw [ih]

/-- A place is a place in the text. -/
theorem suffix_of_mem_places (h : s ∈ m.places t) : s <:+ t := by
  induction t generalizing m with
  | nil => cases h
  | cons c t ih =>
    rw [Mode.places] at h
    split at h
    · rcases List.mem_cons.1 h with rfl | h
      · exact List.suffix_rfl
      · exact (ih h).trans (List.suffix_cons c t)
    · exact (ih h).trans (List.suffix_cons c t)

/-- There are none in a comment. -/
theorem places_comment (hs : ∀ c ∈ s, isInLine c = true) (t : List Char) :
    Mode.comment.places (s ++ t) = Mode.comment.places t := by
  induction s with
  | nil => rfl
  | cons c s ih =>
    obtain ⟨hc, hs⟩ := List.forall_mem_cons.1 hs
    have hnext : Mode.comment.next c = .comment := after_comment (List.forall_mem_singleton.2 hc)
    rw [List.cons_append, places_comment_cons, hnext, ih hs]

/-! ## What is found at special characters -/

theorem not_isSpecial_of_isCommandLetter (hc : isCommandLetter c = true) : isSpecial c = false := by
  unfold isSpecial
  split <;> first | rfl | cases hc

theorem next_plain_of_not_isSpecial (hc : isSpecial c = false) : Mode.plain.next c = .plain := by
  obtain ⟨hslash, hpercent, -⟩ := not_isSpecial_iff.1 hc
  exact next_eq_plain hslash hpercent Mode.noConfusion

section Special

variable (hf : ∀ c s, isSpecial c = false → f (c :: s) = none)
include hf

theorem filterMap_places_cons (hc : isSpecial c = false) (s : List Char) :
    (Mode.plain.places (c :: s)).filterMap f = (Mode.plain.places s).filterMap f := by
  rw [places_plain_cons, List.filterMap_cons_none (hf c s hc), next_plain_of_not_isSpecial hc]

/-- In a run of characters that mean nothing nothing is found. -/
theorem filterMap_places_run (hs : ∀ c ∈ s, isSpecial c = false) (t : List Char) :
    (Mode.plain.places (s ++ t)).filterMap f = (Mode.plain.places t).filterMap f := by
  induction s with
  | nil => rfl
  | cons c s ih =>
    obtain ⟨hc, hs⟩ := List.forall_mem_cons.1 hs
    rw [List.cons_append, filterMap_places_cons hf hc, ih hs]

/-- What ends a comment means nothing itself. -/
theorem filterMap_places_comment (hs : ∀ c ∈ s.head?, isInLine c = false) :
    (Mode.comment.places s).filterMap f = (Mode.plain.places s).filterMap f := by
  cases s with
  | nil => rfl
  | cons c s =>
    have hc := hs c rfl
    simp only [isInLine, Bool.and_eq_false_iff, bne_eq_false_iff_eq] at hc
    rcases hc with rfl | rfl
    · exact (filterMap_places_cons hf (by decide) s).symm
    · exact (filterMap_places_cons hf (by decide) s).symm

end Special

/-- Behind the first character of a token that is no command and no comment, its characters mean nothing. -/
theorem not_isSpecial_of_munch (h : munch c s = (kind, k)) (hslash : c ≠ '\\') (hpercent : c ≠ '%') :
    ∀ d ∈ s.take k, isSpecial d = false := by
  rcases munch_cases hslash hpercent with ⟨one, -, hmunch⟩ | ⟨-, p, run, -, hc, hrun⟩
  · obtain ⟨-, rfl⟩ := Prod.mk.inj ((hmunch s).symm.trans h)
    simp
  · obtain ⟨-, rfl⟩ := Prod.mk.inj (((hrun c hc).2 s).symm.trans h)
    rw [take_length_takeWhile]
    exact fun d hd => (hrun d (List.mem_takeWhile_imp hd)).1

/-- **Along the first token** something is found only where it starts. -/
theorem filterMap_places_munch (hf : ∀ c s, isSpecial c = false → f (c :: s) = none) (h : munch c s = (kind, k)) :
    (Mode.plain.places (c :: s)).filterMap f = (f (c :: s)).toList ++ (Mode.plain.places (s.drop k)).filterMap f := by
  have hfirst : (Mode.plain.places (c :: s)).filterMap f =
      (f (c :: s)).toList ++ ((Mode.plain.next c).places s).filterMap f := by
    rw [places_plain_cons, List.filterMap_cons]
    cases f (c :: s) <;> rfl
  rw [hfirst]
  refine congrArg _ ?_
  by_cases hslash : c = '\\'
  · subst hslash
    rcases (munch_slash_cases h).2 with ⟨rfl, rfl⟩ | ⟨d, t, rfl, -, rfl⟩ | ⟨name, t, rfl, hname, rfl⟩
    · rfl
    · rfl
    · obtain ⟨d, name, rfl⟩ := List.exists_cons_of_ne_nil hname.ne_nil
      have hletters : ∀ e ∈ name, isSpecial e = false := fun e he =>
        not_isSpecial_of_isCommandLetter (hname.letters e (List.mem_cons_of_mem d he))
      rw [List.drop_left]
      exact filterMap_places_run hf hletters t
  by_cases hpercent : c = '%'
  · subst hpercent
    have hcomment := after_comment_token h
    obtain ⟨-, rfl⟩ := Prod.mk.inj ((munch_percent s).symm.trans h)
    have hline : ∀ d ∈ s.takeWhile isInLine, isInLine d = true := fun d hd =>
      List.mem_takeWhile_imp hd
    rw [drop_length_takeWhile] at hcomment ⊢
    rw [← filterMap_places_comment hf hcomment.2, ← places_comment hline, List.takeWhile_append_dropWhile]
    rfl
  · rw [next_eq_plain hslash hpercent Mode.noConfusion]
    conv => lhs; rw [← List.take_append_drop k s]
    exact filterMap_places_run hf (not_isSpecial_of_munch h hslash hpercent) _

/-! ## Along the tokens -/

/-- The tokens, each with the text behind it. -/
def withRest : List Token → List (Token × List Char)
  | [] => []
  | t :: ts => (t, ts.flatMap Token.text) :: withRest ts

theorem map_fst_withRest (ts : List Token) : (withRest ts).map Prod.fst = ts := by
  induction ts with
  | nil => rfl
  | cons t ts ih => rw [withRest, List.map_cons, ih]

/-- **Along the tokens of a text** is found what is found at the places where a character is read as it
stands, when what is found at a token depends on the text from there on, which starts with a special
character. -/
theorem filterMap_withRest {g : Token × List Char → Option α} (hf : ∀ c s, isSpecial c = false → f (c :: s) = none)
    (hg : ∀ offset c s kind k, munch c s = (kind, k) → g (⟨kind, c :: s.take k, offset⟩, s.drop k) = f (c :: s)) :
    (withRest (tokens s)).filterMap g = (Mode.plain.places s).filterMap f := by
  have hfrom : ∀ offset s, (withRest (tokensFrom offset s)).filterMap g = (Mode.plain.places s).filterMap f := by
    intro offset s
    fun_induction tokensFrom offset s with
    | case1 => rfl
    | case2 offset c s kind k hm text ih =>
      rw [withRest, Token.concat_tokensFrom, List.filterMap_cons, hg offset c s kind k hm, ih,
        filterMap_places_munch hf hm]
      cases f (c :: s) <;> rfl
  exact hfrom 0 s

/-- A text has no comment tokens exactly if it is read without comments. -/
theorem silent_iff_tokens : Mode.plain.Silent s ↔ ∀ t ∈ tokens s, t.kind ≠ .comment := by
  refine ⟨?_, silent_of_tokensFrom⟩
  rw [tokens]
  fun_induction tokensFrom 0 s with
  | case1 => simp
  | case2 offset c s kind k hm text ih =>
    intro h
    have hkind : kind ≠ .comment := by
      intro hcomment
      obtain rfl := (munch_comment_iff hm).1 hcomment
      exact absurd rfl h.2.ne_comment
    have hs : c :: s = text ++ s.drop k := by simp [text]
    rw [hs, silent_append] at h
    refine List.forall_mem_cons.2 ⟨hkind, ?_⟩
    by_cases hrest : s.drop k = []
    · rw [hrest, tokensFrom]
      simp
    · rw [(silent_token hm hkind).2 hrest] at h
      exact ih h.2

end MathMarkup.Tex
