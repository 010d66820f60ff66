import Mathlib.Data.List.TakeWhile
import MathMarkup.Text.Basic

/-!
# Searching and substituting, in terms of words

`after?` and `breakOn?` are characterized by prefixes and occurrences (`<+:`, `<:+:`): a search finds
the first occurrence (`breakOn?_eq_some_iff`). `substitute` is taken apart at a place where its rule
applies, and over a stretch where it declines; `replaceAll` likewise, at a word and over a stretch in
which no word starts.
-/

namespace MathMarkup.Text

variable {word s t a b : List Char}

/-! ## Words at the start -/

@[simp] theorem after?_append (word s : List Char) : after? word (word ++ s) = some s := by
  induction word with
  | nil => rfl
  | cons c word ih => simpa [after?] using ih

theorem after?_eq_some_iff : after? word s = some t ↔ s = word ++ t :=
  ⟨eq_append_of_after?, fun h => h ▸ after?_append word t⟩

theorem after?_eq_none_iff : after? word s = none ↔ ¬ word <+: s := by
  constructor
  · rintro h ⟨t, rfl⟩
    simp at h
  · intro h
    cases hafter : after? word s with
    | none => rfl
    | some t => exact absurd ⟨t, (eq_append_of_after? hafter).symm⟩ h

/-- The first of a character tells what stands before it, whatever follows. -/
theorem eq_of_append_cons {x y : List Char} {d : Char} (hx : d ∉ x) (hy : d ∉ y)
    (h : x ++ d :: s = y ++ d :: t) : x = y ∧ s = t := by
  induction x generalizing y with
  | nil =>
    cases y with
    | nil => simpa using h
    | cons e y =>
      simp only [List.nil_append, List.cons_append, List.cons.injEq] at h
      exact absurd (h.1 ▸ List.mem_cons_self) hy
  | cons c x ih =>
    cases y with
    | nil =>
      simp only [List.nil_append, List.cons_append, List.cons.injEq] at h
      exact absurd (h.1 ▸ List.mem_cons_self) hx
    | cons e y =>
      simp only [List.cons_append, List.cons.injEq] at h
      obtain ⟨hxy, hst⟩ := ih (List.not_mem_of_not_mem_cons hx) (List.not_mem_of_not_mem_cons hy) h.2
      exact ⟨by rw [h.1, hxy], hst⟩

/-! ## Words where two texts meet -/

/-- A word without a character that a text holds does not reach over its end. -/
theorem prefix_of_prefix_append {c : Char} (hword : c ∉ word) (hc : c ∈ s) (h : word <+: s ++ t) : word <+: s := by
  rcases List.prefix_or_prefix_of_prefix h (List.prefix_append s t) with h | h
  · exact h
  · exact absurd (h.subset hc) hword

theorem prefix_of_prefix_append_cons {c : Char} (hword : c ∉ word) (h : word <+: s ++ c :: t) : word <+: s := by
  have hconcat : word <+: (s ++ [c]) ++ t := by simpa using h
  rcases List.prefix_concat_iff.1 (prefix_of_prefix_append hword (by simp) hconcat) with rfl | h
  · exact absurd (by simp) hword
  · exact h

/-- A word is found on one side of a character that it does not hold. -/
theorem infix_append_cons {c : Char} (hword : c ∉ word) (h : word <:+: s ++ c :: t) : word <:+: s ∨ word <:+: t := by
  induction s with
  | nil =>
    rcases List.infix_cons_iff.1 h with h | h
    · exact Or.inl (prefix_of_prefix_append_cons hword h).isInfix
    · exact Or.inr h
  | cons d s ih =>
    rcases List.infix_cons_iff.1 h with h | h
    · exact Or.inl (prefix_of_prefix_append_cons hword h).isInfix
    · exact (ih h).imp_left fun h => List.infix_cons_iff.2 (Or.inr h)

theorem not_infix_behind (h : ¬ word <:+: a ++ b) : ¬ word <:+: b := fun hb =>
  h (hb.trans (List.suffix_append a b).isInfix)

/-! ## Runs of characters -/

theorem take_length_takeWhile (p : Char → Bool) (s : List Char) :
    s.take (s.takeWhile p).length = s.takeWhile p :=
  (List.prefix_iff_eq_take.1 (List.takeWhile_prefix p)).symm

theorem drop_length_takeWhile (p : Char → Bool) (s : List Char) :
    s.drop (s.takeWhile p).length = s.dropWhile p := by
  conv => lhs; arg 2; rw [← List.takeWhile_append_dropWhile (p := p) (l := s)]
  exact List.drop_left

/-- Behind a run comes what does not belong to it. -/
theorem eq_false_of_mem_head?_dropWhile {α : Type} {p : α → Bool} {l : List α} {x : α}
    (h : x ∈ (l.dropWhile p).head?) : p x = false := by
  have hfirst := List.head?_dropWhile_not p l
  rw [Option.mem_def.1 h] at hfirst
  simpa using hfirst

/-- A run ends where the next character does not belong to it. -/
theorem takeWhile_append_of_head {p : Char → Bool} (hs : ∀ c ∈ s, p c = true)
    (ht : ∀ c ∈ t.head?, p c = false) :
    (s ++ t).takeWhile p = s ∧ (s ++ t).dropWhile p = t := by
  rw [List.takeWhile_append_of_pos hs, List.dropWhile_append_of_pos hs]
  cases t with
  | nil => simp
  | cons d t =>
    have hd : ¬ p d = true := by simp [ht d rfl]
    rw [List.takeWhile_cons_of_neg hd, List.dropWhile_cons_of_neg hd, List.append_nil]
    exact ⟨rfl, rfl⟩

/-! ## Occurrences -/

theorem breakOn?_eq_none_iff : breakOn? word s = none ↔ ¬ word <:+: s := by
  induction s with
  | nil =>
    rw [breakOn?, Option.map_eq_none_iff, after?_eq_none_iff, List.prefix_nil, List.infix_nil]
  | cons c s ih =>
    rw [breakOn?, List.infix_cons_iff, not_or, ← ih]
    cases hafter : after? word (c :: s) with
    | none => simp [after?_eq_none_iff.1 hafter]
    | some t => simp [after?_eq_some_iff.1 hafter]

theorem contains_iff : contains word s = true ↔ word <:+: s := by
  rw [contains, Option.isSome_iff_ne_none, ne_eq, breakOn?_eq_none_iff, Decidable.not_not]

/-- A word that does not end behind `a` lies in it, or starts behind it. -/
theorem infix_dropLast_cons {c : Char} :
    word <:+: (c :: a) ++ word.dropLast ↔ word <+: (c :: a) ++ word.dropLast ∨ word <:+: a ++ word.dropLast := by
  rw [List.cons_append, List.infix_cons_iff]

theorem not_infix_dropLast (hword : word ≠ []) : ¬ word <:+: word.dropLast := by
  intro h
  have := h.length_le
  have := List.length_pos_iff.2 hword
  rw [List.length_dropLast] at *
  omega

/-- What starts in front of a word, and not at it, ends before the last character of that word. -/
theorem prefix_append_dropLast_iff (hs : s ≠ []) : word <+: s ++ word.dropLast ↔ word <+: s ++ word ++ t := by
  have hcut : s ++ word.dropLast <+: s ++ word ++ t := by
    rw [List.append_assoc, List.prefix_append_right_inj]
    exact (List.dropLast_prefix word).trans (List.prefix_append word t)
  refine ⟨fun h => h.trans hcut, fun h => List.prefix_of_prefix_length_le h hcut ?_⟩
  have := List.length_pos_iff.2 hs
  rw [List.length_append, List.length_dropLast]
  omega

/-- `a` is followed by the first occurrence of the word: it does not occur earlier, nor does it
overlap that place. -/
theorem breakOn?_eq_some_iff (hword : word ≠ []) :
    breakOn? word s = some (a, b) ↔ s = a ++ word ++ b ∧ ¬ word <:+: a ++ word.dropLast := by
  induction s generalizing a with
  | nil =>
    rw [breakOn?, after?_eq_none_iff.2 (by simpa using hword)]
    simp [hword]
  | cons c s ih =>
    rw [breakOn?]
    cases hafter : after? word (c :: s) with
    | some t =>
      have hs := after?_eq_some_iff.1 hafter
      simp only [Option.some.injEq, Prod.mk.injEq]
      constructor
      · rintro ⟨rfl, rfl⟩
        exact ⟨by simpa using hs, by simpa using not_infix_dropLast hword⟩
      · rintro ⟨heq, hfirst⟩
        cases a with
        | nil =>
          refine ⟨rfl, ?_⟩
          rw [hs] at heq
          simpa using heq
        | cons d a =>
          have hpre : word <+: (d :: a) ++ word ++ b := heq ▸ ⟨t, hs.symm⟩
          exact absurd ((prefix_append_dropLast_iff (List.cons_ne_nil d a)).2 hpre).isInfix hfirst
    | none =>
      have hnot := after?_eq_none_iff.1 hafter
      simp only [Option.map_eq_some_iff, Prod.exists, Prod.mk.injEq]
      constructor
      · rintro ⟨a', b', hbreak, rfl, rfl⟩
        obtain ⟨rfl, hfirst⟩ := ih.1 hbreak
        refine ⟨rfl, ?_⟩
        rw [infix_dropLast_cons, not_or]
        exact ⟨fun hpre => hnot ((prefix_append_dropLast_iff (List.cons_ne_nil c a')).1 hpre), hfirst⟩
      · rintro ⟨heq, hfirst⟩
        cases a with
        | nil => exact absurd ⟨b, by simpa using heq.symm⟩ hnot
        | cons d a =>
          simp only [List.cons_append, List.cons.injEq] at heq
          obtain ⟨rfl, rfl⟩ := heq
          rw [infix_dropLast_cons, not_or] at hfirst
          exact ⟨a, b, ih.2 ⟨rfl, hfirst.2⟩, rfl, rfl⟩

/-- Where the word does not start, the search goes on. -/
theorem breakOn?_append (h : ∀ x y, s = x ++ y → y ≠ [] → ¬ word <+: y ++ t) :
    breakOn? word (s ++ t) = (breakOn? word t).map fun p => (s ++ p.1, p.2) := by
  induction s with
  | nil => cases hbreak : breakOn? word t <;> simp [hbreak]
  | cons c s ih =>
    have hnone := after?_eq_none_iff.2 (h [] (c :: s) rfl (List.cons_ne_nil c s))
    rw [List.cons_append] at hnone ⊢
    rw [breakOn?, hnone, ih fun x y hxy hy => h (c :: x) y (by rw [hxy]; rfl) hy]
    simp only [Option.map_map]
    rfl

/-! ## Substituting -/

variable {rule : List Char → Option (List Char × List Char)}

@[simp] theorem substitute_nil : substitute rule [] = [] := by rw [substitute]

theorem substitute_cons_of_none {c : Char} (h : rule (c :: s) = none) :
    substitute rule (c :: s) = c :: substitute rule s := by rw [substitute, h]

theorem substitute_cons_of_some {c : Char} {out rest : List Char} (h : rule (c :: s) = some (out, rest))
    (hlen : rest.length ≤ s.length) : substitute rule (c :: s) = out ++ substitute rule rest := by
  rw [substitute, h]
  exact if_pos hlen

/-- A stretch on which the rule declines is kept. -/
theorem substitute_append_of_none (h : ∀ x y, s = x ++ y → y ≠ [] → rule (y ++ t) = none) :
    substitute rule (s ++ t) = s ++ substitute rule t := by
  induction s with
  | nil => rfl
  | cons c s ih =>
    have hhead : rule (c :: (s ++ t)) = none := h [] (c :: s) rfl (List.cons_ne_nil c s)
    rw [List.cons_append, substitute_cons_of_none hhead,
      ih fun x y hxy hy => h (c :: x) y (by rw [hxy]; rfl) hy]
    rfl

theorem substitute_of_none (h : ∀ x y, s = x ++ y → y ≠ [] → rule y = none) : substitute rule s = s := by
  have hkeep : substitute rule (s ++ []) = s ++ substitute rule [] := by
    refine substitute_append_of_none fun x y hxy hy => ?_
    rw [List.append_nil]
    exact h x y hxy hy
  simpa using hkeep

/-! ## Replacing -/

theorem replaceAll_eq_substitute (hword : word ≠ []) (new s : List Char) :
    replaceAll word new s = substitute (fun t => (after? word t).map (new, ·)) s := by
  rw [replaceAll, if_neg (by simpa using hword)]

theorem replaceAll_nil (hword : word ≠ []) (new : List Char) : replaceAll word new [] = [] := by
  rw [replaceAll_eq_substitute hword, substitute_nil]

/-- A word at the start is replaced. -/
theorem replaceAll_word_append (hword : word ≠ []) (new t : List Char) :
    replaceAll word new (word ++ t) = new ++ replaceAll word new t := by
  rw [replaceAll_eq_substitute hword, replaceAll_eq_substitute hword]
  obtain ⟨c, rest, rfl⟩ := List.exists_cons_of_ne_nil hword
  have hfound : (after? (c :: rest) (c :: (rest ++ t))).map (new, ·) = some (new, t) := by
    rw [← List.cons_append, after?_append]
    rfl
  exact substitute_cons_of_some hfound (by simp)

/-- A stretch in which no word starts is kept. -/
theorem replaceAll_append (hword : word ≠ []) (h : ∀ x y, s = x ++ y → y ≠ [] → ¬ word <+: y ++ t)
    (new : List Char) : replaceAll word new (s ++ t) = s ++ replaceAll word new t := by
  rw [replaceAll_eq_substitute hword, replaceAll_eq_substitute hword]
  refine substitute_append_of_none fun x y hxy hy => ?_
  rw [after?_eq_none_iff.2 (h x y hxy hy)]
  rfl

/-- A text without the word is kept. -/
theorem replaceAll_eq_self (hword : word ≠ []) (h : ¬ word <:+: s) (new : List Char) :
    replaceAll word new s = s := by
  rw [replaceAll_eq_substitute hword]
  refine substitute_of_none fun x y hxy _ => ?_
  have hy : ¬ word <:+: y := not_infix_behind (hxy ▸ h)
  rw [after?_eq_none_iff.2 fun hpre => hy hpre.isInfix]
  rfl

/-- Replacing a character. -/
theorem replaceAll_singleton (c : Char) (new s : List Char) :
    replaceAll [c] new s = s.flatMap fun d => if d = c then new else [d] := by
  have hword : [c] ≠ [] := List.cons_ne_nil c []
  induction s with
  | nil => exact replaceAll_nil hword new
  | cons d s ih =>
    rw [List.flatMap_cons, ← ih]
    by_cases hd : d = c
    · rw [if_pos hd, hd]
      exact replaceAll_word_append hword new s
    · rw [if_neg hd]
      refine replaceAll_append (s := [d]) hword (fun x y hxy hy hpre => hd ?_) new
      obtain ⟨rfl, rfl⟩ : x = [] ∧ y = [d] := by simpa [List.singleton_eq_append_iff, hy] using hxy
      exact (List.cons_prefix_cons.1 hpre).1.symm

end MathMarkup.Text
