import MathMarkup.Proofs.Normal.Fixes
import MathMarkup.Proofs.Rows.Carried
import MathMarkup.Proofs.Safety.FileCommands
import MathMarkup.Tex.Normalize
import Mathlib.Tactic.IntervalCases

/-!
# The frame of the normal form

Whatever an expression holds, the line normalizer drops no token and leaks none
(`withCommandsProtected_normalizeLines`), and puts its rows between the words of one environment. Each
cosmetic rule declines inside these words and never matches across the second one (`KeepsFrame`), so a
substitution leaves both where they are (`KeepsFrame.exists_substitute`).

Main theorem: `normalize_framed`.
-/

namespace MathMarkup.Tex

open Text

variable {rule : List Char → Option (List Char × List Char)} {s t out rest body w : List Char} {c : Char}

/-! ## The frame -/

/-- What the line normalizer writes before the rows. -/
def alignOpening : List Char := ['\\', 'b', 'e', 'g', 'i', 'n', '{', 'a', 'l', 'i', 'g', 'n', '*', '}', ' ']

/-- What the line normalizer writes behind the rows. -/
def alignClosing : List Char := [' ', '\\', 'e', 'n', 'd', '{', 'a', 'l', 'i', 'g', 'n', '*', '}']

/-- The text in the frame. -/
def inFrame (s : List Char) : List Char := alignOpening ++ s ++ alignClosing

theorem normalizeLines_eq_inFrame (s : List Char) :
    normalizeLines s = inFrame (joinRows (anchorRows (splitRows (collapseLineBreaks s)))) := rfl

/-- **The protected pass** puts the spans back into rows with the content of the protected text. -/
theorem exists_items_of_normalizeLines (stage : String) {p : Placeholders} {guarded : List Char}
    (h : hasMark s = false) (hp : Placeholders.empty.protect s = (p, guarded)) :
    ∃ items, contentOf items = contentOf (itemsFrom 0 0 s) ∧
      withCommandsProtected stage s (fun p => .ok (normalizeLines p)) = .ok (inFrame (p.filled items)) ∧
      hasMark (inFrame (p.filled items)) = false := by
  obtain ⟨items, hwrite, hcontent, hnumbers, hchars⟩ := exists_items_of_joinRows h hp
  have hlines : normalizeLines guarded = alignOpening ++ write items ++ alignClosing := by
    rw [hwrite, normalizeLines_eq_inFrame, inFrame]
  obtain ⟨hfill, herase⟩ := fill_append_write (p := p) (a := alignOpening) (b := alignClosing)
    (fun n hn => List.mem_range.1 (hnumbers ▸ hn)) hchars (by decide) (by decide)
  rw [← hlines] at hfill herase
  refine ⟨items, hcontent, ?_, ?_⟩
  · have hkept : ∀ n < p.size, placeholder n <:+: normalizeLines guarded := by
      intro n hn
      have htoken : .token n ∈ items := mem_numbers.1 (hnumbers ▸ List.mem_range.2 hn)
      rw [hlines, List.append_assoc]
      exact ((placeholder_infix_write htoken).trans (List.prefix_append _ _).isInfix).trans
        (List.suffix_append _ _).isInfix
    rw [withCommandsProtected_of_kept (q := normalizeLines guarded) h hp rfl hkept, herase, hfill]
    rfl
  · rw [inFrame, ← hfill, hasMark_fill (isSpan_of_protect h hp), herase]

/-- **The line normalizer neither drops nor leaks a token.** -/
theorem withCommandsProtected_normalizeLines (stage : String) (h : hasMark s = false) :
    ∃ t, withCommandsProtected stage s (fun p => .ok (normalizeLines p)) = .ok (inFrame t) ∧
      hasMark (inFrame t) = false := by
  obtain ⟨p, guarded, hp⟩ : ∃ p guarded, Placeholders.empty.protect s = (p, guarded) := ⟨_, _, rfl⟩
  obtain ⟨items, -, hok⟩ := exists_items_of_normalizeLines stage h hp
  exact ⟨_, hok⟩

/-! ## Rules that keep the frame -/

/-- From text without placeholder characters the rule makes none. -/
def Clean (rule : List Char → Option (List Char × List Char)) : Prop :=
  ∀ s out rest, rule s = some (out, rest) → hasMark s = false → hasMark out = false ∧ hasMark rest = false

theorem Clean.hasMark_substitute (h : Clean rule) (hs : hasMark s = false) :
    hasMark (substitute rule s) = false := by
  fun_induction substitute rule s with
  | case1 => rfl
  | case2 c s hnone ih =>
    rw [hasMark_cons, Bool.or_eq_false_iff] at hs ⊢
    exact ⟨hs.1, ih hs.2⟩
  | case3 c s out rest hsome hlen ih =>
    obtain ⟨hout, hrest⟩ := h _ _ _ hsome hs
    rw [hasMark_append, hout, ih hrest]
    rfl
  | case4 c s out rest hsome hlen ih =>
    rw [hasMark_cons, Bool.or_eq_false_iff] at hs ⊢
    exact ⟨hs.1, ih hs.2⟩

/-- The rule does not match inside the words of the frame, nor across the start of the second one. -/
structure KeepsFrame (rule : List Char → Option (List Char × List Char)) : Prop where
  opening : ∀ i < alignOpening.length, ∀ s, rule (alignOpening.drop i ++ s) = none
  closing : ∀ i < alignClosing.length, rule (alignClosing.drop i) = none
  inside : ∀ s out rest, rule (s ++ alignClosing) = some (out, rest) → ∃ t, rest = t ++ alignClosing

/-- The places in a word by their numbers. -/
theorem exists_drop_of_append {x y : List Char} (hw : w = x ++ y) (hy : y ≠ []) : ∃ i < w.length, w.drop i = y := by
  refine ⟨x.length, ?_, ?_⟩
  · have := List.length_pos_iff.2 hy
    rw [hw, List.length_append]
    omega
  · rw [hw]
    exact List.drop_left

theorem KeepsFrame.exists_substitute_append (h : KeepsFrame rule) (s : List Char) :
    ∃ t, substitute rule (s ++ alignClosing) = t ++ alignClosing := by
  induction hlen : s.length using Nat.strongRecOn generalizing s with
  | ind len ih =>
    cases s with
    | nil =>
      refine ⟨[], substitute_of_none fun x y hxy hy => ?_⟩
      obtain ⟨i, hi, rfl⟩ := exists_drop_of_append hxy hy
      exact h.closing i hi
    | cons c s =>
      obtain ⟨kept, hkept⟩ := ih s.length (by rw [← hlen]; simp) s rfl
      rw [List.cons_append, substitute]
      split
      · exact ⟨c :: kept, by rw [hkept]; rfl⟩
      · rename_i out rest hsome
        split
        · rename_i hle
          obtain ⟨t, rfl⟩ := h.inside (c :: s) out rest hsome
          have hlt : t.length < len := by
            simp only [List.length_append, List.length_cons] at hle hlen
            omega
          obtain ⟨z, hz⟩ := ih t.length hlt t rfl
          exact ⟨out ++ z, by rw [hz, List.append_assoc]⟩
        · exact ⟨c :: kept, by rw [hkept]; rfl⟩

/-- **A substitution leaves the frame alone.** -/
theorem KeepsFrame.exists_substitute (h : KeepsFrame rule) (s : List Char) :
    ∃ t, substitute rule (inFrame s) = inFrame t := by
  obtain ⟨t, ht⟩ := h.exists_substitute_append s
  refine ⟨t, ?_⟩
  rw [inFrame, List.append_assoc, substitute_append_of_none, ht, inFrame, List.append_assoc]
  intro x y hxy hy
  obtain ⟨i, hi, rfl⟩ := exists_drop_of_append hxy hy
  exact h.opening i hi _

/-! ## Matches before the second word -/

/-- A word without spaces ends before the second word of the frame. -/
theorem exists_of_append_word (hw : ' ' ∉ w) (h : s ++ alignClosing = w ++ rest) :
    ∃ t, s = w ++ t ∧ rest = t ++ alignClosing := by
  rcases List.append_eq_append_iff.1 h with ⟨x, rfl, hx⟩ | ⟨x, rfl, hx⟩
  · cases x with
    | nil => exact ⟨[], by simp, hx.symm⟩
    | cons d x =>
      obtain ⟨rfl, -⟩ := List.cons.inj hx
      exact absurd (by simp) hw
  · exact ⟨x, rfl, hx⟩

/-- So does a flat text with the brace that closes it: the first brace of the word is an opening one. -/
theorem exists_of_append_close (hbody : ∀ c ∈ body, isBrace c = false)
    (h : s ++ alignClosing = body ++ '}' :: rest) :
    ∃ t, s = body ++ '}' :: t ∧ rest = t ++ alignClosing := by
  rcases List.append_eq_append_iff.1 h with ⟨x, rfl, hx⟩ | ⟨x, rfl, hx⟩
  · have hflat : ∀ c ∈ x, isBrace c = false := fun c hc => hbody c (List.mem_append_right s hc)
    have hopen : alignClosing = [' ', '\\', 'e', 'n', 'd'] ++ '{' :: ['a', 'l', 'i', 'g', 'n', '*', '}'] := rfl
    exact absurd (hx.symm.trans hopen) (close_ne_open hflat (by simp [isBrace]))
  · cases x with
    | nil => cases hx
    | cons d x =>
      obtain ⟨rfl, rfl⟩ := List.cons.inj hx
      exact ⟨x, rfl, rfl⟩

/-! ## Spaces -/

section Spacing

variable {accepts : Char → Bool} {space : List Char}

theorem spacing_eq_some_iff : spacing accepts space s = some (out, rest) ↔
    ∃ c, accepts c = true ∧ s = c :: (textOpen ++ rest) ∧ out = c :: (space ++ textOpen) := by
  cases s with
  | nil => simp [spacing]
  | cons c s =>
    by_cases hc : accepts c = true
    · rw [spacing, if_pos hc, Option.map_eq_some_iff]
      simp only [after?_eq_some_iff, Prod.mk.injEq, List.cons.injEq]
      constructor
      · rintro ⟨r, rfl, hout, rfl⟩
        exact ⟨c, hc, ⟨rfl, rfl⟩, hout.symm⟩
      · rintro ⟨d, hd, ⟨rfl, rfl⟩, hout⟩
        exact ⟨rest, rfl, hout.symm, rfl⟩
    · rw [spacing, if_neg hc]
      constructor
      · intro h
        cases h
      · rintro ⟨d, hd, hs, -⟩
        obtain ⟨rfl, -⟩ := List.cons.inj hs
        exact absurd hd hc

theorem clean_spacing (hspace : hasMark space = false) : Clean (spacing accepts space) := by
  intro s out rest h hs
  obtain ⟨c, -, rfl, rfl⟩ := spacing_eq_some_iff.1 h
  simp only [hasMark_cons, hasMark_append, Bool.or_eq_false_iff] at hs ⊢
  obtain ⟨hc, hopen, hrest⟩ := hs
  exact ⟨⟨hc, hspace, hopen⟩, hrest⟩

theorem exists_of_spacing (hspace : accepts ' ' = false)
    (h : spacing accepts space (s ++ alignClosing) = some (out, rest)) : ∃ t, rest = t ++ alignClosing := by
  obtain ⟨c, hc, hs, -⟩ := spacing_eq_some_iff.1 h
  cases s with
  | nil =>
    obtain ⟨rfl, -⟩ := List.cons.inj hs
    rw [hspace] at hc
    cases hc
  | cons d s =>
    obtain ⟨-, hs⟩ := List.cons.inj hs
    obtain ⟨t, -, ht⟩ := exists_of_append_word (by decide) hs
    exact ⟨t, ht⟩

end Spacing

theorem keepsFrame_thinSpaceRule : KeepsFrame thinSpaceRule where
  opening := by
    intro i (hi : i < 15) s
    interval_cases i <;> rfl
  closing := by decide
  inside := by
    intro s out rest h
    rw [thinSpaceRule_eq_spacing] at h
    exact exists_of_spacing (by decide) h

theorem keepsFrame_spaceRule : KeepsFrame spaceRule where
  opening := by
    intro i (hi : i < 15) s
    interval_cases i <;> rfl
  closing := by decide
  inside := by
    intro s out rest h
    rw [spaceRule_eq_spacing] at h
    exact exists_of_spacing (by decide) h

/-! ## Doubled braces -/

theorem clean_doubledBracesRule : Clean doubledBracesRule := by
  intro s out rest h hs
  obtain ⟨body, -, rfl, rfl⟩ := doubledBracesRule_eq_some_iff.1 h
  simp only [hasMark_cons, hasMark_append, Bool.or_eq_false_iff] at hs ⊢
  obtain ⟨hopen, -, hbody, hclose, -, hrest⟩ := hs
  exact ⟨⟨⟨hopen, hbody⟩, hclose, rfl⟩, hrest⟩

theorem keepsFrame_doubledBracesRule : KeepsFrame doubledBracesRule where
  opening := by
    intro i (hi : i < 15) s
    interval_cases i <;> rfl
  closing := by decide
  inside := by
    intro s out rest h
    obtain ⟨body, hbody, hs, -⟩ := doubledBracesRule_eq_some_iff.1 h
    have hword : s ++ alignClosing = (textOpen ++ ['{']) ++ (body ++ '}' :: '}' :: rest) := by rw [hs]; simp
    obtain ⟨t, -, ht⟩ := exists_of_append_word (by decide) hword
    obtain ⟨r, -, hr⟩ := exists_of_append_close hbody ht.symm
    cases r with
    | nil => cases hr
    | cons d r => exact ⟨r, (List.cons.inj hr).2⟩

/-! ## Colors -/

theorem append_of_splitNested (s : List Char) : (splitNested s).1 ++ (splitNested s).2 = s := by
  fun_induction splitNested s with
  | case1 => rfl
  | case2 t hnone => rfl
  | case3 t body rest hsome groups rest' hrec ih =>
    rw [hrec] at ih
    simp only at ih ⊢
    rw [List.cons_append, List.cons_append, List.append_assoc, ih, ← append_of_closeNested? hsome]
  | case4 c t hc => rfl

/-- What a color applies to behind a backslash: a name with its groups. -/
theorem colored?_slash (s : List Char) : colored? ('\\' :: s) =
    if s.takeWhile Char.isAlpha = [] then none
    else some ('\\' :: s.takeWhile Char.isAlpha ++ (splitNested (s.dropWhile Char.isAlpha)).1,
      (splitNested (s.dropWhile Char.isAlpha)).2) := by
  rw [colored?, if_pos rfl]
  cases s.takeWhile Char.isAlpha <;> rfl

/-- Otherwise it is the first character, when one is accepted. -/
theorem eq_of_colored?_ne (hc : c ≠ '\\') (h : colored? (c :: s) = some (out, rest)) : out = [c] ∧ rest = s := by
  rw [colored?, if_neg hc] at h
  split at h
  · cases h
  · obtain ⟨hout, hrest⟩ := Prod.mk.inj (Option.some.inj h)
    exact ⟨hout.symm, hrest.symm⟩

theorem append_of_colored? (h : colored? s = some (out, rest)) : s = out ++ rest := by
  cases s with
  | nil => cases h
  | cons c s =>
    by_cases hc : c = '\\'
    · rw [hc, colored?_slash] at h
      split at h
      · cases h
      · obtain ⟨rfl, rfl⟩ := Prod.mk.inj (Option.some.inj h)
        rw [hc, List.cons_append, List.cons_append, List.append_assoc, append_of_splitNested,
          List.takeWhile_append_dropWhile]
    · obtain ⟨rfl, rfl⟩ := eq_of_colored?_ne hc h
      rfl

theorem coloredTokenRule_eq_some (h : coloredTokenRule s = some (out, rest)) :
    ∃ color behind token, (∀ c ∈ color, isBrace c = false) ∧ s = colorOpen ++ (color ++ '}' :: behind) ∧
      colored? behind = some (token, rest) ∧ out = colorOpen ++ color ++ ['}', '{'] ++ token ++ ['}'] := by
  simp only [coloredTokenRule, Option.bind_eq_bind, Option.bind_eq_some_iff, Prod.exists, after?_eq_some_iff,
    flatBody?_eq_some_iff, Option.pure_def, Option.some.injEq, Prod.mk.injEq] at h
  obtain ⟨_, rfl, color, behind, ⟨hcolor, rfl⟩, token, _, htoken, rfl, rfl⟩ := h
  exact ⟨color, behind, token, hcolor, rfl, htoken, rfl⟩

theorem clean_coloredTokenRule : Clean coloredTokenRule := by
  intro s out rest h hs
  obtain ⟨color, behind, token, -, rfl, htoken, rfl⟩ := coloredTokenRule_eq_some h
  rw [append_of_colored? htoken] at hs
  simp only [hasMark_cons, hasMark_append, Bool.or_eq_false_iff] at hs ⊢
  obtain ⟨hopen, hcolor, hbrace, htoken, hrest⟩ := hs
  exact ⟨⟨⟨⟨⟨hopen, hcolor⟩, by decide⟩, htoken⟩, by decide⟩, hrest⟩

/-- No group that is open before the second word of the frame is closed in it: the word opens one more. -/
theorem closeNested?_alignClosing (opened : Nat) : closeNested? 2 opened alignClosing = none := by
  by_cases h : opened < 2
  · simp [alignClosing, closeNested?, h]
  · simp [alignClosing, closeNested?, h]

theorem exists_of_map_cons {o : Option (List Char × List Char)}
    (h : o.map (fun (body, rest) => (c :: body, rest)) = some (body, rest)) :
    ∃ group, o = some (group, rest) ∧ body = c :: group := by
  rw [Option.map_eq_some_iff] at h
  obtain ⟨⟨group, r⟩, ho, hr⟩ := h
  obtain ⟨rfl, rfl⟩ := Prod.mk.inj hr
  exact ⟨group, ho, rfl⟩

theorem exists_of_closeNested? {opened : Nat} (h : closeNested? 2 opened (s ++ alignClosing) = some (body, rest)) :
    ∃ t, rest = t ++ alignClosing ∧ t.length < s.length := by
  induction s generalizing opened body with
  | nil =>
    rw [List.nil_append, closeNested?_alignClosing] at h
    cases h
  | cons c s ih =>
    have hstep : ∀ opened group, closeNested? 2 opened (s ++ alignClosing) = some (group, rest) →
        ∃ t, rest = t ++ alignClosing ∧ t.length < (c :: s).length := by
      intro opened group hgroup
      obtain ⟨t, ht, hlt⟩ := ih hgroup
      exact ⟨t, ht, Nat.lt_succ_of_lt hlt⟩
    simp only [List.cons_append, closeNested?] at h
    split at h
    · split at h
      · obtain ⟨-, rfl⟩ := Prod.mk.inj (Option.some.inj h)
        exact ⟨s, rfl, Nat.lt_succ_self _⟩
      · obtain ⟨group, hgroup, -⟩ := exists_of_map_cons h
        exact hstep _ group hgroup
    · split at h
      · split at h
        · obtain ⟨group, hgroup, -⟩ := exists_of_map_cons h
          exact hstep _ group hgroup
        · cases h
      · obtain ⟨group, hgroup, -⟩ := exists_of_map_cons h
        exact hstep _ group hgroup

theorem exists_of_splitNested (s : List Char) : ∃ t, (splitNested (s ++ alignClosing)).2 = t ++ alignClosing := by
  induction hlen : s.length using Nat.strongRecOn generalizing s with
  | ind len ih =>
    cases s with
    | nil => exact ⟨[], by rw [splitNested.eq_def]; rfl⟩
    | cons c s =>
      rw [List.cons_append, splitNested.eq_def]
      simp only
      split
      · split
        · exact ⟨c :: s, rfl⟩
        · rename_i body rest hsome
          obtain ⟨t, rfl, hlt⟩ := exists_of_closeNested? hsome
          exact ih t.length (by rw [← hlen]; exact Nat.lt_succ_of_lt hlt) t rfl
      · exact ⟨c :: s, rfl⟩

theorem exists_of_colored? (h : colored? (s ++ alignClosing) = some (out, rest)) :
    ∃ t, rest = t ++ alignClosing := by
  cases s with
  | nil => cases h
  | cons c s =>
    by_cases hc : c = '\\'
    · have hdrop : (s ++ alignClosing).dropWhile Char.isAlpha = s.dropWhile Char.isAlpha ++ alignClosing := by
        rw [List.dropWhile_append]
        split
        · rename_i hempty
          rw [List.isEmpty_iff.1 hempty]
          rfl
        · rfl
      rw [List.cons_append, hc, colored?_slash, hdrop] at h
      split at h
      · cases h
      · obtain ⟨-, rfl⟩ := Prod.mk.inj (Option.some.inj h)
        exact exists_of_splitNested _
    · obtain ⟨-, rfl⟩ := eq_of_colored?_ne hc h
      exact ⟨s, rfl⟩

theorem keepsFrame_coloredTokenRule : KeepsFrame coloredTokenRule where
  opening := by
    intro i (hi : i < 15) s
    interval_cases i <;> rfl
  closing := by decide
  inside := by
    intro s out rest h
    obtain ⟨color, behind, token, hcolor, hs, htoken, -⟩ := coloredTokenRule_eq_some h
    obtain ⟨t, -, ht⟩ := exists_of_append_word (by decide) hs
    obtain ⟨r, -, rfl⟩ := exists_of_append_close hcolor ht.symm
    exact exists_of_colored? htoken

/-! ## The normal form -/

/-- **The cosmetic fixes** keep the frame, and bring no placeholder character in. -/
theorem exists_cosmetic_inFrame (s : List Char) (h : hasMark (inFrame s) = false) :
    ∃ t, cosmetic (inFrame s) = inFrame t ∧ hasMark (inFrame t) = false := by
  obtain ⟨thin, hthin⟩ := keepsFrame_thinSpaceRule.exists_substitute s
  obtain ⟨plain, hplain⟩ := keepsFrame_doubledBracesRule.exists_substitute thin
  obtain ⟨colored, hcolored⟩ := keepsFrame_coloredTokenRule.exists_substitute plain
  obtain ⟨spaced, hspaced⟩ := keepsFrame_spaceRule.exists_substitute colored
  have hthinSpace : Clean thinSpaceRule := thinSpaceRule_eq_spacing ▸ clean_spacing (by decide)
  have hspace : Clean spaceRule := spaceRule_eq_spacing ▸ clean_spacing (by decide)
  have hclean := hspace.hasMark_substitute (clean_coloredTokenRule.hasMark_substitute
    (clean_doubledBracesRule.hasMark_substitute (hthinSpace.hasMark_substitute h)))
  rw [hthin, hplain, hcolored, hspaced] at hclean
  refine ⟨spaced, ?_, hclean⟩
  rw [cosmetic, hthin, hplain, hcolored, hspaced]

theorem clean_fileCommandRule : Clean fileCommandRule := by
  intro s out rest h hs
  obtain ⟨htaken, b, rfl, hsuffix⟩ := takenOut_of_rule h
  obtain ⟨rfl, -⟩ := Prod.mk.inj (Option.some.inj (h.symm.trans htaken))
  exact ⟨rfl, hasMark_eq_false_of_subset hs fun c hc => List.mem_cons_of_mem _ (hsuffix.subset hc)⟩

/-- **Normalizing never fails.** For every raw text without placeholder characters, however malformed, and
every configuration: no stage reports an error, and the normal form is one display with one environment
around the rows, and holds no placeholder character. -/
theorem normalize_framed (config : Config) (raw : List Char) (h : hasMark raw = false) :
    (∃ body, normalizeBody (if config.sanitize then sanitize raw else raw) = .ok body) ∧
    (∃ b, (normalize config raw).normalized =
      "\\[\\begin\x7balign*\x7d ".toList ++ b ++ " \\end\x7balign*\x7d\\]".toList) ∧
    hasMark (normalize config raw).normalized = false := by
  have hsource : hasMark (if config.sanitize then sanitize raw else raw) = false := by
    split
    · exact clean_fileCommandRule.hasMark_substitute h
    · exact h
  obtain ⟨aligned, haligned, hunmarked⟩ := withCommandsProtected_normalizeLines "line normalizer"
    (hasMark_eq_false_of_subset hsource (stripDisplay_subset _))
  obtain ⟨fixed, hfixed, hclean⟩ := exists_cosmetic_inFrame aligned hunmarked
  have hbody : normalizeBody (if config.sanitize then sanitize raw else raw) = .ok (inFrame fixed) := by
    rw [normalizeBody, haligned, ← hfixed]
    rfl
  have hnormal : (normalize config raw).normalized = wrapDisplay (inFrame fixed) := by
    rw [normalize]
    simp only [hbody]
  refine ⟨⟨_, hbody⟩, ⟨fixed, ?_⟩, ?_⟩
  · rw [hnormal]
    simp [wrapDisplay, inFrame, alignOpening, alignClosing]
  · rw [hnormal, wrapDisplay, hasMark_append, hasMark_append, hclean]
    rfl

/-- A file command, a group and an environment that are not closed, with a run of line breaks, a color and a
comment. -/
theorem normalize_framed_unclosed :
    hasMark "\\load\x7ba\\\\ \\\\\\begin\x7bcases\x7d\\color\x7bred\x7dx%b".toList = false ∧
    (∃ body, normalizeBody (sanitize
      "\\load\x7ba\\\\ \\\\\\begin\x7bcases\x7d\\color\x7bred\x7dx%b".toList) = .ok body) ∧
    (∃ b, (normalize {} "\\load\x7ba\\\\ \\\\\\begin\x7bcases\x7d\\color\x7bred\x7dx%b".toList).normalized =
      "\\[\\begin\x7balign*\x7d ".toList ++ b ++ " \\end\x7balign*\x7d\\]".toList) ∧
    hasMark (normalize {} "\\load\x7ba\\\\ \\\\\\begin\x7bcases\x7d\\color\x7bred\x7dx%b".toList).normalized = false :=
  ⟨by decide, normalize_framed {} _ (by decide)⟩

end MathMarkup.Tex
