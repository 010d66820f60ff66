import Mathlib.Data.List.Basic
import MathMarkup.Proofs.Normal.Covered
import MathMarkup.Proofs.Placeholder.SharedMap

/-!
# Placeholder characters in the text itself

A text may hold what looks like a token before it is protected. Putting the spans back does not tell such a
token from one that `protect` wrote: it is replaced when its number is that of a span which is still to be put
back at that moment. Where every placeholder character goes away like that (`IsForged`), nothing is left that
could be reported, and the result is another text (`withCommandsProtected_unchanged`). In every other text with
a placeholder character one is left in the end.
-/

namespace MathMarkup.Tex

open Text

variable {a b s span : List Char} {items : List Item} {high i j k low n : Nat}

/-! ## Occurrences of tokens -/

/-- What starts with a token of its own in front of another token ends before that one. -/
theorem placeholder_prefix_of_prefix_append (ha : a ≠ []) (h : placeholder n <+: a ++ (placeholder j ++ b)) :
    placeholder n <+: a := by
  obtain ⟨c, a, rfl⟩ := List.exists_cons_of_ne_nil ha
  rw [placeholder, List.cons_append, List.cons_append, List.cons_prefix_cons] at h
  rw [placeholder, List.cons_append, List.cons_prefix_cons]
  exact ⟨h.1, prefix_of_prefix_append_cons (openMark_notMem_tail n) h.2⟩

/-- Tokens do not overlap. -/
theorem placeholder_infix_append (h : placeholder n <:+: a ++ (placeholder j ++ b)) :
    n = j ∨ placeholder n <:+: a ∨ placeholder n <:+: b := by
  induction a with
  | nil =>
    have h : placeholder n <:+: openMark :: (Nat.toDigits 10 j ++ [closeMark] ++ b) := h
    rcases List.infix_cons_iff.1 h with hpre | hrest
    · exact .inl (eq_of_prefix_placeholder hpre)
    · exact .inr (.inr (infix_of_infix_append (openMark_notMem_tail j) hrest))
  | cons c a ih =>
    rw [List.cons_append, List.infix_cons_iff] at h
    rcases h with hpre | hrest
    · have hfirst := placeholder_prefix_of_prefix_append (List.cons_ne_nil c a) hpre
      exact .inr (.inl hfirst.isInfix)
    · exact (ih hrest).imp_right (Or.imp_left fun h => h.trans (List.suffix_cons c a).isInfix)

/-- A text is cut at the first token of `j`, and what is behind it again. -/
@[elab_as_elim]
theorem placeholder_induction {motive : List Char → Prop} (j : Nat)
    (free : ∀ s, ¬ placeholder j <:+: s → motive s)
    (found : ∀ a b, ¬ placeholder j <:+: a → motive b → motive (a ++ (placeholder j ++ b))) (s : List Char) :
    motive s := by
  have hword := placeholder_ne_nil j
  induction hlen : s.length using Nat.strongRecOn generalizing s with
  | ind len ih =>
    cases hbreak : breakOn? (placeholder j) s with
    | none => exact free s (breakOn?_eq_none_iff.1 hbreak)
    | some p =>
      obtain ⟨rfl, hfirst⟩ := (breakOn?_eq_some_iff hword).1 hbreak
      rw [List.append_assoc] at hlen ⊢
      refine found p.1 p.2 (fun h => hfirst (h.trans (List.prefix_append _ _).isInfix)) (ih p.2.length ?_ p.2 rfl)
      have hpos := List.length_pos_iff.2 hword
      rw [← hlen, List.length_append, List.length_append]
      omega

/-- Replacing goes on behind the first token of `j`. -/
theorem replaceAll_of_found (ha : ¬ placeholder j <:+: a) (b : List Char) :
    replaceAll (placeholder j) span (a ++ (placeholder j ++ b)) = a ++ (span ++ replaceAll (placeholder j) span b) := by
  rw [replaceAll_append (placeholder_ne_nil j), replaceAll_word_append (placeholder_ne_nil j)]
  intro x y hxy hy hpre
  exact not_infix_behind (hxy ▸ ha) (placeholder_prefix_of_prefix_append hy hpre).isInfix

/-- The tokens of other numbers stay. -/
theorem placeholder_infix_replaceAll (hnj : n ≠ j) (h : placeholder n <:+: s) :
    placeholder n <:+: replaceAll (placeholder j) span s := by
  induction s using placeholder_induction j with
  | free s hfree => rwa [replaceAll_eq_self (placeholder_ne_nil j) hfree]
  | found a b ha ih =>
    rw [replaceAll_of_found ha]
    rcases placeholder_infix_append h with rfl | h | h
    · exact absurd rfl hnj
    · exact h.trans (List.prefix_append _ _).isInfix
    · exact (ih h).trans ((List.suffix_append span _).trans (List.suffix_append a _)).isInfix

/-! ## Texts whose placeholder characters belong to tokens -/

/-- None of the characters is a placeholder character, and the tokens are numbered from `low` on and below `high`. -/
structure IsTokenized (low high : Nat) (items : List Item) : Prop where
  unmarked : hasMark (charsOf items) = false
  numbered : ∀ n ∈ numbers items, low ≤ n ∧ n < high

theorem isTokenized_append_iff {items' : List Item} :
    IsTokenized low high (items ++ items') ↔ IsTokenized low high items ∧ IsTokenized low high items' := by
  constructor
  · rintro ⟨hunmarked, hnumbered⟩
    rw [charsOf_append, hasMark_append, Bool.or_eq_false_iff] at hunmarked
    rw [numbers_append, List.forall_mem_append] at hnumbered
    exact ⟨⟨hunmarked.1, hnumbered.1⟩, ⟨hunmarked.2, hnumbered.2⟩⟩
  · rintro ⟨h, h'⟩
    refine ⟨by rw [charsOf_append, hasMark_append, h.unmarked, h'.unmarked]; rfl, ?_⟩
    rw [numbers_append, List.forall_mem_append]
    exact ⟨h.numbered, h'.numbered⟩

theorem isTokenized_token_iff : IsTokenized low high [.token j] ↔ low ≤ j ∧ j < high :=
  ⟨fun h => h.numbered j (List.mem_singleton_self j), fun hj => ⟨rfl, List.forall_mem_singleton.2 hj⟩⟩

/-- Every placeholder character of the text belongs to a token, and the tokens are numbered from `low` on and
below `high`. -/
def OnlyTokens (low high : Nat) (s : List Char) : Prop := ∃ items, write items = s ∧ IsTokenized low high items

/-- Beside a character that no token holds the text can be cut. -/
theorem onlyTokens_append_iff
    (hcut : (∀ c ∈ a.getLast?, isTokenChar c = false) ∨ ∀ c ∈ b.head?, isTokenChar c = false) :
    OnlyTokens low high (a ++ b) ↔ OnlyTokens low high a ∧ OnlyTokens low high b := by
  constructor
  · rintro ⟨items, hwrite, hitems⟩
    obtain ⟨front, back, rfl, rfl, rfl⟩ := exists_append_of_write hwrite hcut
    obtain ⟨hfront, hback⟩ := isTokenized_append_iff.1 hitems
    exact ⟨⟨front, rfl, hfront⟩, ⟨back, rfl, hback⟩⟩
  · rintro ⟨⟨front, rfl, hfront⟩, ⟨back, rfl, hback⟩⟩
    exact ⟨front ++ back, write_append front back, isTokenized_append_iff.2 ⟨hfront, hback⟩⟩

/-- Where the characters of the items are no placeholder characters, a token in their text is one of them. -/
theorem exists_token_of_write (hwrite : write items = a ++ (placeholder j ++ b))
    (hitems : hasMark (charsOf items) = false) :
    ∃ front back, items = front ++ ([.token j] ++ back) ∧ write front = a ∧ write back = b := by
  induction items generalizing a with
  | nil => cases a <;> cases hwrite
  | cons item items ih =>
    have hparts : hasMark (charsOf [item]) = false ∧ hasMark (charsOf items) = false := by
      rwa [← List.singleton_append, charsOf_append, hasMark_append, Bool.or_eq_false_iff] at hitems
    obtain ⟨hitem, hbehind⟩ := hparts
    cases item with
    | char c =>
      cases a with
      | nil =>
        obtain ⟨rfl, -⟩ := List.cons.inj hwrite
        exact absurd hitem (by decide)
      | cons d a =>
        obtain ⟨rfl, hrest⟩ := List.cons.inj hwrite
        obtain ⟨front, back, rfl, rfl, rfl⟩ := ih hrest hbehind
        exact ⟨.char c :: front, back, rfl, rfl, rfl⟩
    | token n =>
      rw [write_token_cons] at hwrite
      by_cases ha : a = []
      · subst ha
        obtain rfl : n = j := eq_of_prefix_placeholder (hwrite ▸ List.prefix_append _ _)
        exact ⟨[], items, rfl, rfl, List.append_cancel_left hwrite⟩
      · obtain ⟨a, rfl⟩ := placeholder_prefix_of_prefix_append ha (hwrite ▸ List.prefix_append _ _)
        rw [List.append_assoc] at hwrite
        obtain ⟨front, back, rfl, rfl, rfl⟩ := ih (List.append_cancel_left hwrite) hbehind
        exact ⟨.token n :: front, back, rfl, rfl, rfl⟩

theorem onlyTokens_placeholder_iff : OnlyTokens low high (a ++ (placeholder j ++ b)) ↔
    OnlyTokens low high a ∧ (low ≤ j ∧ j < high) ∧ OnlyTokens low high b := by
  constructor
  · rintro ⟨items, hwrite, hitems⟩
    obtain ⟨front, back, rfl, rfl, rfl⟩ := exists_token_of_write hwrite hitems.unmarked
    rw [isTokenized_append_iff, isTokenized_append_iff, isTokenized_token_iff] at hitems
    exact ⟨⟨front, rfl, hitems.1⟩, hitems.2.1, ⟨back, rfl, hitems.2.2⟩⟩
  · rintro ⟨⟨front, rfl, hfront⟩, hj, ⟨back, rfl, hback⟩⟩
    refine ⟨front ++ ([.token j] ++ back), by rw [write_append]; rfl, ?_⟩
    rw [isTokenized_append_iff, isTokenized_append_iff, isTokenized_token_iff]
    exact ⟨hfront, hj, hback⟩

/-- A text without the token of `j` has nothing to lose when that token goes. -/
theorem onlyTokens_succ_iff (h : ¬ placeholder j <:+: s) : OnlyTokens (j + 1) high s ↔ OnlyTokens j high s := by
  constructor
  · rintro ⟨items, hwrite, hitems⟩
    refine ⟨items, hwrite, hitems.unmarked, fun n hn => ?_⟩
    obtain ⟨hlow, hhigh⟩ := hitems.numbered n hn
    exact ⟨Nat.le_of_succ_le hlow, hhigh⟩
  · rintro ⟨items, rfl, hitems⟩
    refine ⟨items, rfl, hitems.unmarked, fun n hn => ?_⟩
    obtain ⟨hlow, hhigh⟩ := hitems.numbered n hn
    refine ⟨Nat.lt_of_le_of_ne hlow ?_, hhigh⟩
    rintro rfl
    exact h (placeholder_infix_write (mem_numbers.1 hn))

/-- With no number to choose from, no placeholder character is left. -/
theorem onlyTokens_self_iff : OnlyTokens k k s ↔ hasMark s = false := by
  constructor
  · rintro ⟨items, rfl, hitems⟩
    have hchars : write items = charsOf items := by
      refine List.flatMap_congr fun item hitem => ?_
      cases item with
      | char c => rfl
      | token n =>
        obtain ⟨hlow, hhigh⟩ := hitems.numbered n (mem_numbers.2 hitem)
        omega
    rw [hchars, hitems.unmarked]
  · intro h
    exact ⟨s.map .char, write_chars s, by rwa [charsOf_chars], by simp⟩

/-! ## Putting the spans back -/

/-- No character at the ends of the text can be part of a token, whatever stands beside it. -/
structure IsSealed (span : List Char) : Prop where
  head : span.head? = some '\\'
  last : ∀ c ∈ span.getLast?, isTokenChar c = false

/-- One span is put back: what is left to be replaced is in the text and, if the span is needed, in the span. -/
theorem onlyTokens_replaceAll_iff (hspan : IsSealed span) (hj : j < high) :
    OnlyTokens (j + 1) high (replaceAll (placeholder j) span s) ↔
      OnlyTokens j high s ∧ (placeholder j <:+: s → OnlyTokens (j + 1) high span) := by
  induction s using placeholder_induction j with
  | free s hfree =>
    rw [replaceAll_eq_self (placeholder_ne_nil j) hfree, onlyTokens_succ_iff hfree]
    exact (and_iff_left fun h => absurd h hfree).symm
  | found a b ha ih =>
    have hfound : placeholder j <:+: a ++ (placeholder j ++ b) := ⟨a, b, List.append_assoc _ _ _⟩
    have hfront : ∀ c ∈ (span ++ replaceAll (placeholder j) span b).head?, isTokenChar c = false := by
      rw [List.head?_append, hspan.head, Option.some_or]
      rintro c ⟨⟩
      rfl
    rw [replaceAll_of_found ha, onlyTokens_append_iff (.inr hfront), onlyTokens_append_iff (.inl hspan.last), ih,
      onlyTokens_succ_iff ha, onlyTokens_placeholder_iff]
    constructor
    · rintro ⟨ha, hin, hb, -⟩
      exact ⟨⟨ha, ⟨Nat.le_refl j, hj⟩, hb⟩, fun _ => hin⟩
    · rintro ⟨⟨ha, -, hb⟩, hin⟩
      exact ⟨ha, hin hfound, hb, fun _ => hin hfound⟩

/-- What is left when all spans from the one of `j` on are put back, each of which is needed. -/
theorem hasMark_foldl_replaceAll {spans : List (List Char)} (hspans : ∀ span ∈ spans, IsSealed span)
    (hneeded : ∀ n, j ≤ n → n < j + spans.length → placeholder n <:+: s) :
    hasMark (((spans.zipIdx j).map fun (span, n) => (placeholder n, span)).foldl
        (fun s (token, span) => replaceAll token span s) s) = false ↔
      OnlyTokens j (j + spans.length) s ∧
        ∀ i span, spans[i]? = some span → OnlyTokens (j + i + 1) (j + spans.length) span := by
  induction spans generalizing j s with
  | nil => simp [onlyTokens_self_iff]
  | cons span spans ih =>
    obtain ⟨hspan, hspans⟩ := List.forall_mem_cons.1 hspans
    have hlength : j + (span :: spans).length = j + 1 + spans.length := by
      rw [List.length_cons]
      omega
    rw [hlength] at hneeded ⊢
    have hnext : ∀ n, j + 1 ≤ n → n < j + 1 + spans.length →
        placeholder n <:+: replaceAll (placeholder j) span s := fun n hlow hhigh =>
      placeholder_infix_replaceAll (by omega) (hneeded n (by omega) hhigh)
    rw [List.zipIdx_cons, List.map_cons, List.foldl_cons, ih hspans hnext,
      onlyTokens_replaceAll_iff hspan (by omega)]
    have hhere := hneeded j (Nat.le_refl j) (by omega)
    constructor
    · rintro ⟨⟨hs, hin⟩, hrest⟩
      refine ⟨hs, fun i found hfound => ?_⟩
      cases i with
      | zero =>
        obtain rfl : span = found := Option.some.inj hfound
        exact hin hhere
      | succ i =>
        have := hrest i found hfound
        rwa [show j + (i + 1) + 1 = j + 1 + i + 1 by omega]
    · rintro ⟨hs, hin⟩
      refine ⟨⟨hs, fun _ => hin 0 span rfl⟩, fun i found hfound => ?_⟩
      have := hin (i + 1) found hfound
      rwa [show j + 1 + i + 1 = j + (i + 1) + 1 by omega]

/-! ## Texts that are changed -/

theorem isTokenChar_of_isCommandLetter {c : Char} (hc : isCommandLetter c = true) : isTokenChar c = false := by
  have hletter := toNat_of_isAlpha hc
  refine Bool.eq_false_iff.2 fun htoken => ?_
  simp only [isTokenChar, Bool.or_eq_true, beq_iff_eq] at htoken
  rcases htoken with (rfl | rfl) | hdigit
  · exact absurd hc (by decide)
  · exact absurd hc (by decide)
  · rw [Char.isDigit, Bool.and_eq_true, decide_eq_true_eq, decide_eq_true_eq] at hdigit
    have hhigh : c.toNat ≤ 57 := hdigit.2
    omega

/-- A span of a text starts with a backslash and ends with a letter or a brace. -/
theorem isSealed_of_mem_protectFrom {covered : Nat} (h : span ∈ (Placeholders.protectFrom n covered s).1) :
    IsSealed span := by
  refine ⟨(slash_infix_of_mem_protectFrom h).1, ?_⟩
  fun_induction Placeholders.protectFrom n covered s with
  | case1 => cases h
  | case2 n covered c s m l hm token hcov found out hrec ih =>
    rw [hrec] at ih
    exact ih h
  | case3 n covered c s kind l hm token hcov hword tail found out hrec ih =>
    rcases List.mem_cons.1 h with rfl | h
    · intro d hd
      rw [List.getLast?_append, Option.mem_def, Option.or_eq_some_iff] at hd
      rcases hd with hbrace | ⟨-, hletter⟩
      · obtain rfl := getLast?_commandTail token (s.drop l) d hbrace
        rfl
      · obtain ⟨name, rest, rfl, rfl, hname, rfl⟩ := exists_word_of_munch hm hword
        simp only [token, List.take_left, List.getLast?_cons_of_ne_nil hname.ne_nil] at hletter
        exact isTokenChar_of_isCommandLetter (hname.letters d (List.mem_of_getLast? hletter))
    · rw [hrec] at ih
      exact ih h
  | case4 n covered c s kind l hm token hcov hword found out hrec ih =>
    rw [hrec] at ih
    exact ih h

/-- All placeholder characters of the text go away when the spans are put back: outside of the spans they belong
to tokens of the map, and in a span to tokens of later ones. -/
structure IsForged (s : List Char) : Prop where
  marked : hasMark s = true
  outside : OnlyTokens 0 (Placeholders.empty.protect s).1.size (Placeholders.empty.protect s).2
  inside : ∀ i span, (Placeholders.empty.protect s).1.spans[i]? = some span →
    OnlyTokens (i + 1) (Placeholders.empty.protect s).1.size span

theorem placeholder_infix_protect (hn : n < (Placeholders.empty.protect s).1.size) :
    placeholder n <:+: (Placeholders.empty.protect s).2 := by
  rw [protect_empty] at hn ⊢
  refine placeholder_infix_write (mem_numbers.1 ?_)
  rw [numbers_itemsFrom, List.mem_range'_1]
  exact ⟨Nat.zero_le n, by simpa [Placeholders.size] using hn⟩

theorem hasMark_restore_protect (s : List Char) :
    hasMark ((Placeholders.empty.protect s).1.restore (Placeholders.empty.protect s).2) = false ↔
      OnlyTokens 0 (Placeholders.empty.protect s).1.size (Placeholders.empty.protect s).2 ∧
        ∀ i span, (Placeholders.empty.protect s).1.spans[i]? = some span →
          OnlyTokens (i + 1) (Placeholders.empty.protect s).1.size span := by
  have hsealed : ∀ span ∈ (Placeholders.empty.protect s).1.spans, IsSealed span := by
    rw [protect_empty]
    exact fun span => isSealed_of_mem_protectFrom
  have hneeded : ∀ n, 0 ≤ n → n < 0 + (Placeholders.empty.protect s).1.spans.length →
      placeholder n <:+: (Placeholders.empty.protect s).2 := by
    intro n _ hn
    rw [Nat.zero_add] at hn
    exact placeholder_infix_protect hn
  have h := hasMark_foldl_replaceAll hsealed hneeded
  simp only [Nat.zero_add] at h
  exact h

/-- Without a change of the protected text nothing is missing in it. -/
theorem withCommandsProtected_ok (stage : String) (s : List Char) :
    withCommandsProtected stage s .ok =
      if hasMark ((Placeholders.empty.protect s).1.restore (Placeholders.empty.protect s).2) then
        .error ⟨stage, .leaked⟩
      else .ok ((Placeholders.empty.protect s).1.restore (Placeholders.empty.protect s).2) := by
  have hkept : (Placeholders.empty.protect s).1.firstMissing? (Placeholders.empty.protect s).2 = none :=
    firstMissing?_eq_none_iff.2 fun n => placeholder_infix_protect
  rw [withCommandsProtected]
  simp only [hkept, bind, Except.bind]
  rfl

/-- **Protection without a change.** The result is never another text, exactly if no placeholder characters are
forged so that all of them go away. A text without them comes back; one with them is reported, or else forged. -/
theorem withCommandsProtected_unchanged (stage : String) (s : List Char) :
    ((∀ r, withCommandsProtected stage s .ok = .ok r → r = s) ↔ ¬ IsForged s) ∧
      (hasMark s = false → withCommandsProtected stage s .ok = .ok s) ∧
      (IsForged s → ∃ r, withCommandsProtected stage s .ok = .ok r ∧ hasMark r = false) ∧
      (hasMark s = true → ¬ IsForged s → withCommandsProtected stage s .ok = .error ⟨stage, .leaked⟩) := by
  have hrestored := hasMark_restore_protect s
  have hplain : hasMark s = false → withCommandsProtected stage s .ok = .ok s := by
    intro hs
    have hback := (Placeholders.empty.denotes_protect s).restore_eq hs
    rw [withCommandsProtected_ok, hback, hs]
    rfl
  have hforged : IsForged s → ∃ r, withCommandsProtected stage s .ok = .ok r ∧ hasMark r = false := by
    intro h
    have hclean := hrestored.2 ⟨h.outside, h.inside⟩
    exact ⟨_, by rw [withCommandsProtected_ok, hclean]; rfl, hclean⟩
  have hleaked : hasMark s = true → ¬ IsForged s → withCommandsProtected stage s .ok = .error ⟨stage, .leaked⟩ := by
    intro hs h
    have hleft : ¬ hasMark ((Placeholders.empty.protect s).1.restore (Placeholders.empty.protect s).2) = false :=
      fun hclean => h ⟨hs, (hrestored.1 hclean).1, (hrestored.1 hclean).2⟩
    rw [withCommandsProtected_ok, if_pos (by simpa using hleft)]
  refine ⟨⟨fun hsame h => ?_, fun h r hr => ?_⟩, hplain, hforged, hleaked⟩
  · obtain ⟨r, hr, hclean⟩ := hforged h
    rw [hsame r hr, h.marked] at hclean
    cases hclean
  · cases hs : hasMark s with
    | false => exact (Except.ok.inj ((hplain hs).symm.trans hr)).symm
    | true =>
      rw [hleaked hs h] at hr
      cases hr

/-- A token of the span in front of it stands for that span, too. -/
theorem withCommandsProtected_doubled :
    withCommandsProtected "rows" ("\\alpha".toList ++ placeholder 0) .ok = .ok "\\alpha\\alpha".toList ∧
      ¬ ∀ stage s r, withCommandsProtected stage s .ok = .ok r → r = s := by
  have hdoubled : withCommandsProtected "rows" ("\\alpha".toList ++ placeholder 0) .ok =
      .ok "\\alpha\\alpha".toList := by decide +kernel
  refine ⟨hdoubled, fun h => ?_⟩
  have hsame := h _ _ _ hdoubled
  exact absurd hsame (by decide)

end MathMarkup.Tex
