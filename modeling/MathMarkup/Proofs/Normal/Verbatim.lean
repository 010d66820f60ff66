import MathMarkup.Proofs.Normal.Frame
import MathMarkup.Proofs.Normal.Idempotence
import MathMarkup.Proofs.Normal.Weave

/-!
# Arguments of `\text` survive verbatim

Normalizing keeps the spans that protecting finds, in order (`inOrder_filled`), and the cosmetic rules for
spaces write in front of `\text` only (`InOrder.spacing`). The other two cosmetic rules find nothing: every
brace of the text opens an argument of `\text` or stands in the frame (`Braced`).

Main theorem: `text_normalize`.
-/

namespace MathMarkup.Tex

open Text

variable {m : Mode} {a s t x y : List Char} {as ws vs : List (List Char)} {p : Placeholders}
  {items : List Item} {accepts : Char → Bool} {space : List Char} {ok : Bool}

/-! ## Words in order -/

/-- The words stand in the text one behind the other. -/
def InOrder : List (List Char) → List Char → Prop
  | [], _ => True
  | w :: ws, s => ∃ a b, s = a ++ (w ++ b) ∧ InOrder ws b

theorem InOrder.append_left (h : InOrder ws s) (a : List Char) : InOrder ws (a ++ s) := by
  cases ws with
  | nil => trivial
  | cons w ws =>
    obtain ⟨b, rest, rfl, hrest⟩ := h
    exact ⟨a ++ b, rest, (List.append_assoc _ _ _).symm, hrest⟩

theorem InOrder.append_right (h : InOrder ws s) (a : List Char) : InOrder ws (s ++ a) := by
  induction ws generalizing s with
  | nil => trivial
  | cons w ws ih =>
    obtain ⟨b, rest, rfl, hrest⟩ := h
    exact ⟨b, rest ++ a, by simp, ih hrest⟩

theorem InOrder.sublist (h : InOrder ws s) (hvs : vs.Sublist ws) : InOrder vs s := by
  induction hvs generalizing s with
  | slnil => trivial
  | cons w hvs ih =>
    obtain ⟨a, b, rfl, hrest⟩ := h
    exact ((ih hrest).append_left w).append_left a
  | cons_cons w hvs ih =>
    obtain ⟨a, b, rfl, hrest⟩ := h
    exact ⟨a, b, rfl, ih hrest⟩

/-- Spans that are filled in stand in the order of their tokens. -/
theorem inOrder_filled (p : Placeholders) (items : List Item) :
    InOrder ((numbers items).map fun n => p.spans.getD n []) (p.filled items) := by
  induction items with
  | nil => trivial
  | cons item items ih =>
    cases item with
    | char c => exact ih.append_left [c]
    | token n => exact ⟨[], p.filled items, rfl, ih⟩

theorem map_range_getD (p : Placeholders) : ((List.range p.size).map fun n => p.spans.getD n []) = p.spans := by
  refine List.ext_getElem (by simp [Placeholders.size]) fun n _ hn => ?_
  simp [hn]

/-! ## Spaces -/

/-- An argument of `\text` is left alone. -/
theorem substitute_spacing_textSpan (haccepts : ∀ c, accepts c = true → spacesItself c = false)
    (ha : ∀ c ∈ a, isBrace c = false) (s : List Char) :
    substitute (spacing accepts space) (textSpan a ++ s) = textSpan a ++ substitute (spacing accepts space) s := by
  have hassoc : ∀ s, textSpan a ++ s = textOpen ++ (a ++ '}' :: s) := by simp [textSpan]
  rw [hassoc, substitute_spacing_textOpen haccepts, substitute_spacing_flat haccepts ha, hassoc]

theorem InOrder.spacing (h : InOrder (as.map textSpan) s) (haccepts : ∀ c, accepts c = true → spacesItself c = false)
    (has : ∀ a ∈ as, ∀ c ∈ a, isBrace c = false) :
    InOrder (as.map textSpan) (substitute (spacing accepts space) s) := by
  induction as generalizing s with
  | nil => trivial
  | cons a as ih =>
    obtain ⟨x, b, rfl, hrest⟩ := h
    obtain ⟨ha, has⟩ := List.forall_mem_cons.1 has
    obtain ⟨y, hy⟩ := exists_substitute_spacing_append haccepts space x (textSpan a ++ b)
    rw [substitute_spacing_textSpan haccepts ha] at hy
    exact ⟨y, _, hy, ih hrest has⟩

/-! ## Braces -/

/-- A letter that a brace may open behind: the last one of `\text`, `\begin` and `\end`. -/
def opensBehind (c : Char) : Bool := c == 't' || c == 'n' || c == 'd'

/-- Every opening brace stands behind such a letter; one at the start of the text may, or may not. -/
def Braced : Bool → List Char → Prop
  | _, [] => True
  | ok, c :: s => (c = '{' → ok = true) ∧ Braced (opensBehind c) s

theorem Braced.mono (h : Braced false s) (ok : Bool) : Braced ok s := by
  cases s with
  | nil => trivial
  | cons c s => exact ⟨fun hc => absurd (h.1 hc) Bool.false_ne_true, h.2⟩

theorem Braced.append (hs : Braced ok s) (ht : Braced false t) : Braced ok (s ++ t) := by
  induction s generalizing ok with
  | nil => exact ht.mono ok
  | cons c s ih => exact ⟨hs.1, ih hs.2⟩

theorem braced_of_notMem (h : '{' ∉ s) (ok : Bool) : Braced ok s := by
  induction s generalizing ok with
  | nil => trivial
  | cons c s ih =>
    rw [List.mem_cons, not_or] at h
    exact ⟨fun hc => absurd hc.symm h.1, ih h.2 _⟩

theorem braced_textSpan (ha : ∀ c ∈ a, isBrace c = false) : Braced false (textSpan a) := by
  have hflat : '{' ∉ a ++ ['}'] := by
    rw [List.mem_append, not_or]
    exact ⟨fun hmem => absurd (ha '{' hmem) (by decide), by decide⟩
  have hopen : Braced false textOpen := by simp [textOpen, Braced, opensBehind]
  rw [textSpan, List.append_assoc]
  exact hopen.append (braced_of_notMem hflat false)

theorem Braced.of_append (h : Braced ok (x ++ s)) : ∃ ok', Braced ok' s := by
  induction x generalizing ok with
  | nil => exact ⟨ok, h⟩
  | cons c x ih => exact ih h.2

theorem Braced.spacing (h : Braced ok s) (haccepts : ∀ c, accepts c = true → spacesItself c = false)
    (hspace : '{' ∉ space) : Braced ok (substitute (spacing accepts space) s) := by
  induction s generalizing ok with
  | nil =>
    rw [substitute_nil]
    trivial
  | cons c s ih =>
    rw [substitute_spacing_cons haccepts]
    refine ⟨h.1, ?_⟩
    have hrest := ih h.2
    by_cases hgap : accepts c = true ∧ textOpen <+: s
    · rw [gap, if_pos hgap]
      obtain ⟨-, rest, rfl⟩ := hgap
      rw [substitute_spacing_textOpen haccepts] at hrest ⊢
      -- `\text` starts with no brace
      have hfalse : Braced false (textOpen ++ substitute (Tex.spacing accepts space) rest) :=
        ⟨fun hc => absurd hc (by decide), hrest.2⟩
      exact (braced_of_notMem hspace _).append hfalse
    · rw [gap, if_neg hgap]
      exact hrest

theorem Braced.quiet_doubledBracesRule (h : Braced ok s) : Quiet doubledBracesRule s := by
  rintro y ⟨x, rfl⟩
  obtain ⟨ok', hy⟩ := h.of_append
  cases hrule : doubledBracesRule y with
  | none => rfl
  | some found =>
    obtain ⟨out, rest⟩ := found
    obtain ⟨body, -, rfl, -⟩ := doubledBracesRule_eq_some_iff.1 hrule
    simp [textOpen, Braced, opensBehind] at hy

theorem Braced.quiet_coloredTokenRule (h : Braced ok s) : Quiet coloredTokenRule s := by
  rintro y ⟨x, rfl⟩
  obtain ⟨ok', hy⟩ := h.of_append
  cases hrule : coloredTokenRule y with
  | none => rfl
  | some found =>
    obtain ⟨out, rest⟩ := found
    obtain ⟨color, behind, token, -, rfl, -⟩ := coloredTokenRule_eq_some hrule
    simp [colorOpen, Braced, opensBehind] at hy

/-- **The cosmetic rules** leave the arguments of `\text` alone in a text without other braces. -/
theorem InOrder.cosmetic (h : InOrder (as.map textSpan) s) (has : ∀ a ∈ as, ∀ c ∈ a, isBrace c = false)
    (hs : Braced ok s) : InOrder (as.map textSpan) (cosmetic s) := by
  have hthin : ∀ c, (c.isAlphanum || c == ')' || c == ']') = true → spacesItself c = false := fun _ =>
    spacesItself_eq_false_of_accepted
  have hspaced : Braced ok (substitute thinSpaceRule s) := by
    rw [thinSpaceRule_eq_spacing]
    exact hs.spacing hthin (by decide)
  rw [Tex.cosmetic, hspaced.quiet_doubledBracesRule.substitute_eq_self,
    hspaced.quiet_coloredTokenRule.substitute_eq_self, thinSpaceRule_eq_spacing, spaceRule_eq_spacing]
  exact (h.spacing hthin has).spacing not_spacesItself has

/-! ## The normal form -/

theorem braced_filled (hchars : '{' ∉ charsOf items) (hspans : ∀ span ∈ p.spans, Braced false span) :
    Braced false (p.filled items) := by
  induction items with
  | nil => trivial
  | cons item items ih =>
    rw [← List.singleton_append, charsOf_append, List.mem_append, not_or] at hchars
    rw [p.filled_cons]
    refine Braced.append ?_ (ih hchars.2)
    cases item with
    | char c => exact braced_of_notMem hchars.1 false
    | token n =>
      rw [Item.fill]
      cases hspan : p.spans[n]? with
      | none =>
        rw [List.getD_eq_getElem?_getD, hspan]
        trivial
      | some span =>
        rw [List.getD_eq_getElem?_getD, hspan]
        exact hspans span (List.mem_of_getElem? hspan)

/-- The arguments that a bare expression weaves stand in its normal form. -/
theorem inOrder_normalizeBody (h : Weaves .plain as (stripDisplay s)) (hmark : hasMark s = false)
    (has : ∀ a ∈ as, ∀ c ∈ a, isBrace c = false) :
    ∃ body, normalizeBody s = .ok body ∧ InOrder (as.map textSpan) body := by
  obtain ⟨p, guarded, hp⟩ : ∃ p guarded, Placeholders.empty.protect (stripDisplay s) = (p, guarded) := ⟨_, _, rfl⟩
  have hbare := hasMark_eq_false_of_subset hmark (stripDisplay_subset s)
  obtain ⟨items, hcontent, hok, -⟩ := exists_items_of_normalizeLines "line normalizer" hbare hp
  have hfound := found_of_weaves h Mode.noConfusion 0
  rw [resume_of_ne Mode.noConfusion] at hfound
  have hspans : (Placeholders.protectFrom 0 0 (stripDisplay s)).1 = p.spans :=
    congrArg (fun q => q.1.spans) ((protect_empty _).symm.trans hp)
  -- the rows hold the tokens of the protected text in order, and no brace
  have hnumbers : numbers items = List.range p.size := by
    rw [← numbers_contentOf, hcontent, numbers_contentOf, numbers_protect hp]
  have horder : InOrder (as.map textSpan) (p.filled items) := by
    have hall := inOrder_filled p items
    rw [hnumbers, map_range_getD] at hall
    exact hall.sublist (hspans ▸ hfound.inOrder)
  have hchars : '{' ∉ charsOf items := by
    intro hmem
    have hkept : '{' ∈ charsOf (contentOf items) := by
      rw [charsOf_contentOf]
      exact List.mem_filter.2 ⟨hmem, by decide⟩
    rw [hcontent, charsOf_contentOf] at hkept
    have hout := charsOf_subset_write _ (List.mem_filter.1 hkept).1
    rw [← protectFrom_snd] at hout
    exact absurd (hfound.outside '{' hout) (by decide)
  have hbraced : Braced false (p.filled items) := by
    refine braced_filled hchars fun span hspan => ?_
    rcases hfound.spans span (hspans ▸ hspan) with hmem | hflat
    · obtain ⟨a, ha, rfl⟩ := List.mem_map.1 hmem
      exact braced_textSpan (has a ha)
    · exact braced_of_notMem (fun hmem => absurd (hflat '{' hmem) (by decide)) false
  have hframed : Braced false (inFrame (p.filled items)) := by
    have hopening : Braced false alignOpening := by simp [alignOpening, Braced, opensBehind]
    have hclosing : Braced false alignClosing := by simp [alignClosing, Braced, opensBehind]
    exact (hopening.append hbraced).append hclosing
  refine ⟨cosmetic (inFrame (p.filled items)), by rw [normalizeBody, hok]; rfl, ?_⟩
  exact InOrder.cosmetic ((horder.append_left alignOpening).append_right alignClosing) has hframed

/-! ## Woven texts -/

/-- A piece, and behind it arguments of `\text`, each with the piece behind it. -/
def woven (front : List Char) (spans : List (List Char × List Char)) : List Char :=
  front ++ spans.flatMap fun (a, piece) => textSpan a ++ piece

/-- Backslashes in pairs at the end leave no escape behind. -/
theorem trailingBackslashes_of_after (hm : m ≠ .escaped) (s : List Char) :
    (m.after s = .escaped → trailingBackslashes s % 2 = 1) ∧ (m.after s = .plain → trailingBackslashes s % 2 = 0) := by
  induction s using List.reverseRecOn with
  | nil => exact ⟨fun h => absurd h hm, fun _ => rfl⟩
  | append_singleton s c ih =>
    rw [after_append]
    by_cases hslash : c = '\\'
    · subst hslash
      rw [trailingBackslashes_concat]
      -- a backslash opens an escape, ends one, or is part of a comment
      cases hs : m.after s with
      | plain =>
        have heven := ih.2 hs
        exact ⟨fun _ => by omega, fun h => absurd h Mode.noConfusion⟩
      | escaped =>
        have hodd := ih.1 hs
        exact ⟨fun h => absurd h Mode.noConfusion, fun _ => by omega⟩
      | comment => exact ⟨fun h => absurd h Mode.noConfusion, fun h => absurd h Mode.noConfusion⟩
    · refine ⟨fun h => absurd (next_eq_escaped h) hslash, fun _ => ?_⟩
      rw [trailingBackslashes_append hslash]
      rfl

theorem after_eq_plain_of_even (hm : m ≠ .escaped) (heven : trailingBackslashes s % 2 = 0) (hs : m.after s ≠ .comment) :
    m.after s = .plain := by
  cases hafter : m.after s with
  | plain => rfl
  | escaped =>
    have hodd := (trailingBackslashes_of_after hm s).1 hafter
    omega
  | comment => exact absurd hafter hs

theorem weaves_woven {front : List Char} {spans : List (List Char × List Char)} (hm : m ≠ .escaped)
    (hfront : IsFlat front) (hspans : ∀ span ∈ spans, IsFlat span.1 ∧ IsFlat span.2)
    (hcomment : ∀ before after, spans = before ++ after → after ≠ [] → m.after (woven front before) ≠ .comment) :
    Weaves m (spans.map Prod.fst) (woven front spans) := by
  induction spans generalizing m front with
  | nil => exact fun c hc => hfront.plain c (by simpa [woven] using hc)
  | cons span spans ih =>
    obtain ⟨⟨ha, hpiece⟩, hspans⟩ := List.forall_mem_cons.1 hspans
    have hfirst : m.after front = .plain := by
      refine after_eq_plain_of_even hm hfront.even ?_
      have := hcomment [] (span :: spans) rfl (List.cons_ne_nil _ _)
      rwa [woven, List.flatMap_nil, List.append_nil] at this
    refine ⟨front, woven span.2 spans, ?_, hfront.plain, hfirst, ha, ?_⟩
    · simp [woven]
    · refine ih (after_textSpan_ne _) hpiece hspans fun before after hsplit hne => ?_
      have := hcomment (span :: before) after (by rw [hsplit]; rfl) hne
      rw [woven, List.flatMap_cons, after_append, hfirst, List.append_assoc, after_append] at this
      exact this

/-- **Arguments of `\text` survive verbatim.** Without sanitizing, for every text that weaves arguments
without braces into pieces without braces, none of them with an odd number of backslashes at its end: when
no argument stands in a comment, all of them stand in the normal form, in order and unchanged, whatever line
breaks, alignment tabs and percent signs they hold. -/
theorem text_normalize (config : Config) (front : List Char) (spans : List (List Char × List Char))
    (hconfig : config.sanitize = false) (hmark : hasMark (woven front spans) = false) (hfront : IsFlat front)
    (hspans : ∀ span ∈ spans, IsFlat span.1 ∧ IsFlat span.2)
    (hcomment : ∀ before after, spans = before ++ after → after ≠ [] →
      ∀ token ∈ (tokens (woven front before)).getLast?, token.kind ≠ .comment) :
    InOrder (spans.map fun span => textSpan span.1) (normalize config (woven front spans)).normalized := by
  have hweaves : Weaves .plain (spans.map Prod.fst) (woven front spans) := by
    refine weaves_woven Mode.noConfusion hfront hspans fun before after hsplit hne hopen => ?_
    obtain ⟨token, htoken, hkind⟩ := (after_eq_comment_iff 0 _).1 hopen
    exact hcomment before after hsplit hne token htoken hkind
  have hargs : ∀ a ∈ spans.map Prod.fst, ∀ c ∈ a, isBrace c = false := by
    intro a ha
    obtain ⟨span, hspan, rfl⟩ := List.mem_map.1 ha
    exact (hspans span hspan).1.plain
  obtain ⟨body, hbody, horder⟩ := inOrder_normalizeBody hweaves.stripDisplay hmark hargs
  rw [List.map_map] at horder
  rw [normalized_normalize hconfig hbody, wrapDisplay]
  exact (horder.append_left ['\\', '[']).append_right ['\\', ']']

/-- A row separator and a tab in one argument, and in the next one a comment that ends with its line. -/
theorem text_normalize_breaks :
    InOrder [textSpan "a\\\\b&".toList, textSpan "50%\nc".toList]
      (normalize { sanitize := false } (woven "x".toList
        [("a\\\\b&".toList, "\\\\".toList), ("50%\nc".toList, " y".toList)])).normalized := by
  refine text_normalize { sanitize := false } _ [(_, _), (_, _)] rfl (by decide +kernel) (by decide) ?_ ?_
  · intro span hspan
    simp only [List.mem_cons, List.not_mem_nil, or_false] at hspan
    rcases hspan with rfl | rfl
    · exact ⟨by decide, by decide⟩
    · exact ⟨by decide, by decide⟩
  · intro before after hsplit hne
    match before, hsplit with
    | [], _ => decide +kernel
    | [span], hsplit =>
      obtain ⟨rfl, -⟩ := List.cons.inj hsplit
      decide +kernel
    | [_, _], hsplit => exact absurd (List.cons.inj (List.cons.inj hsplit).2).2.symm hne

/-- A comment that opens in an argument hides the next argument, whose row separator becomes one of the rows. -/
theorem text_normalize_comment :
    hasMark (woven [] [("%".toList, []), ("a\\\\b".toList, [])]) = false ∧
      (∀ a ∈ ["%".toList, "a\\\\b".toList], IsFlat a) ∧
      ¬ textSpan "a\\\\b".toList <:+: (normalize { sanitize := false }
        (woven [] [("%".toList, []), ("a\\\\b".toList, [])])).normalized := by
  refine ⟨by decide, ?_, by decide +kernel⟩
  intro a ha
  simp only [List.mem_cons, List.not_mem_nil, or_false] at ha
  rcases ha with rfl | rfl
  · decide
  · decide

end MathMarkup.Tex
