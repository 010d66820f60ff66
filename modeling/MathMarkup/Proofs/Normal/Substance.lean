import MathMarkup.Proofs.Normal.Frame
import MathMarkup.Proofs.Normal.Idempotence

/-!
# Nothing is lost in the normal form

The line normalizer changes blanks, backslashes and alignment tabs only, and each cosmetic rule writes
what it matched with a space, a thin space or a pair of braces more or less (`Conserves`). So the bare
expression of the normal form is the bare expression it was made from, in the same order, when these
characters and commas are left out.

Main theorem: `substance_normalize`.
-/

namespace MathMarkup.Tex

open Text

variable {rule : List Char → Option (List Char × List Char)}
  {s : List Char} {c : Char}

/-! ## Substance -/

/-- A character that normalizing may add, move or take away. -/
def isDressing (c : Char) : Bool := isBlank c || c == '{' || c == '}' || c == '\\' || c == ',' || c == '&'

/-- The text without blanks, braces, backslashes, commas and alignment tabs. -/
def substance (s : List Char) : List Char := s.filter fun c => !isDressing c

@[simp] theorem substance_append (s t : List Char) : substance (s ++ t) = substance s ++ substance t :=
  List.filter_append s t

theorem substance_cons (c : Char) (s : List Char) : substance (c :: s) = substance [c] ++ substance s :=
  substance_append [c] s

theorem substance_cons_of_isDressing (hc : isDressing c = true) (s : List Char) : substance (c :: s) = substance s :=
  List.filter_cons_of_neg (by simp [hc])

theorem isDressing_of_isLayout (h : isLayout c = true) : isDressing c = true := by
  simp only [isLayout, Bool.or_eq_true] at h
  rcases h with (h | h) | h <;> simp [isDressing, h]

theorem substance_eq_nil (h : ∀ c ∈ s, isDressing c = true) : substance s = [] :=
  List.filter_eq_nil_iff.2 fun c hc => by simp [h c hc]

theorem substance_trim (s : List Char) : substance (trim s) = substance s := by
  have hblank : ∀ c, isBlank c = true → isDressing c = true := fun c hc =>
    isDressing_of_isLayout (isLayout_of_isBlank hc)
  obtain ⟨a, b, hs, ha, hb⟩ := append_trim s
  conv => rhs; rw [hs]
  rw [substance_append, substance_append, substance_eq_nil fun c hc => hblank c (ha c hc),
    substance_eq_nil fun c hc => hblank c (hb c hc), List.nil_append, List.append_nil]

/-! ## Rows -/

/-- The content of the items tells the substance of what is filled in. -/
theorem substance_filled (p : Placeholders) (items : List Item) :
    substance (p.filled (contentOf items)) = substance (p.filled items) := by
  induction items with
  | nil => rfl
  | cons item items ih =>
    rw [p.filled_cons, substance_append, ← ih, contentOf]
    by_cases hitem : item.isContent = true
    · rw [List.filter_cons_of_pos hitem, p.filled_cons, substance_append, contentOf]
    · rw [List.filter_cons_of_neg hitem]
      cases item with
      | token n => exact absurd rfl hitem
      | char c =>
        have hlayout : isLayout c = true := by simpa [Item.isContent] using hitem
        rw [Item.fill, substance_cons_of_isDressing (isDressing_of_isLayout hlayout)]
        rfl

/-- **The protected pass** keeps the substance. -/
theorem substance_normalizeLines (stage : String) (h : hasMark s = false) :
    ∃ t, withCommandsProtected stage s (fun p => .ok (normalizeLines p)) = .ok (inFrame t) ∧
      hasMark (inFrame t) = false ∧ substance t = substance s := by
  obtain ⟨p, guarded, hp⟩ : ∃ p guarded, Placeholders.empty.protect s = (p, guarded) := ⟨_, _, rfl⟩
  obtain ⟨items, hcontent, hok, hunmarked⟩ := exists_items_of_normalizeLines stage h hp
  refine ⟨p.filled items, hok, hunmarked, ?_⟩
  rw [← substance_filled, hcontent, substance_filled, filled_itemsFrom h hp]

/-! ## Cosmetic fixes -/

/-- What the rule writes has the substance of what it matched. -/
def Conserves (rule : List Char → Option (List Char × List Char)) : Prop :=
  ∀ s out rest, rule s = some (out, rest) → substance s = substance out ++ substance rest

theorem Conserves.substance_substitute (h : Conserves rule) (s : List Char) :
    substance (substitute rule s) = substance s := by
  fun_induction substitute rule s with
  | case1 => rfl
  | case2 c s hnone ih => rw [substance_cons, ih, ← substance_cons]
  | case3 c s out rest hsome hlen ih => rw [substance_append, ih, ← h _ _ _ hsome]
  | case4 c s out rest hsome hlen ih => rw [substance_cons, ih, ← substance_cons]

theorem conserves_spacing {accepts : Char → Bool} {space : List Char} (hspace : substance space = []) :
    Conserves (spacing accepts space) := by
  intro s out rest h
  obtain ⟨c, -, rfl, rfl⟩ := spacing_eq_some_iff.1 h
  rw [substance_cons, substance_cons c (space ++ textOpen), substance_append, substance_append, hspace,
    List.nil_append, List.append_assoc]

theorem conserves_doubledBracesRule : Conserves doubledBracesRule := by
  intro s out rest h
  obtain ⟨body, -, rfl, rfl⟩ := doubledBracesRule_eq_some_iff.1 h
  have hopen := substance_cons_of_isDressing (c := '{') rfl
  have hclose := substance_cons_of_isDressing (c := '}') rfl
  simp only [substance_append, hopen, hclose, List.append_assoc]
  rfl

theorem conserves_coloredTokenRule : Conserves coloredTokenRule := by
  intro s out rest h
  obtain ⟨color, behind, token, -, rfl, htoken, rfl⟩ := coloredTokenRule_eq_some h
  have hopen := substance_cons_of_isDressing (c := '{') rfl
  have hclose := substance_cons_of_isDressing (c := '}') rfl
  rw [append_of_colored? htoken]
  simp only [substance_append, hopen, hclose, List.append_assoc]
  rfl

theorem substance_cosmetic (s : List Char) : substance (cosmetic s) = substance s := by
  have hthin : Conserves thinSpaceRule := thinSpaceRule_eq_spacing ▸ conserves_spacing rfl
  have hspace : Conserves spaceRule := spaceRule_eq_spacing ▸ conserves_spacing rfl
  rw [cosmetic, hspace.substance_substitute, conserves_coloredTokenRule.substance_substitute,
    conserves_doubledBracesRule.substance_substitute, hthin.substance_substitute]

/-! ## The normal form -/

theorem inFrame_eq_framed (s : List Char) : inFrame s = spell (framed (s.map .char)) := by
  rw [spell_framed, spell_chars]
  rfl

/-- The bare expression of a text in the frame between display brackets is that text, trimmed. -/
theorem stripDisplay_wrapDisplay_inFrame (s : List Char) :
    stripDisplay (wrapDisplay (inFrame s)) = trim (' ' :: (s ++ [' '])) := by
  rw [inFrame_eq_framed, stripDisplay_wrapDisplay_framed, spell_chars]

/-- **No content is lost or reordered.** Without sanitizing, for every raw text without placeholder
characters: the bare expression of the normal form and that of the raw text are the same text when blanks,
braces, backslashes, commas and alignment tabs are left out. -/
theorem substance_normalize (config : Config) (raw : List Char) (hconfig : config.sanitize = false)
    (h : hasMark raw = false) :
    substance (stripDisplay (normalize config raw).normalized) = substance (stripDisplay raw) := by
  have hbare : hasMark (stripDisplay raw) = false := hasMark_eq_false_of_subset h (stripDisplay_subset raw)
  obtain ⟨aligned, haligned, hunmarked, hsame⟩ := substance_normalizeLines "line normalizer" hbare
  obtain ⟨fixed, hfixed, -⟩ := exists_cosmetic_inFrame aligned hunmarked
  have hbody : normalizeBody raw = .ok (inFrame fixed) := by
    rw [normalizeBody, haligned, ← hfixed]
    rfl
  have hframed : substance (inFrame fixed) = substance (inFrame aligned) := by rw [← hfixed, substance_cosmetic]
  have hkept : substance fixed = substance aligned := by
    simpa only [inFrame, substance_append, List.append_cancel_left_eq, List.append_cancel_right_eq] using hframed
  have hspaces : substance (' ' :: (fixed ++ [' '])) = substance fixed := by
    rw [substance_cons_of_isDressing rfl, substance_append]
    exact List.append_nil _
  rw [normalized_normalize hconfig hbody, stripDisplay_wrapDisplay_inFrame, substance_trim, hspaces, hkept, hsame]

/-- A group and an environment that are not closed, empty rows, an escape, a color and a comment. -/
theorem substance_normalize_unclosed :
    hasMark "$$\x7ba\\\\ \\\\&\\begin\x7bcases\x7d1\\text\x7b\x7bb\x7d\x7d\\%\\\\\\color\x7bred\x7dx%c\\\\d$$".toList = false ∧
    substance (stripDisplay (normalize { sanitize := false }
      "$$\x7ba\\\\ \\\\&\\begin\x7bcases\x7d1\\text\x7b\x7bb\x7d\x7d\\%\\\\\\color\x7bred\x7dx%c\\\\d$$".toList).normalized) =
      substance (stripDisplay
        "$$\x7ba\\\\ \\\\&\\begin\x7bcases\x7d1\\text\x7b\x7bb\x7d\x7d\\%\\\\\\color\x7bred\x7dx%c\\\\d$$".toList) :=
  ⟨by decide, substance_normalize _ _ rfl (by decide)⟩

end MathMarkup.Tex
