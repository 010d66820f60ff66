import MathMarkup.Proofs.Rows.Grid

/-!
# Rows and what stands between them

Blanks and line breaks in front of a text change nothing in its rows (`textRows_gap_append`), and a separator
behind a row ends it (`textRows_row_append`). So the rows of a text are the ones it was written from, whatever
separators were chosen (`SpacedRows.textRows_text`), and the line normalizer sees nothing else.
-/

namespace MathMarkup.Tex

open Text

variable {a b g r s t : List Char}

/-! ## Gaps -/

/-- Line breaks, with blanks around and between them. -/
def isGap : List Char → Bool
  | [] => true
  | '\\' :: '\\' :: s => isGap s
  | c :: s => isBlank c && isGap s

/-- A gap with a line break in it. -/
structure IsSeparator (s : List Char) : Prop where
  gap : isGap s = true
  marked : lineBreak <:+: s

/-- A gap is blanks, and then there may be a line break and a gap. -/
theorem isGap_cases (hg : isGap g = true) :
    (∀ c ∈ g, isBlank c = true) ∨
      ∃ a g', g = a ++ lineBreak ++ g' ∧ (∀ c ∈ a, isBlank c = true) ∧ isGap g' = true := by
  fun_induction isGap g with
  | case1 => exact .inl (List.forall_mem_nil _)
  | case2 g ih => exact .inr ⟨[], g, rfl, List.forall_mem_nil _, hg⟩
  | case3 c g hno ih =>
    simp only [Bool.and_eq_true] at hg
    rcases ih hg.2 with hblank | ⟨a, g', rfl, ha, hg'⟩
    · exact .inl (List.forall_mem_cons.2 ⟨hg.1, hblank⟩)
    · exact .inr ⟨c :: a, g', rfl, List.forall_mem_cons.2 ⟨hg.1, ha⟩, hg'⟩

theorem not_lineBreak_infix_of_blanks (ha : ∀ c ∈ a, isBlank c = true) : ¬ lineBreak <:+: a := by
  intro h
  have hslash := ha '\\' (h.subset List.mem_cons_self)
  exact absurd hslash (by decide)

theorem IsSeparator.exists_eq (h : IsSeparator s) :
    ∃ a g, s = a ++ lineBreak ++ g ∧ (∀ c ∈ a, isBlank c = true) ∧ isGap g = true := by
  rcases isGap_cases h.gap with hblank | h'
  · exact absurd h.marked (not_lineBreak_infix_of_blanks hblank)
  · exact h'

/-! ## Rows in a text -/

/-- What the line normalizer takes as the rows. -/
def textRows (s : List Char) : List (List Char) := splitRows (collapseLineBreaks s)

theorem textRows_eq (s : List Char) : textRows s = ((breakRows s).map trim).filter fun row => !row.isEmpty := by
  rw [textRows, splitRows, splitOn_collapseLineBreaks]

theorem textRows_of_no_break (h : ¬ lineBreak <:+: s) : textRows s = if trim s = [] then [] else [trim s] := by
  rw [textRows_eq, breakRows_of_none (breakOn?_eq_none_iff.2 h), List.map_singleton]
  by_cases hs : trim s = []
  · simp [hs]
  · simp [hs]

/-- Blanks in front belong to the first row, which is trimmed. -/
theorem textRows_blanks_append (ha : ∀ c ∈ a, isBlank c = true) (s : List Char) : textRows (a ++ s) = textRows s := by
  have hskip : breakOn? lineBreak (a ++ s) = (breakOn? lineBreak s).map fun p => (a ++ p.1, p.2) := by
    refine breakOn?_append fun x y hxy hy h => ?_
    obtain ⟨c, y, rfl⟩ := List.exists_cons_of_ne_nil hy
    have hc := ha c (by simp [hxy])
    obtain ⟨t, ht⟩ := lineBreak_prefix_iff.1 h
    obtain rfl : c = '\\' := (List.cons.inj ht).1
    exact absurd hc (by decide)
  rw [textRows_eq, textRows_eq]
  cases hbreak : breakOn? lineBreak s with
  | none =>
    rw [hbreak, Option.map_none] at hskip
    rw [breakRows_of_none hskip, breakRows_of_none hbreak, List.map_singleton, List.map_singleton,
      trim_append_of_isBlank ha]
  | some p =>
    rw [hbreak, Option.map_some] at hskip
    rw [breakRows_of_some hskip, breakRows_of_some hbreak, List.map_cons, List.map_cons, trim_append_of_isBlank ha]

/-- A line break in front closes an empty row. -/
theorem textRows_lineBreak_append (s : List Char) :
    textRows (lineBreak ++ s) = textRows (afterLineBreaks (trimStart s)) := by
  have hbreak : breakOn? lineBreak (lineBreak ++ s) = some ([], s) :=
    (breakOn?_eq_some_iff (List.cons_ne_nil _ _)).2 ⟨rfl, by decide⟩
  rw [textRows_eq, textRows_eq, breakRows_of_some hbreak, List.map_cons, List.filter_cons_of_neg (by decide)]

/-- What is skipped behind a line break is in no row. -/
theorem textRows_afterLineBreaks (s : List Char) : textRows (afterLineBreaks s) = textRows s := by
  fun_induction afterLineBreaks s with
  | case1 s ih => exact (textRows_lineBreak_append s).symm
  | case2 s => rfl

theorem textRows_skipped (s : List Char) : textRows (afterLineBreaks (trimStart s)) = textRows s := by
  rw [textRows_afterLineBreaks]
  conv => rhs; rw [← trimStart_append s]
  exact (textRows_blanks_append isBlank_of_mem_takeWhile _).symm

/-- **A gap in front** of a text is in none of its rows, whatever the text starts with. -/
theorem textRows_gap_append (hg : isGap g = true) (s : List Char) : textRows (g ++ s) = textRows s := by
  fun_induction isGap g with
  | case1 => rfl
  | case2 g ih =>
    have hbreak : textRows (lineBreak ++ (g ++ s)) = textRows (g ++ s) := by
      rw [textRows_lineBreak_append, textRows_skipped]
    exact hbreak.trans (ih hg)
  | case3 c g hno ih =>
    simp only [Bool.and_eq_true] at hg
    exact (textRows_blanks_append (List.forall_mem_singleton.2 hg.1) (g ++ s)).trans (ih hg.2)

/-- A row: trimmed, not empty, without a line break, and its last character is no backslash. -/
structure IsTextRow (r : List Char) : Prop where
  trimmed : trim r = r
  filled : r ≠ []
  unbroken : ¬ lineBreak <:+: r
  unescaped : r.getLast? ≠ some '\\'

/-- A line break behind the row and some blanks does not start in them. -/
theorem IsTextRow.not_lineBreak_infix (hr : IsTextRow r) (ha : ∀ c ∈ a, isBlank c = true) :
    ¬ lineBreak <:+: r ++ a ++ lineBreak.dropLast := by
  intro h
  have hlast : lineBreak.dropLast = ['\\'] := rfl
  rw [hlast, List.infix_concat_iff] at h
  rcases h with hend | h
  · -- then the row or one of the blanks ends in a backslash
    have hslash : ['\\'] <:+ r ++ a := by
      obtain ⟨x, hx⟩ := hend
      have hends : x ++ ['\\'] ++ ['\\'] = r ++ a ++ ['\\'] := by simpa [lineBreak] using hx
      exact ⟨x, List.append_cancel_right hends⟩
    rcases List.eq_nil_or_concat a with rfl | ⟨a, c, rfl⟩
    · obtain ⟨x, hx⟩ := hslash
      exact hr.unescaped (by simp [← hx.trans (List.append_nil r)])
    · obtain ⟨x, hx⟩ := hslash
      rw [List.concat_eq_append, ← List.append_assoc] at hx
      obtain rfl : '\\' = c := List.singleton_inj.1 (List.append_inj_right' hx rfl)
      exact absurd (ha '\\' (by simp)) (by decide)
  · exact not_lineBreak_infix_append_blanks hr.unbroken ha h

/-- **A separator ends the row** in front of it. -/
theorem textRows_row_append (hr : IsTextRow r) (hs : IsSeparator s) (t : List Char) :
    textRows (r ++ (s ++ t)) = r :: textRows t := by
  obtain ⟨a, g, rfl, ha, hg⟩ := hs.exists_eq
  have hbreak : breakOn? lineBreak (r ++ (a ++ lineBreak ++ g ++ t)) = some (r ++ a, g ++ t) :=
    (breakOn?_eq_some_iff (List.cons_ne_nil _ _)).2 ⟨by simp [lineBreak], hr.not_lineBreak_infix ha⟩
  have htrim : trim (r ++ a) = r := by rw [trim_append_blanks r ha, hr.trimmed]
  rw [textRows_eq, breakRows_of_some hbreak, List.map_cons, htrim, List.filter_cons_of_pos (by simp [hr.filled]),
    ← textRows_eq, textRows_skipped, textRows_gap_append hg]

theorem textRows_last_row (hr : IsTextRow r) (hb : isGap b = true) : textRows (r ++ b) = [r] := by
  rcases isGap_cases hb with hblank | ⟨a, g, rfl, ha, hg⟩
  · rw [textRows_of_no_break (not_lineBreak_infix_append_blanks hr.unbroken hblank), trim_append_blanks r hblank,
      hr.trimmed, if_neg hr.filled]
  · have hsep : IsSeparator (a ++ lineBreak ++ g) := ⟨hb, ⟨a, g, rfl⟩⟩
    have hnone : textRows [] = [] := textRows_of_no_break (by decide)
    rw [← List.append_nil (a ++ lineBreak ++ g), textRows_row_append hr hsep, hnone]

/-! ## The rows that a text is written from -/

/-- Rows, with what stands between them, in front of the first and behind the last one. -/
structure SpacedRows where
  front : List Char
  first : List Char
  /-- The further rows, each with the separator in front of it. -/
  further : List (List Char × List Char)
  back : List Char
  gap_front : isGap front = true
  row_first : IsTextRow first
  spaced_further : ∀ p ∈ further, IsSeparator p.1 ∧ IsTextRow p.2
  gap_back : isGap back = true

namespace SpacedRows

/-- The text with its separators. -/
def text (t : SpacedRows) : List Char :=
  t.front ++ (t.first ++ (t.further.flatMap (fun p => p.1 ++ p.2) ++ t.back))

/-- The rows alone. -/
def rows (t : SpacedRows) : List (List Char) := t.first :: t.further.map Prod.snd

theorem textRows_text (t : SpacedRows) : textRows t.text = t.rows := by
  obtain ⟨front, first, further, back, hfront, hfirst, hfurther, hback⟩ := t
  simp only [text, rows]
  rw [textRows_gap_append hfront]
  clear hfront
  induction further generalizing first with
  | nil => exact textRows_last_row hfirst hback
  | cons p further ih =>
    obtain ⟨⟨hsep, hrow⟩, hfurther⟩ := List.forall_mem_cons.1 hfurther
    rw [List.flatMap_cons, List.append_assoc, List.append_assoc, textRows_row_append hfirst hsep,
      ih p.2 hrow hfurther, List.map_cons]

/-- The rows as one text again: every further one behind ` \\\\ `, and anchored unless it starts with a tab. -/
def joined (t : SpacedRows) : List Char :=
  t.first ++ t.further.flatMap fun p =>
    [' ', '\\', '\\', ' '] ++ if p.2.head? = some '&' then p.2 else ['&', ' '] ++ p.2

end SpacedRows

theorem isBlank_getLast?_of_trim (hs : trim s = s) : ∀ c ∈ s.getLast?, isBlank c = false := by
  intro c hc
  obtain ⟨x, rfl⟩ := List.getLast?_eq_some_iff.1 hc
  refine Bool.eq_false_iff.2 fun hblank => ?_
  have hblanks : ∀ d ∈ [c], isBlank d = true := List.forall_mem_singleton.2 hblank
  -- trimming takes at least the last character away
  obtain ⟨a, b, hx, -, -⟩ := append_trim x
  have hless := congrArg List.length hx
  rw [trim_append_blanks x hblanks] at hs
  have hlength := congrArg List.length hs
  simp only [List.length_append, List.length_cons] at hless hlength
  omega

theorem anchored_eq (r : List Char) : anchored r = if r.head? = some '&' then r else ['&', ' '] ++ r := by
  unfold anchored
  split
  · exact (if_pos rfl).symm
  · rename_i hno
    rw [if_neg]
    · rfl
    · intro hhead
      obtain ⟨s, rfl⟩ := List.head?_eq_some_iff.1 hhead
      exact hno s rfl

theorem anchored_anchored (r : List Char) : anchored (anchored r) = anchored r := by
  rw [anchored_eq r]
  split
  · rename_i htab
    rw [anchored_eq, if_pos htab]
  · rfl

/-- An anchor makes no row something else than a row. -/
theorem IsTextRow.anchored (hr : IsTextRow r) : IsTextRow (anchored r) := by
  unfold Tex.anchored
  split
  · exact hr
  · have hlast : ('&' :: ' ' :: r).getLast? = r.getLast? := by
      obtain ⟨c, s, rfl⟩ := List.exists_cons_of_ne_nil hr.filled
      simp
    have htrim : trim ('&' :: ' ' :: r) = '&' :: ' ' :: r := by
      have hstart : trimStart ('&' :: ' ' :: r) = '&' :: ' ' :: r := rfl
      rw [trim, hstart]
      exact trimEnd_eq_self (hlast ▸ isBlank_getLast?_of_trim hr.trimmed)
    refine ⟨htrim, List.cons_ne_nil _ _, fun h => ?_, hlast ▸ hr.unescaped⟩
    rcases infix_append_cons (s := ['&']) (by decide) h with h | h
    · exact absurd h (by decide)
    · exact hr.unbroken h

namespace SpacedRows

theorem normalizeLines_eq_joined (t : SpacedRows) :
    normalizeLines t.text = "\\begin\x7balign*\x7d ".toList ++ t.joined ++ " \\end\x7balign*\x7d".toList := by
  have hrows : splitRows (collapseLineBreaks t.text) = t.rows := t.textRows_text
  have hjoined : joinRows (anchorRows t.rows) = t.joined := by
    simp only [rows, anchorRows, joinRows_cons, joined, List.flatMap_map, anchored_eq]
  unfold normalizeLines
  rw [hrows, hjoined]

theorem joined_eq_of_rows {t t' : SpacedRows} (h : t.rows = t'.rows) : t.joined = t'.joined := by
  obtain ⟨hfirst, hfurther⟩ := List.cons.inj h
  have hall (t : SpacedRows) : t.joined = t.first ++ (t.further.map Prod.snd).flatMap fun row =>
      [' ', '\\', '\\', ' '] ++ if row.head? = some '&' then row else ['&', ' '] ++ row := by
    rw [joined, List.flatMap_map]
  rw [hall, hall, hfirst, hfurther]

/-- The joined rows, with gaps around them. -/
def rejoined (t : SpacedRows) (ha : isGap a = true) (hb : isGap b = true) : SpacedRows where
  front := a
  first := t.first
  further := t.further.map fun p => ([' ', '\\', '\\', ' '], anchored p.2)
  back := b
  gap_front := ha
  row_first := t.row_first
  spaced_further := by
    intro q hq
    obtain ⟨p, hp, rfl⟩ := List.mem_map.1 hq
    exact ⟨⟨rfl, [' '], [' '], rfl⟩, (t.spaced_further p hp).2.anchored⟩
  gap_back := hb

theorem text_rejoined (t : SpacedRows) (ha : isGap a = true) (hb : isGap b = true) :
    (t.rejoined ha hb).text = a ++ (t.joined ++ b) := by
  simp only [text, rejoined, joined, List.flatMap_map, anchored_eq, List.append_assoc]

theorem joined_rejoined (t : SpacedRows) (ha : isGap a = true) (hb : isGap b = true) :
    (t.rejoined ha hb).joined = t.joined := by
  simp only [rejoined, joined, List.flatMap_map, ← anchored_eq, anchored_anchored]

/-- **Only the rows count.** The rows come out joined in one environment, every further one anchored; other
separators between the same rows give the same text; and so do the joined rows themselves. -/
theorem normalizeLines_text (t : SpacedRows) :
    normalizeLines t.text = "\\begin\x7balign*\x7d ".toList ++ t.joined ++ " \\end\x7balign*\x7d".toList ∧
      (∀ t' : SpacedRows, t'.rows = t.rows → normalizeLines t'.text = normalizeLines t.text) ∧
      ∀ a b, isGap a = true → isGap b = true → normalizeLines (a ++ (t.joined ++ b)) = normalizeLines t.text := by
  refine ⟨t.normalizeLines_eq_joined, fun t' hrows => ?_, fun a b ha hb => ?_⟩
  · rw [t'.normalizeLines_eq_joined, t.normalizeLines_eq_joined, joined_eq_of_rows hrows]
  · rw [← t.text_rejoined ha hb, normalizeLines_eq_joined, joined_rejoined, t.normalizeLines_eq_joined]

/-- Commands right behind line breaks, blanks beyond ASCII, and a row with an anchor of its own. -/
theorem normalizeLines_text_commands :
    ∃ t : SpacedRows, t.text = "\\\\\u00a0\\\\ \\alpha\\\\\\beta \u2003\\\\\\\\\n&= 1 \\\\".toList ∧
      t.rows = ["\\alpha".toList, "\\beta".toList, "&= 1".toList] ∧
      t.joined = "\\alpha \\\\ & \\beta \\\\ &= 1".toList ∧
      normalizeLines t.text = "\\begin\x7balign*\x7d ".toList ++ t.joined ++ " \\end\x7balign*\x7d".toList ∧
      (∀ t' : SpacedRows, t'.rows = t.rows → normalizeLines t'.text = normalizeLines t.text) ∧
      ∀ a b, isGap a = true → isGap b = true → normalizeLines (a ++ (t.joined ++ b)) = normalizeLines t.text := by
  have halpha : IsTextRow "\\alpha".toList := ⟨by decide +kernel, by decide +kernel, by decide +kernel, by decide +kernel⟩
  have hbeta : IsTextRow "\\beta".toList := ⟨by decide +kernel, by decide +kernel, by decide +kernel, by decide +kernel⟩
  have hanchored : IsTextRow "&= 1".toList := ⟨by decide +kernel, by decide +kernel, by decide +kernel, by decide +kernel⟩
  have hbreak : IsSeparator "\\\\".toList := ⟨by decide +kernel, by decide +kernel⟩
  have hbreaks : IsSeparator " \u2003\\\\\\\\\n".toList := ⟨by decide +kernel, by decide +kernel⟩
  let t : SpacedRows :=
    { front := "\\\\\u00a0\\\\ ".toList
      first := "\\alpha".toList
      further := [("\\\\".toList, "\\beta".toList), (" \u2003\\\\\\\\\n".toList, "&= 1".toList)]
      back := " \\\\".toList
      gap_front := by decide +kernel
      row_first := halpha
      spaced_further := List.forall_mem_cons.2 ⟨⟨hbreak, hbeta⟩, List.forall_mem_singleton.2 ⟨hbreaks, hanchored⟩⟩
      gap_back := by decide +kernel }
  exact ⟨t, rfl, rfl, rfl, t.normalizeLines_text⟩

end SpacedRows

end MathMarkup.Tex
