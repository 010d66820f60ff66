import Mathlib.Data.List.Basic
import MathMarkup.Proofs.Placeholder.Items
import MathMarkup.Proofs.Rows.Breaks
import MathMarkup.Tex.Cells

/-!
# Cells are slices

A table is cut where a protected text has a line break, an alignment tab or a blank. None of these
stands in a token, so every cut falls between items (`exists_append_of_write`) and a cell is a run of
items. With the spans put back it is a slice of the body (`infix_of_mem_tableCells`), as long as the
body holds no text that passes for a token.
-/

namespace MathMarkup.Tex

open Text

/-! ## Cuts between items -/

/-- A character that the words of tokens are made of. -/
def isTokenChar (c : Char) : Bool := c == openMark || c == closeMark || c.isDigit

theorem isTokenChar_of_mem_placeholder {n : Nat} {c : Char} (h : c ∈ placeholder n) :
    isTokenChar c = true := by
  rw [placeholder, List.mem_append, List.mem_cons, List.mem_singleton] at h
  rcases h with (rfl | hdigit) | rfl
  · rfl
  · simp [isTokenChar, Nat.isDigit_of_mem_toDigits (by decide) (by decide) hdigit]
  · rfl

theorem isTokenChar_of_isBlank {c : Char} (h : isBlank c = true) : isTokenChar c = false := by
  refine Bool.eq_false_iff.2 fun htoken => ?_
  simp only [isTokenChar, Bool.or_eq_true, beq_iff_eq] at htoken
  rcases htoken with (rfl | rfl) | hdigit
  · exact absurd h (by decide)
  · exact absurd h (by decide)
  · rw [Char.isDigit, Bool.and_eq_true, decide_eq_true_eq, decide_eq_true_eq] at hdigit
    have hlow : 48 ≤ c.toNat := hdigit.1
    have hhigh : c.toNat ≤ 57 := hdigit.2
    simp only [isBlank, blankRanges, inRanges] at h
    grind

/-- A cut beside a character that no token holds falls between two items. -/
theorem exists_append_of_write {items : List Item} {x y : List Char} (h : write items = x ++ y)
    (hcut : (∀ c ∈ x.getLast?, isTokenChar c = false) ∨ ∀ c ∈ y.head?, isTokenChar c = false) :
    ∃ i j, items = i ++ j ∧ write i = x ∧ write j = y := by
  by_cases hx : x = []
  · exact ⟨[], items, rfl, hx.symm, by rw [h, hx]; rfl⟩
  induction items generalizing x with
  | nil =>
    obtain ⟨rfl, rfl⟩ := List.append_eq_nil_iff.1 h.symm
    exact absurd rfl hx
  | cons item items ih =>
    -- what is left of `x` behind the first item ends like `x`
    have htail : ∀ w x' : List Char, x = w ++ x' → x' ≠ [] →
        (∀ c ∈ x'.getLast?, isTokenChar c = false) ∨ ∀ c ∈ y.head?, isTokenChar c = false := by
      rintro w x' rfl hx'
      rwa [List.getLast?_append_of_ne_nil w hx'] at hcut
    have hstep : ∀ x', x = item.render [] 0 ++ x' → write items = x' ++ y →
        ∃ i j, item :: items = i ++ j ∧ write i = x ∧ write j = y := by
      intro x' hxx' hrest
      by_cases hx' : x' = []
      · exact ⟨[item], items, rfl, by simp [write, hxx', hx'], by simpa [hx'] using hrest⟩
      · obtain ⟨i, j, rfl, hi, hj⟩ := ih hrest (htail _ x' hxx' hx') hx'
        exact ⟨item :: i, j, rfl, by rw [hxx', ← hi]; rfl, hj⟩
    have hwrite : item.render [] 0 ++ write items = x ++ y := h
    rcases List.append_eq_append_iff.1 hwrite with ⟨x', hx', hrest⟩ | ⟨w, hw, hy⟩
    · exact hstep x' hx' hrest
    · by_cases hw' : w = []
      · exact hstep [] (by simpa [hw'] using hw.symm) (by simpa [hw'] using hy.symm)
      · cases item with
        | char c =>
          have := congrArg List.length hw
          have := List.length_pos_iff.2 hx
          have := List.length_pos_iff.2 hw'
          simp only [Item.render, List.length_append, List.length_cons, List.length_nil] at *
          omega
        | token n =>
          have hplace : placeholder n = x ++ w := by simpa [Item.render] using hw
          have hmem : ∀ c, c ∈ x ∨ c ∈ w → isTokenChar c = true := fun c hc =>
            isTokenChar_of_mem_placeholder (n := n) (by rw [hplace]; exact List.mem_append.2 hc)
          rcases hcut with hcut | hcut
          · have hlast := List.getLast?_eq_some_getLast hx
            have := hcut _ hlast
            rw [hmem _ (Or.inl (List.getLast_mem hx))] at this
            cases this
          · have hhead : y.head? = some (w.head hw') := by
              rw [hy, List.head?_append_of_ne_nil w hw', List.head?_eq_some_head hw']
            have := hcut _ hhead
            rw [hmem _ (Or.inr (List.head_mem hw'))] at this
            cases this

/-! ## Runs of items -/

/-- The text is written by a run of the items. -/
def IsRun (items : List Item) (s : List Char) : Prop := ∃ i, i <:+: items ∧ write i = s

variable {items : List Item} {s : List Char}

theorem isRun_write (items : List Item) : IsRun items (write items) := ⟨items, List.infix_rfl, rfl⟩

/-- What stands behind a character that no token holds is a run again. -/
theorem IsRun.of_append_left {a r : List Char} (h : IsRun items (a ++ r))
    (ha : ∀ c ∈ a.getLast?, isTokenChar c = false) : IsRun items r := by
  obtain ⟨i, hi, hwrite⟩ := h
  obtain ⟨k, j, rfl, -, hj⟩ := exists_append_of_write hwrite (Or.inl ha)
  exact ⟨j, (List.suffix_append k j).isInfix.trans hi, hj⟩

/-- What stands before a character that no token holds is a run again. -/
theorem IsRun.of_append_right {r b : List Char} (h : IsRun items (r ++ b))
    (hb : ∀ c ∈ b.head?, isTokenChar c = false) : IsRun items r := by
  obtain ⟨i, hi, hwrite⟩ := h
  obtain ⟨k, j, rfl, hk, -⟩ := exists_append_of_write hwrite (Or.inr hb)
  exact ⟨k, (List.prefix_append k j).isInfix.trans hi, hk⟩

theorem IsRun.trim (h : IsRun items s) : IsRun items (trim s) := by
  obtain ⟨a, b, hs, ha, hb⟩ := append_trim s
  rw [hs] at h
  refine (h.of_append_right fun c hc => ?_).of_append_left fun c hc => ?_
  · exact isTokenChar_of_isBlank (hb c (List.mem_of_mem_head? hc))
  · exact isTokenChar_of_isBlank (ha c (List.mem_of_mem_getLast? hc))

theorem IsRun.trimStart (h : IsRun items s) : IsRun items (trimStart s) := by
  rw [← trimStart_append s] at h
  exact h.of_append_left fun c hc =>
    isTokenChar_of_isBlank (isBlank_of_mem_takeWhile c (List.mem_of_mem_getLast? hc))

theorem IsRun.afterLineBreaks (h : IsRun items s) : IsRun items (afterLineBreaks s) := by
  obtain ⟨a, ha, hall⟩ := append_afterLineBreaks s
  rw [ha] at h
  refine h.of_append_left fun c hc => ?_
  rcases hall c (List.mem_of_mem_getLast? hc) with hblank | rfl
  · exact isTokenChar_of_isBlank hblank
  · rfl

theorem IsRun.of_mem_breakRows (h : IsRun items s) {row : List Char} (hrow : row ∈ breakRows s) :
    IsRun items row := by
  fun_induction breakRows s with
  | case1 s hnone =>
    rw [List.mem_singleton] at hrow
    rwa [hrow]
  | case2 s first rest hsome ih =>
    have hs := eq_append_of_breakOn? hsome
    have hbreak : ∀ c ∈ lineBreak.getLast?, isTokenChar c = false := by
      rintro c ⟨⟩
      rfl
    have hrest : IsRun items rest := by
      rw [hs] at h
      refine h.of_append_left ?_
      rwa [List.getLast?_append_of_ne_nil first (by simp [lineBreak])]
    rcases List.mem_cons.1 hrow with rfl | hrow
    · rw [hs, List.append_assoc] at h
      refine h.of_append_right ?_
      rintro c ⟨⟩
      rfl
    · exact ih hrest.trimStart.afterLineBreaks hrow

/-! ## Cells of a row -/

/-- The first cell starts the row; behind the tab that ends it come the other cells. -/
theorem splitCellsFrom_shape (escaped : Bool) (s : List Char) :
    ∃ cell cells, splitCellsFrom escaped s = cell :: cells ∧
      ((cells = [] ∧ s = cell) ∨ ∃ rest, s = cell ++ '&' :: rest ∧ cells = splitCellsFrom false rest) := by
  induction s generalizing escaped with
  | nil => exact ⟨[], [], rfl, Or.inl ⟨rfl, rfl⟩⟩
  | cons c s ih =>
    have hcons : ∀ e, ∃ cell cells, consCell c (splitCellsFrom e s) = cell :: cells ∧
        ((cells = [] ∧ c :: s = cell) ∨
          ∃ rest, c :: s = cell ++ '&' :: rest ∧ cells = splitCellsFrom false rest) := by
      intro e
      obtain ⟨cell, cells, heq, hshape⟩ := ih e
      refine ⟨c :: cell, cells, by rw [heq, consCell], ?_⟩
      rcases hshape with ⟨rfl, rfl⟩ | ⟨rest, rfl, rfl⟩
      · exact Or.inl ⟨rfl, rfl⟩
      · exact Or.inr ⟨rest, rfl, rfl⟩
    rw [splitCellsFrom]
    by_cases hback : c = '\\'
    · rw [if_pos hback]
      exact hcons _
    · rw [if_neg hback]
      by_cases htab : c = '&' ∧ escaped = false
      · rw [if_pos htab, htab.1]
        exact ⟨[], _, rfl, Or.inr ⟨s, rfl, rfl⟩⟩
      · rw [if_neg htab]
        exact hcons _

theorem IsRun.of_mem_splitCellsFrom {escaped : Bool} (h : IsRun items s) {cell : List Char}
    (hcell : cell ∈ splitCellsFrom escaped s) : IsRun items cell := by
  induction hlen : s.length using Nat.strongRecOn generalizing s escaped with
  | ind len ih =>
    obtain ⟨first, cells, heq, hshape⟩ := splitCellsFrom_shape escaped s
    rw [heq, List.mem_cons] at hcell
    rcases hshape with ⟨rfl, rfl⟩ | ⟨rest, rfl, rfl⟩
    · rcases hcell with rfl | hcell
      · exact h
      · cases hcell
    · rcases hcell with rfl | hcell
      · refine h.of_append_right ?_
        rintro c ⟨⟩
        rfl
      · have hrest : IsRun items rest := by
          rw [List.append_cons] at h
          refine h.of_append_left ?_
          rw [List.getLast?_concat]
          rintro c ⟨⟩
          rfl
        refine ih rest.length ?_ hrest hcell rfl
        rw [← hlen, List.length_append, List.length_cons]
        omega

/-! ## Cells of a table -/

/-- No part of the text passes for a token. -/
def NoToken (s : List Char) : Prop := ∀ n, ¬ placeholder n <:+: s

theorem NoToken.of_infix {s t : List Char} (h : NoToken s) (hts : t <:+: s) : NoToken t := fun n hn =>
  h n (hn.trans hts)

theorem noToken_of_hasMark_eq_false {s : List Char} (h : hasMark s = false) : NoToken s := by
  intro n hn
  have hmark : openMark ∈ s := hn.subset List.mem_cons_self
  rw [hasMark, List.any_eq_false] at h
  exact h openMark hmark rfl

/-- The protected text and its spans. -/
theorem protect_empty (s : List Char) : Placeholders.empty.protect s =
    (⟨(Placeholders.protectFrom 0 0 s).1⟩, write (itemsFrom 0 0 s)) := by
  rw [← protectFrom_snd]
  rfl

/-- With the spans back, a run of the items of a protected text is a slice of the text. -/
theorem infix_of_isRun (hs : NoToken s) {run : List Char} (hrun : IsRun (itemsFrom 0 0 s) run) :
    (Placeholders.mk (Placeholders.protectFrom 0 0 s).1).restore run <:+: s := by
  obtain ⟨i, hi, rfl⟩ := hrun
  have hexpand : expand (Placeholders.protectFrom 0 0 s).1 i <:+: s := by
    have hall := expand_itemsFrom 0 0 s [] rfl
    rw [List.nil_append, List.drop_zero] at hall
    obtain ⟨a, b, hab⟩ := hi
    rw [← hab, expand_append, expand_append] at hall
    exact ⟨_, _, hall⟩
  rw [restore_write fun n _ => hs.of_infix hexpand n]
  exact hexpand

/-- **A cell is a slice** of the body it was cut from. -/
theorem infix_of_mem_tableCells {body : List Char} (hbody : NoToken body) {row : List (List Char)}
    (hrow : row ∈ tableCells body) {cell : List Char} (hcell : cell ∈ row) : cell <:+: body := by
  rw [tableCells, protect_empty] at hrow
  simp only [List.mem_map] at hrow
  obtain ⟨line, hline, rfl⟩ := hrow
  rw [splitRows, splitOn_collapseLineBreaks, List.mem_filter, List.mem_map] at hline
  obtain ⟨⟨r, hr, rfl⟩, -⟩ := hline
  obtain ⟨piece, hpiece, rfl⟩ := List.mem_map.1 hcell
  have hr := (isRun_write (itemsFrom 0 0 body)).of_mem_breakRows hr
  exact infix_of_isRun hbody (hr.trim.of_mem_splitCellsFrom hpiece).trim

end MathMarkup.Tex
