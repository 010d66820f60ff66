import MathMarkup.Proofs.Normal.Lines
import MathMarkup.Proofs.Rows.Breaks
import MathMarkup.Proofs.Rows.Cells

/-!
# A grid written as rows and cells

Cells that hold no line break and no alignment tab (`uncut?`) are found again when they are written with tabs
between them, and rows of them with line breaks between them (`cells_of_joinRows`), up to the blanks around
them; an empty cell is found too.
-/

namespace MathMarkup.Tex

open Text

variable {c : Char} {e e' : Bool} {a b r s t w : List Char} {cells rows : List (List Char)}

/-! ## Texts that are not cut -/

/-- Reads a text without line breaks and tabs, and tells whether its last character is escaped by it;
`escaped` says whether the first one is. At a line break or a tab there is no answer. -/
def uncut? (escaped : Bool) : List Char → Option Bool
  | [] => some escaped
  | c :: s =>
    if escaped then if c = '\\' then none else uncut? false s
    else if c = '\\' then uncut? true s
    else if c = '&' then none
    else uncut? false s

theorem uncut?_append (e : Bool) (s t : List Char) :
    uncut? e (s ++ t) = (uncut? e s).bind fun e => uncut? e t := by
  induction s generalizing e with
  | nil => rfl
  | cons c s ih =>
    rw [List.cons_append, uncut?, uncut?]
    split
    · split
      · rfl
      · exact ih false
    · split
      · exact ih true
      · split
        · rfl
        · exact ih false

theorem uncut?_cons (hslash : c ≠ '\\') (htab : c ≠ '&') (s : List Char) : uncut? false (c :: s) = uncut? false s := by
  rw [uncut?, if_neg Bool.false_ne_true, if_neg hslash, if_neg htab]

theorem uncut?_of_plain (hs : ∀ c ∈ s, c ≠ '\\' ∧ c ≠ '&') : uncut? false s = some false := by
  induction s with
  | nil => rfl
  | cons c s ih =>
    obtain ⟨hc, hs⟩ := List.forall_mem_cons.1 hs
    rw [uncut?_cons hc.1 hc.2, ih hs]

theorem plain_of_blanks (hs : ∀ c ∈ s, isBlank c = true) : ∀ c ∈ s, c ≠ '\\' ∧ c ≠ '&' := by
  intro c hc
  constructor <;>
    · rintro rfl
      exact absurd (hs _ hc) (by decide)

theorem exists_uncut?_of_blanks (e : Bool) (hs : ∀ c ∈ s, isBlank c = true) : ∃ e', uncut? e s = some e' := by
  cases s with
  | nil => exact ⟨e, rfl⟩
  | cons c s =>
    have hplain := plain_of_blanks hs
    cases e with
    | false => exact ⟨false, uncut?_of_plain hplain⟩
    | true =>
      obtain ⟨hc, hplain⟩ := List.forall_mem_cons.1 hplain
      exact ⟨false, by rw [uncut?, if_pos rfl, if_neg hc.1, uncut?_of_plain hplain]⟩

/-- A text that is not cut has no line break. -/
theorem not_lineBreak_infix (h : uncut? e s = some e') : ¬ lineBreak <:+: s := by
  rintro ⟨a, b, rfl⟩
  have hbreak : ∀ e, uncut? e (lineBreak ++ b) = none := by
    intro e
    cases e <;> rfl
  rw [List.append_assoc, uncut?_append] at h
  cases ha : uncut? e a with
  | none => simp [ha] at h
  | some x => simp [ha, hbreak] at h

/-! ## Cells of a row -/

/-- The cells with tabs between them. -/
def joinCells (cells : List (List Char)) : List Char := [' ', '&', ' '].intercalate cells

theorem joinCells_singleton (cell : List Char) : joinCells [cell] = cell := List.intercalate_singleton

theorem joinCells_cons_cons (cell next : List Char) (cells : List (List Char)) :
    joinCells (cell :: next :: cells) = cell ++ [' ', '&', ' '] ++ joinCells (next :: cells) :=
  List.intercalate_cons_cons

theorem joinCells_cons (cell : List Char) (cells : List (List Char)) :
    joinCells (cell :: cells) = cell ++ cells.flatMap fun cell => [' ', '&', ' '] ++ cell :=
  intercalate_cons_eq _ cell cells

/-- A text that is not cut belongs to the first cell. -/
theorem splitCellsFrom_append (h : uncut? e s = some e') (t : List Char) :
    splitCellsFrom e (s ++ t) = (splitCellsFrom e' t).modifyHead (s ++ ·) := by
  induction s generalizing e with
  | nil =>
    obtain rfl := Option.some.inj h
    obtain ⟨cell, cells, hcells, -⟩ := splitCellsFrom_shape e t
    rw [List.nil_append, hcells]
    rfl
  | cons c s ih =>
    have hcons : ∀ {x : Bool}, uncut? x s = some e' →
        consCell c (splitCellsFrom x (s ++ t)) = (splitCellsFrom e' t).modifyHead (c :: s ++ ·) := by
      intro x hx
      obtain ⟨cell, cells, hcells, -⟩ := splitCellsFrom_shape e' t
      rw [ih hx, hcells]
      rfl
    rw [uncut?] at h
    rw [List.cons_append, splitCellsFrom]
    cases e with
    | true =>
      by_cases hslash : c = '\\'
      · simp [hslash] at h
      · rw [if_pos rfl, if_neg hslash] at h
        rw [if_neg hslash, if_neg (by simp)]
        exact hcons h
    | false =>
      rw [if_neg Bool.false_ne_true] at h
      by_cases hslash : c = '\\'
      · rw [if_pos hslash] at h ⊢
        exact hcons h
      · rw [if_neg hslash] at h ⊢
        by_cases htab : c = '&'
        · rw [if_pos htab] at h
          cases h
        · rw [if_neg htab] at h
          rw [if_neg fun hboth => htab hboth.1]
          exact hcons h

theorem splitCellsFrom_eq_singleton (h : uncut? e s = some e') : splitCellsFrom e s = [s] := by
  have := splitCellsFrom_append h []
  rw [List.append_nil] at this
  rw [this, splitCellsFrom, List.modifyHead_cons, List.append_nil]

theorem splitCells_tab (h : uncut? false s = some false) (t : List Char) :
    splitCells (s ++ '&' :: t) = s :: splitCells t := by
  rw [splitCells, splitCellsFrom_append h, splitCellsFrom, if_neg (by decide), if_pos ⟨rfl, rfl⟩,
    List.modifyHead_cons, List.append_nil, splitCells]

/-! ## Blanks around cells and rows -/

theorem trim_append_of_isBlank (ha : ∀ c ∈ a, isBlank c = true) (s : List Char) : trim (a ++ s) = trim s := by
  rw [trim, trim, trimStart_append_of_isBlank ha]

theorem trim_append_blanks (s : List Char) (hb : ∀ c ∈ b, isBlank c = true) : trim (s ++ b) = trim s := by
  rw [trim, trim, trimStart, trimStart, List.dropWhile_append]
  split
  · rename_i hempty
    have hnone : trimStart (b ++ []) = [] := trimStart_append_of_isBlank hb
    rw [List.append_nil, trimStart] at hnone
    rw [hnone, List.isEmpty_iff.1 hempty]
  · exact trimEnd_append_of_isBlank hb

theorem trim_trimStart (s : List Char) : trim (trimStart s) = trim s := by
  conv => rhs; rw [← trimStart_append s]
  exact (trim_append_of_isBlank isBlank_of_mem_takeWhile _).symm

theorem trim_ne_nil (hc : c ∈ s) (hblank : isBlank c = false) : trim s ≠ [] := by
  intro hnil
  obtain ⟨a, b, hs, ha, hb⟩ := append_trim s
  rw [hnil, List.append_nil] at hs
  rw [hs, List.mem_append] at hc
  have hc := hc.elim (ha c) (hb c)
  rw [hblank] at hc
  cases hc

theorem isBlank_space : ∀ c ∈ [' '], isBlank c = true := List.forall_mem_singleton.2 rfl

/-- Blanks at the end of a row are at the end of its last cell. -/
theorem splitCellsFrom_append_blanks (e : Bool) (s : List Char) (hb : ∀ c ∈ b, isBlank c = true) :
    ∃ cells last, splitCellsFrom e s = cells ++ [last] ∧ splitCellsFrom e (s ++ b) = cells ++ [last ++ b] := by
  induction s generalizing e with
  | nil =>
    obtain ⟨e', hblanks⟩ := exists_uncut?_of_blanks e hb
    exact ⟨[], [], rfl, splitCellsFrom_eq_singleton hblanks⟩
  | cons c s ih =>
    have hcons : ∀ {cells : List (List Char)} {last : List Char}, ∃ cells' last',
        consCell c (cells ++ [last]) = cells' ++ [last'] ∧
          consCell c (cells ++ [last ++ b]) = cells' ++ [last' ++ b] := by
      intro cells last
      cases cells with
      | nil => exact ⟨[], c :: last, rfl, rfl⟩
      | cons cell cells => exact ⟨(c :: cell) :: cells, last, rfl, rfl⟩
    rw [List.cons_append, splitCellsFrom, splitCellsFrom]
    split
    · obtain ⟨cells, last, h, h'⟩ := ih (!e)
      rw [h, h']
      exact hcons
    · obtain ⟨cells, last, h, h'⟩ := ih false
      rw [h, h']
      split
      · exact ⟨[] :: cells, last, rfl, rfl⟩
      · exact hcons

/-- Trimming a row trims its first and its last cell. -/
theorem map_trim_splitCells_trim (s : List Char) : (splitCells (trim s)).map trim = (splitCells s).map trim := by
  obtain ⟨a, b, hs, ha, hb⟩ := append_trim s
  generalize trim s = r at hs ⊢
  subst hs
  obtain ⟨cells, last, h, h'⟩ := splitCellsFrom_append_blanks false (a ++ r) hb
  rw [splitCells, splitCells, h', List.map_append, List.map_singleton, trim_append_blanks last hb,
    ← List.map_singleton, ← List.map_append, ← h, splitCellsFrom_append (uncut?_of_plain (plain_of_blanks ha))]
  obtain ⟨cell, cells, hr, -⟩ := splitCellsFrom_shape false r
  rw [hr, List.modifyHead_cons, List.map_cons, List.map_cons, trim_append_of_isBlank ha]

/-- The cells of a row that is written cell by cell. -/
theorem map_trim_splitCells (hr : uncut? false r = some false)
    (hcells : ∀ cell ∈ cells, uncut? false cell = some false ∧ trim cell = cell) :
    (splitCells (r ++ cells.flatMap fun cell => [' ', '&', ' '] ++ cell)).map trim = trim r :: cells := by
  induction cells generalizing r with
  | nil => rw [List.flatMap_nil, List.append_nil, splitCells, splitCellsFrom_eq_singleton hr, List.map_singleton]
  | cons cell cells ih =>
    obtain ⟨⟨hcell, htrim⟩, hcells⟩ := List.forall_mem_cons.1 hcells
    have hspace : uncut? false (r ++ [' ']) = some false := by rw [uncut?_append, hr]; rfl
    have hnext : uncut? false ([' '] ++ cell) = some false := hcell
    have hshape : r ++ (cell :: cells).flatMap (fun cell => [' ', '&', ' '] ++ cell) =
        r ++ [' '] ++ '&' :: ([' '] ++ cell ++ cells.flatMap fun cell => [' ', '&', ' '] ++ cell) := by simp
    rw [hshape, splitCells_tab hspace, List.map_cons, ih hnext hcells, trim_append_blanks r isBlank_space,
      trim_append_of_isBlank isBlank_space, htrim]

/-! ## Rows of a table -/

theorem notMem_lineBreak (hc : isBlank c = true) : c ∉ lineBreak := by
  intro hmem
  obtain rfl : c = '\\' := by simpa [lineBreak] using hmem
  cases hc

theorem not_lineBreak_infix_append_blanks (hs : ¬ lineBreak <:+: s) (hb : ∀ c ∈ b, isBlank c = true) :
    ¬ lineBreak <:+: s ++ b := by
  cases b with
  | nil => rwa [List.append_nil]
  | cons c b =>
    intro h
    rcases infix_append_cons (notMem_lineBreak (hb c List.mem_cons_self)) h with h | h
    · exact hs h
    · have hslash := hb '\\' (List.mem_cons_of_mem _ (h.subset List.mem_cons_self))
      cases hslash

theorem not_lineBreak_infix_blanks_append (ha : ∀ c ∈ a, isBlank c = true) (hs : ¬ lineBreak <:+: s) :
    ¬ lineBreak <:+: a ++ s := by
  induction a with
  | nil => exact hs
  | cons c a ih =>
    obtain ⟨hc, ha⟩ := List.forall_mem_cons.1 ha
    intro h
    rcases infix_append_cons (s := []) (notMem_lineBreak hc) h with h | h
    · exact absurd h.length_le (by decide)
    · exact ih ha h

/-- What follows a row does not make a line break of its first character. -/
theorem not_lineBreak_at_seam (hs : s ≠ []) (hbreak : ¬ lineBreak <:+: s) (ht : ∀ c ∈ t.head?, isBlank c = true) :
    ¬ lineBreak <+: s ++ t := by
  intro h
  obtain ⟨u, hu⟩ := lineBreak_prefix_iff.1 h
  match s with
  | [] => exact hs rfl
  | [c] =>
    have ht := ht '\\' (by rw [show t = '\\' :: u from (List.cons.inj hu).2]; rfl)
    exact absurd ht (by decide)
  | c :: d :: s =>
    obtain ⟨rfl, hrest⟩ := List.cons.inj hu
    obtain ⟨rfl, -⟩ := List.cons.inj hrest
    exact hbreak (lineBreak_prefix_iff.2 ⟨s, rfl⟩).isInfix

/-- The rows behind the first one, each behind its line break. -/
def furtherRows (rows : List (List Char)) : List Char := rows.flatMap fun row => [' ', '\\', '\\', ' '] ++ row

theorem breakOn?_furtherRows (hr : ¬ lineBreak <:+: r) (row : List Char) (rows : List (List Char)) (b : List Char) :
    breakOn? lineBreak (r ++ (furtherRows (row :: rows) ++ b)) =
      some (r ++ [' '], [' '] ++ (row ++ (furtherRows rows ++ b))) := by
  refine (breakOn?_eq_some_iff (List.cons_ne_nil _ _)).2 ⟨by simp [furtherRows], fun h => ?_⟩
  rw [List.append_assoc, List.singleton_append] at h
  rcases infix_append_cons (by decide) h with h | h
  · exact hr h
  · exact absurd h.length_le (by decide)

theorem isBlank_head?_furtherRows (hb : ∀ c ∈ b, isBlank c = true) (rows : List (List Char)) :
    ∀ c ∈ (furtherRows rows ++ b).head?, isBlank c = true := by
  cases rows with
  | nil => exact fun c hc => hb c (List.mem_of_mem_head? hc)
  | cons row rows =>
    rintro c ⟨⟩
    rfl

/-- Behind a line break nothing of the next row is skipped but the blanks in front of it. -/
theorem afterLineBreaks_row (hr : ¬ lineBreak <:+: r) (hne : trim r ≠ []) (ht : ∀ c ∈ t.head?, isBlank c = true) :
    afterLineBreaks (trimStart ([' '] ++ (r ++ t))) = trimStart r ++ t ∧ ¬ lineBreak <:+: trimStart r := by
  have hbreak : ¬ lineBreak <:+: trimStart r := fun h => hr (h.trans (List.dropWhile_suffix isBlank).isInfix)
  have hstart : trimStart r ≠ [] := fun hnil => hne (by rw [← trim_trimStart, hnil]; rfl)
  have hskip : trimStart (r ++ t) = trimStart r ++ t := by
    rw [trimStart, List.dropWhile_append, if_neg (by simpa [trimStart] using hstart)]
    rfl
  rw [trimStart_append_of_isBlank isBlank_space, hskip]
  exact ⟨afterLineBreaks_eq_self (not_lineBreak_at_seam hstart hbreak ht), hbreak⟩

/-- The rows of a table that is written row by row. -/
theorem map_trim_breakRows (hr : ¬ lineBreak <:+: r) (hb : ∀ c ∈ b, isBlank c = true)
    (hrows : ∀ row ∈ rows, ¬ lineBreak <:+: row ∧ trim row ≠ []) :
    (breakRows (r ++ (furtherRows rows ++ b))).map trim = trim r :: rows.map trim := by
  induction rows generalizing r with
  | nil =>
    have hnone := breakOn?_eq_none_iff.2 (not_lineBreak_infix_append_blanks hr hb)
    rw [furtherRows, List.flatMap_nil, List.nil_append, breakRows_of_none hnone, List.map_singleton,
      trim_append_blanks r hb, List.map_nil]
  | cons row rows ih =>
    obtain ⟨⟨hrow, hne⟩, hrows⟩ := List.forall_mem_cons.1 hrows
    obtain ⟨hnext, hbreak⟩ := afterLineBreaks_row hrow hne (isBlank_head?_furtherRows hb rows)
    rw [breakRows_of_some (breakOn?_furtherRows hr row rows b), List.map_cons, hnext, ih hbreak hrows,
      trim_append_blanks r isBlank_space, trim_trimStart, List.map_cons]

/-! ## The grid -/

/-- A text that no blank starts or ends and that is not cut, with its last character not escaped. -/
structure IsUncut (cell : List Char) : Prop where
  trimmed : trim cell = cell
  uncut : uncut? false cell = some false

/-- A word without spaces is found in one of the texts between separators that do not hold it. -/
theorem exists_infix_of_intercalate {x : List Char} (hspace : ' ' ∉ w) (hx : ¬ w <:+: x) {ts : List (List Char)}
    (h : w <:+: (' ' :: (x ++ [' '])).intercalate ts) : ∃ t ∈ ts, w <:+: t := by
  induction ts with
  | nil => exact absurd ((List.infix_nil.1 h) ▸ List.nil_infix) hx
  | cons t ts ih =>
    cases ts with
    | nil => exact ⟨t, List.mem_cons_self, by simpa using h⟩
    | cons t' ts =>
      rw [List.intercalate_cons_cons, List.append_assoc, List.cons_append, List.append_assoc,
        List.singleton_append] at h
      rcases infix_append_cons hspace h with h | h
      · exact ⟨t, List.mem_cons_self, h⟩
      rcases infix_append_cons hspace h with h | h
      · exact absurd h hx
      · obtain ⟨u, hu, hin⟩ := ih h
        exact ⟨u, List.mem_cons_of_mem _ hu, hin⟩

theorem not_lineBreak_infix_joinCells (h : ∀ cell ∈ cells, IsUncut cell) : ¬ lineBreak <:+: joinCells cells := by
  intro hin
  obtain ⟨cell, hcell, hin⟩ := exists_infix_of_intercalate (x := ['&']) (by decide) (by decide) hin
  exact not_lineBreak_infix (h cell hcell).uncut hin

/-- A row has a cell, and it is not an empty one alone. -/
def IsFilledRow (cells : List (List Char)) : Prop := cells ≠ [] ∧ cells ≠ [[]]

instance : Decidable (IsFilledRow cells) := inferInstanceAs (Decidable (_ ∧ _))

theorem trim_joinCells_ne_nil (hrow : IsFilledRow cells) (h : ∀ cell ∈ cells, IsUncut cell) :
    trim (joinCells cells) ≠ [] := by
  match cells with
  | [] => exact absurd rfl hrow.1
  | [cell] =>
    rw [joinCells_cons, List.flatMap_nil, List.append_nil, (h cell List.mem_cons_self).trimmed]
    exact fun hnil => hrow.2 (by rw [hnil])
  | cell :: next :: cells =>
    have htab : '&' ∈ joinCells (cell :: next :: cells) := by simp [joinCells_cons]
    exact trim_ne_nil htab (by decide)

theorem map_trim_splitCells_joinCells (hrow : IsFilledRow cells) (h : ∀ cell ∈ cells, IsUncut cell) :
    (splitCells (trim (joinCells cells))).map trim = cells := by
  obtain ⟨cell, cells, rfl⟩ := List.exists_cons_of_ne_nil hrow.1
  obtain ⟨hcell, hcells⟩ := List.forall_mem_cons.1 h
  rw [map_trim_splitCells_trim, joinCells_cons,
    map_trim_splitCells hcell.uncut fun c hc => ⟨(hcells c hc).uncut, (hcells c hc).trimmed⟩, hcell.trimmed]

/-- **A grid of cells** is found again in its text, with blanks around it. -/
theorem cells_of_joinRows {grid : List (List (List Char))} (hgrid : grid ≠ []) (hrows : ∀ row ∈ grid, IsFilledRow row)
    (hcells : ∀ row ∈ grid, ∀ cell ∈ row, IsUncut cell) (ha : ∀ c ∈ a, isBlank c = true)
    (hb : ∀ c ∈ b, isBlank c = true) :
    (splitRows (collapseLineBreaks (a ++ (joinRows (grid.map joinCells) ++ b)))).map
      (fun row => (splitCells row).map trim) = grid := by
  obtain ⟨row, rows, rfl⟩ := List.exists_cons_of_ne_nil hgrid
  have hfirst : ¬ lineBreak <:+: a ++ joinCells row :=
    not_lineBreak_infix_blanks_append ha (not_lineBreak_infix_joinCells (hcells row List.mem_cons_self))
  have hfurther : ∀ r ∈ rows.map joinCells, ¬ lineBreak <:+: r ∧ trim r ≠ [] := by
    intro r hr
    obtain ⟨row', hrow', rfl⟩ := List.mem_map.1 hr
    have hmem := List.mem_cons_of_mem row hrow'
    exact ⟨not_lineBreak_infix_joinCells (hcells row' hmem), trim_joinCells_ne_nil (hrows row' hmem) (hcells row' hmem)⟩
  have hshape : a ++ (joinRows ((row :: rows).map joinCells) ++ b) =
      a ++ joinCells row ++ (furtherRows (rows.map joinCells) ++ b) := by
    rw [List.map_cons, joinRows_cons, furtherRows]
    simp
  have hkept : ∀ r ∈ ((row :: rows).map fun row => trim (joinCells row)), (!r.isEmpty) = true := by
    intro r hr
    obtain ⟨row', hrow', rfl⟩ := List.mem_map.1 hr
    simpa using trim_joinCells_ne_nil (hrows row' hrow') (hcells row' hrow')
  have hsplit : splitRows (collapseLineBreaks (a ++ (joinRows ((row :: rows).map joinCells) ++ b))) =
      (row :: rows).map fun row => trim (joinCells row) := by
    rw [splitRows, splitOn_collapseLineBreaks, hshape, map_trim_breakRows hfirst hb hfurther,
      trim_append_of_isBlank ha, List.map_map]
    exact List.filter_eq_self.2 hkept
  rw [hsplit, List.map_map]
  refine (List.map_congr_left fun row' hrow' => ?_).trans (List.map_id _)
  exact map_trim_splitCells_joinCells (hrows row' hrow') (hcells row' hrow')

end MathMarkup.Tex
