import MathMarkup.Proofs.Conversion.Constructs
import MathMarkup.Proofs.Conversion.Nesting
import MathMarkup.Proofs.Placeholder.Seams

/-!
# Tables

A table that is written with its rows and cells in order converts to a table with these rows and cells
(`convert_table`). The cells go through the map of placeholders one after the other
(`protect_joinRows`), are cut apart again, and are restored to what they were (`tableCells_grid`).
-/

namespace MathMarkup.Tex

open MathML Text

variable {c : Char} {p q : Placeholders} {cell g s t a b w : List Char} {cells rows : List (List Char)}
  {grid : List (List (List Char))}

/-! ## Cells -/

/-- A cell: no blanks around it, groups that are closed, no placeholder character, no comment, no environment,
and outside the arguments of its commands no line break and no tab. -/
@[mk_iff]
structure IsCell (cell : List Char) : Prop where
  trimmed : trim cell = cell
  balanced : IsBalanced cell
  noMark : hasMark cell = false
  noComment : OnlyEscaped '%' cell
  noBegin : ¬ "\\begin\x7b".toList <:+: cell
  noEnd : ¬ "\\end\x7b".toList <:+: cell
  noBreak : ¬ lineBreak <:+: outsideArguments cell
  noTab : OnlyEscaped '&' (outsideArguments cell)

instance : Decidable (IsCell cell) := decidable_of_iff' _ (isCell_iff cell)

theorem IsCell.apart (h : IsCell cell) : IsApart cell :=
  ⟨⟨0, isBalanced_iff.1 h.balanced⟩, h.noComment.silent, h.noBegin⟩

namespace Placeholders

/-- Items that write blanks only are these blanks. -/
theorem expand_of_blanks {spans : List (List Char)} {items : List Item}
    (h : ∀ c ∈ write items, isBlank c = true) : expand spans items = write items := by
  induction items with
  | nil => rfl
  | cons item items ih =>
    cases item with
    | char c =>
      rw [write_char_cons] at h
      exact congrArg (c :: ·) (ih (List.forall_mem_cons.1 h).2)
    | token n =>
      have hmark := h openMark (by simp [placeholder])
      exact absurd hmark (by decide)

/-- What is written for a text without blanks around it has none. -/
theorem Denotes.trim_eq (h : p.Denotes g s) (hs : trim s = s) : trim g = g := by
  obtain ⟨items, hwrite, -, rfl⟩ := h
  obtain ⟨a, b, hg, ha, hb⟩ := append_trim g
  rw [hg] at hwrite
  have hcutb : ∀ c ∈ b.head?, isTokenChar c = false := fun c hc =>
    isTokenChar_of_isBlank (hb c (List.mem_of_mem_head? hc))
  have hcuta : ∀ c ∈ a.getLast?, isTokenChar c = false := fun c hc =>
    isTokenChar_of_isBlank (ha c (List.mem_of_mem_getLast? hc))
  obtain ⟨front, back, rfl, hfront, hback⟩ := exists_append_of_write hwrite (Or.inr hcutb)
  obtain ⟨first, middle, rfl, hfirst, -⟩ := exists_append_of_write hfront (Or.inl hcuta)
  rw [← hfirst] at ha
  rw [← hback] at hb
  rw [expand_append, expand_append, expand_of_blanks ha, expand_of_blanks hb, trim_append_blanks _ hb,
    trim_append_of_isBlank ha] at hs
  -- trimming took nothing away, so there were no blanks
  obtain ⟨x, y, hmiddle, -⟩ := append_trim (expand p.spans middle)
  have hlength := congrArg List.length hs
  have hless := congrArg List.length hmiddle
  rw [hfirst, hback] at hlength
  simp only [List.length_append] at hlength hless
  have hanil : a = [] := List.length_eq_zero_iff.1 (by omega)
  have hbnil : b = [] := List.length_eq_zero_iff.1 (by omega)
  rw [hanil, hbnil, List.nil_append, List.append_nil] at hg
  exact hg.symm

theorem Denotes.eq_nil (h : p.Denotes [] s) : s = [] := by
  obtain ⟨items, hwrite, -, rfl⟩ := h
  cases items with
  | nil => rfl
  | cons item items =>
    cases item with
    | char c => cases hwrite
    | token n => cases hwrite

end Placeholders

/-! ## One map for the grid -/

namespace Placeholders

theorem protect_space (p : Placeholders) (s : List Char) :
    p.protect (' ' :: s) = ((p.protect s).1, ' ' :: (p.protect s).2) :=
  protect_char (by decide) (by decide) p s

theorem protect_tab (p : Placeholders) (s : List Char) :
    p.protect ([' ', '&', ' '] ++ s) = ((p.protect s).1, [' ', '&', ' '] ++ (p.protect s).2) := by
  rw [List.cons_append, List.cons_append, protect_space, protect_char (by decide) (by decide), List.singleton_append,
    protect_space]
  rfl

theorem protect_lineBreak (p : Placeholders) (s : List Char) :
    p.protect ([' ', '\\', '\\', ' '] ++ s) = ((p.protect s).1, [' ', '\\', '\\', ' '] ++ (p.protect s).2) := by
  rw [List.cons_append, List.cons_append, List.cons_append, protect_space, protect_escaped (by decide),
    List.singleton_append, protect_space]
  rfl

/-- Protects the cells of a grid one after the other with the same map. -/
def protectGrid (p : Placeholders) : List (List (List Char)) → Placeholders × List (List (List Char))
  | [] => (p, [])
  | row :: rows =>
    let (next, guarded) := p.protectAll row
    let (last, rest) := next.protectGrid rows
    (last, guarded :: rest)

/-- What is written for a cell: it is not cut, and in the last state of the map it is restored to the cell. -/
structure Guards (q : Placeholders) (g cell : List Char) : Prop where
  uncut : IsUncut g
  eq_nil : g = [] → cell = []
  restore_eq : q.restore g = cell

theorem guards_protect (hcell : IsCell cell) (hq : (p.protect cell).1.spans <+: q.spans) :
    q.Guards (p.protect cell).2 cell := by
  have hdenotes := (p.denotes_protect cell).mono hq
  have huncut : uncut? false (p.protect cell).2 = some false := by
    rw [hcell.apart.uncut?_protect, hcell.apart.uncut?_outside hcell.noBreak hcell.noTab]
  refine ⟨⟨hdenotes.trim_eq hcell.trimmed, huncut⟩, fun hnil => ?_, hdenotes.restore_eq hcell.noMark⟩
  rw [hnil] at hdenotes
  exact hdenotes.eq_nil

theorem guards_protectAll (p : Placeholders) (hcells : ∀ cell ∈ cells, IsCell cell)
    (hq : (p.protectAll cells).1.spans <+: q.spans) : List.Forall₂ q.Guards (p.protectAll cells).2 cells := by
  induction cells generalizing p with
  | nil => exact .nil
  | cons cell cells ih =>
    obtain ⟨hcell, hcells⟩ := List.forall_mem_cons.1 hcells
    exact .cons (guards_protect hcell ((prefix_protectAll _ cells).trans hq)) (ih _ hcells hq)

theorem prefix_protectGrid (p : Placeholders) (grid : List (List (List Char))) :
    p.spans <+: (p.protectGrid grid).1.spans := by
  induction grid generalizing p with
  | nil => exact List.prefix_rfl
  | cons row rows ih => exact (p.prefix_protectAll row).trans (ih _)

theorem guards_protectGrid (p : Placeholders) (hcells : ∀ row ∈ grid, ∀ cell ∈ row, IsCell cell)
    (hq : (p.protectGrid grid).1.spans <+: q.spans) :
    List.Forall₂ (List.Forall₂ q.Guards) (p.protectGrid grid).2 grid := by
  induction grid generalizing p with
  | nil => exact .nil
  | cons row rows ih =>
    obtain ⟨hrow, hrows⟩ := List.forall_mem_cons.1 hcells
    exact .cons (guards_protectAll p hrow ((prefix_protectGrid _ rows).trans hq)) (ih _ hrows hq)

/-- The cells of a row are protected one after the other. -/
theorem protect_joinCells (p : Placeholders) (hne : cells ≠ []) (hcells : ∀ cell ∈ cells, IsApart cell)
    (ht : ∀ c ∈ t.head?, isBlank c = true) :
    p.protect (joinCells cells ++ t) =
      (((p.protectAll cells).1.protect t).1,
        joinCells (p.protectAll cells).2 ++ ((p.protectAll cells).1.protect t).2) := by
  induction cells generalizing p with
  | nil => exact absurd rfl hne
  | cons cell cells ih =>
    obtain ⟨hcell, hcells⟩ := List.forall_mem_cons.1 hcells
    rw [protectAll_cons_fst, protectAll_cons_snd]
    cases cells with
    | nil =>
      rw [joinCells_singleton, hcell.protect_append ht, protectAll, joinCells_singleton]
    | cons next cells =>
      have hsep : ∀ c ∈ ([' ', '&', ' '] ++ (joinCells (next :: cells) ++ t)).head?, isBlank c = true := by
        rintro c ⟨⟩
        rfl
      rw [joinCells_cons_cons, List.append_assoc, List.append_assoc, hcell.protect_append hsep, protect_tab,
        ih _ (List.cons_ne_nil _ _) hcells]
      simp [joinCells_cons_cons]

/-- The rows of a grid are protected one after the other. -/
theorem protect_joinRows (p : Placeholders) (hne : grid ≠ []) (hrows : ∀ row ∈ grid, row ≠ [])
    (hcells : ∀ row ∈ grid, ∀ cell ∈ row, IsApart cell) (ht : ∀ c ∈ t.head?, isBlank c = true) :
    p.protect (joinRows (grid.map joinCells) ++ t) =
      (((p.protectGrid grid).1.protect t).1,
        joinRows ((p.protectGrid grid).2.map joinCells) ++ ((p.protectGrid grid).1.protect t).2) := by
  induction grid generalizing p with
  | nil => exact absurd rfl hne
  | cons row rows ih =>
    obtain ⟨hrow, hrows⟩ := List.forall_mem_cons.1 hrows
    obtain ⟨hfirst, hcells⟩ := List.forall_mem_cons.1 hcells
    cases rows with
    | nil => simp [joinRows, protect_joinCells p hrow hfirst ht, protectGrid]
    | cons next rows =>
      have hsep : ∀ c ∈ ([' ', '\\', '\\', ' '] ++ (joinRows ((next :: rows).map joinCells) ++ t)).head?,
          isBlank c = true := by
        rintro c ⟨⟩
        rfl
      have hshape : joinRows ((row :: next :: rows).map joinCells) ++ t =
          joinCells row ++ ([' ', '\\', '\\', ' '] ++ (joinRows ((next :: rows).map joinCells) ++ t)) := by
        simp [joinRows, List.intercalate_cons_cons]
      rw [hshape, protect_joinCells p hrow hfirst hsep, protect_lineBreak, ih _ (List.cons_ne_nil _ _) hrows hcells]
      simp [joinRows, List.intercalate_cons_cons, protectGrid]

end Placeholders

/-! ## The cells of a grid -/

theorem isFilledRow_of_guards {guarded : List (List Char)} (h : List.Forall₂ q.Guards guarded cells)
    (hrow : IsFilledRow cells) : IsFilledRow guarded := by
  cases h with
  | nil => exact hrow
  | cons hcell hcells =>
    refine ⟨List.cons_ne_nil _ _, fun hsingle => hrow.2 ?_⟩
    obtain ⟨rfl, rfl⟩ := List.cons.inj hsingle
    rw [hcell.eq_nil rfl, List.forall₂_nil_left_iff.1 hcells]

theorem restore_of_guards {guarded : List (List (List Char))} (h : List.Forall₂ (List.Forall₂ q.Guards) guarded grid) :
    guarded.map (List.map q.restore) = grid := by
  have hrow : ∀ {gs cells}, List.Forall₂ q.Guards gs cells → gs.map q.restore = cells := by
    intro gs cells hrow
    induction hrow with
    | nil => rfl
    | cons hcell _ ih => rw [List.map_cons, hcell.restore_eq, ih]
  induction h with
  | nil => rfl
  | cons hfirst _ ih => rw [List.map_cons, hrow hfirst, ih]

/-- The text of a grid, between blanks. -/
def gridText (grid : List (List (List Char))) : List Char := [' '] ++ (joinRows (grid.map joinCells) ++ [' '])

/-- **The cells of a grid** are what its text is cut into, in order. -/
theorem tableCells_grid (hgrid : grid ≠ []) (hrows : ∀ row ∈ grid, IsFilledRow row)
    (hcells : ∀ row ∈ grid, ∀ cell ∈ row, IsCell cell) :
    tableCells (gridText grid) = grid := by
  have hguards := Placeholders.guards_protectGrid .empty hcells List.prefix_rfl
  have hprotect : Placeholders.empty.protect (gridText grid) =
      ((Placeholders.empty.protectGrid grid).1, gridText (Placeholders.empty.protectGrid grid).2) := by
    rw [gridText, List.singleton_append, Placeholders.protect_space, Placeholders.protect_joinRows _ hgrid
      (fun row hrow => (hrows row hrow).1) (fun row hrow cell hcell => (hcells row hrow cell hcell).apart)
      (by simp [isBlank_space]), Placeholders.protect_space, Placeholders.protect_nil]
    rfl
  generalize (Placeholders.empty.protectGrid grid).1 = q at hguards hprotect
  generalize (Placeholders.empty.protectGrid grid).2 = guarded at hguards hprotect
  have hfilled : ∀ row ∈ guarded, IsFilledRow row := by
    intro row hrow
    obtain ⟨cells, hmem, hrow⟩ := exists_mem_of_forall₂ hguards hrow
    exact isFilledRow_of_guards hrow (hrows cells hmem)
  have huncut : ∀ row ∈ guarded, ∀ cell ∈ row, IsUncut cell := by
    intro row hrow cell hcell
    obtain ⟨cells, -, hrow⟩ := exists_mem_of_forall₂ hguards hrow
    obtain ⟨_, -, hguards⟩ := exists_mem_of_forall₂ hrow hcell
    exact hguards.uncut
  have hne : guarded ≠ [] := by
    rintro rfl
    exact hgrid (List.forall₂_nil_left_iff.1 hguards)
  have hcut : (splitRows (collapseLineBreaks (gridText guarded))).map (fun row => (splitCells row).map trim) =
      guarded := cells_of_joinRows hne hfilled huncut isBlank_space isBlank_space
  calc tableCells (gridText grid)
    _ = ((splitRows (collapseLineBreaks (gridText guarded))).map fun row => (splitCells row).map trim).map
          (List.map q.restore) := by simp [tableCells, hprotect, Function.comp_def]
    _ = guarded.map (List.map q.restore) := by rw [hcut]
    _ = grid := restore_of_guards hguards

/-! ## Reading a table -/

/-- The name of a table is made of letters and stars. -/
theorem letters_of_fences? {name : String} {fences : Fences} (h : fences? name = some fences) :
    name.toList.all (fun c => isCommandLetter c || c == '*') = true := by
  have hplain : ∀ name ∈ plainTables, name.toList.all (fun c => isCommandLetter c || c == '*') = true := by decide
  have hfenced : ∀ name ∈ ["pmatrix", "bmatrix", "Bmatrix", "vmatrix", "Vmatrix", "cases"],
      name.toList.all (fun c => isCommandLetter c || c == '*') = true := by decide
  unfold fences? at h
  split at h
  · rename_i hmem
    exact hplain name (List.contains_iff_mem.1 hmem)
  · obtain ⟨before, after, hsplit, -⟩ := List.lookup_eq_some_iff.1 h
    have hmem : name ∈ (before ++ (name, fences) :: after).map Prod.fst := by simp
    rw [← hsplit] at hmem
    exact hfenced name hmem

theorem isPlain_of_fences? {name : String} {fences : Fences} (h : fences? name = some fences) :
    ∀ c ∈ name.toList, IsPlain c ∧ isBlank c = false := by
  intro c hc
  have hname := List.all_eq_true.1 (letters_of_fences? h) c hc
  rw [Bool.or_eq_true, beq_iff_eq] at hname
  rcases hname with hletter | rfl
  · exact ⟨isPlain_of_isCommandLetter hletter, isBlank_eq_false_of_isCommandLetter hletter⟩
  · exact ⟨by simp [IsPlain], rfl⟩

/-- The text of a grid in an environment. -/
def tableText (name : List Char) (grid : List (List (List Char))) : List Char :=
  beginOf name ++ (gridText grid ++ endOf name)

theorem nextGroup?_name (hname : ∀ c ∈ w, IsPlain c ∧ isBlank c = false) (t : List Char) :
    nextGroup? ('{' :: (w ++ '}' :: t)) = some ('{' :: (w ++ ['}']), t) ∧
      trim (groupBody ('{' :: (w ++ ['}']))) = w := by
  have hbalanced : IsBalanced w := by
    have hclosed := closes_append_iff_of_isPlain (d := 0) (t := []) fun c hc => (hname c hc).1
    rw [List.append_nil] at hclosed
    exact isBalanced_iff.2 (hclosed.2 (closes_nil_iff.2 rfl))
  have htrimmed : Trimmed w :=
    ⟨fun c hc => (hname c (List.mem_of_mem_head? hc)).2, fun c hc => (hname c (List.mem_of_mem_getLast? hc)).2⟩
  constructor
  · have hstart : trimStart ('{' :: (w ++ '}' :: t)) = '{' :: (w ++ '}' :: t) := rfl
    rw [nextGroup?, splitArgument?, hstart, splitArgumentHere?, hbalanced.splitGroup?_eq]
    rfl
  · rw [groupBody, List.tail_cons, List.dropLast_concat, htrimmed.trim_eq_self]

/-- A word without spaces that no cell holds is not in the text of the grid. -/
theorem not_infix_gridText (hspace : ' ' ∉ w) (hbreak : ¬ w <:+: lineBreak) (htab : ¬ w <:+: ['&'])
    (hcells : ∀ row ∈ grid, ∀ cell ∈ row, ¬ w <:+: cell) :
    ¬ w <:+: gridText grid := by
  have hnil : ¬ w <:+: [] := fun h => hbreak (h.trans List.nil_infix)
  intro h
  rcases infix_append_cons (s := []) hspace h with h | h
  · exact hnil h
  rcases infix_append_cons hspace h with h | h
  · obtain ⟨row, hmem, h⟩ := exists_infix_of_intercalate (x := lineBreak) hspace hbreak h
    obtain ⟨cells, hcellsMem, rfl⟩ := List.mem_map.1 hmem
    obtain ⟨cell, hcell, h⟩ := exists_infix_of_intercalate (x := ['&']) hspace htab h
    exact hcells cells hcellsMem cell hcell h
  · exact hnil h

/-- A word that starts as none in the text does not reach over the blank at its end. -/
theorem not_prefix_behind {v x y : List Char} (hv : ¬ v <:+: x ++ y) (hvw : v <+: w) (hspace : ' ' ∉ w)
    (hy : ' ' ∈ y) (t : List Char) : ¬ w <+: y ++ t := fun h =>
  hv (hvw.isInfix.trans ((prefix_of_prefix_append hspace hy h).isInfix.trans (List.suffix_append x y).isInfix))

/-- The environment ends at its closing word. -/
theorem splitEnvironment?_grid (hname : ∀ c ∈ w, isBlank c = false)
    (hcells : ∀ row ∈ grid, ∀ cell ∈ row, IsCell cell) :
    splitEnvironment? w (gridText grid ++ endOf w) = some (gridText grid ++ endOf w, []) := by
  have hspace : ' ' ∉ w := fun hmem => absurd (hname ' ' hmem) (by decide)
  have hnoend : ¬ "\\end\x7b".toList <:+: gridText grid :=
    not_infix_gridText (by decide) (by decide) (by decide) fun row hrow cell hcell => (hcells row hrow cell hcell).noEnd
  have hnobegin : ¬ "\\begin\x7b".toList <:+: gridText grid :=
    not_infix_gridText (by decide) (by decide) (by decide) fun row hrow cell hcell => (hcells row hrow cell hcell).noBegin
  have hlast : (gridText grid).getLast? = some ' ' := by rw [gridText, ← List.append_assoc, List.getLast?_concat]
  generalize gridText grid = s at hnoend hnobegin hlast ⊢
  have hnone : ∀ x y, s = x ++ y → y ≠ [] → ¬ endOf w <+: y ++ endOf w ∧ ¬ beginOf w <+: y ++ endOf w := by
    rintro x y rfl hy
    rw [List.getLast?_append_of_ne_nil _ hy] at hlast
    have hblank := List.mem_of_mem_getLast? hlast
    exact ⟨not_prefix_behind hnoend ⟨w ++ ['}'], by simp [endOf]⟩ (by simp [endOf, hspace]) hblank _,
      not_prefix_behind hnobegin ⟨w ++ ['}'], by simp [beginOf]⟩ (by simp [beginOf, hspace]) hblank _⟩
  have hend : closeEnvironments? w 1 (endOf w) = some (endOf w, []) := by
    conv => lhs; rw [← List.append_nil (endOf w)]
    rw [closeEnvironments?_endOf, if_pos (Nat.le_refl 1)]
  rw [splitEnvironment?, closeEnvironments?_append hnone, hend]
  rfl

/-- The environment is one table, with the texts of its cells. -/
theorem pieces_tableText {name : String} {fences : Fences} (hfences : fences? name = some fences)
    (harray : name ≠ "array") (hgrid : grid ≠ []) (hrows : ∀ row ∈ grid, IsFilledRow row)
    (hcells : ∀ row ∈ grid, ∀ cell ∈ row, IsCell cell) :
    pieces (tableText name.toList grid) = [.table fences grid] := by
  have hname := isPlain_of_fences? hfences
  obtain ⟨hgroup, htrim⟩ := nextGroup?_name hname (gridText grid ++ endOf name.toList)
  have hnotarray : name.toList ≠ "array".toList := fun h => harray (String.toList_injective h)
  have hbody : environmentPieces name.toList (gridText grid) = [.table fences grid] := by
    rw [environmentPieces, String.ofList_toList, hfences]
    simp only [if_neg hnotarray, tableCells_grid hgrid hrows hcells]
  have hread : readEnvironment ('{' :: (name.toList ++ '}' :: (gridText grid ++ endOf name.toList))) =
      ([.table fences grid], []) := by
    simp only [readEnvironment, hgroup, htrim, splitEnvironment?_grid (fun c hc => (hname c hc).2) hcells]
    rw [List.length_append, Nat.add_sub_cancel, List.take_left, hbody]
  have hpieces : readPieces '\\' (envWord true ++ '{' :: (name.toList ++ '}' :: (gridText grid ++ endOf name.toList))) =
      ([.table fences grid], []) := by
    rw [readPieces, if_pos rfl, readCommand_word (isWordBefore_envWord true _)]
    exact hread
  have htext : tableText name.toList grid =
      '\\' :: (envWord true ++ '{' :: (name.toList ++ '}' :: (gridText grid ++ endOf name.toList))) := by
    simp [tableText, beginOf, envWord]
  rw [htext, pieces, hpieces, pieces]
  rfl

/-! ## Converting a table -/

variable {f : List Char → Option Converted}

theorem forall₂_of_convertAll {ts : List (List Char)} {ms : List (List Markup)} {remarks : List Remark}
    (h : convertAll f ts = some (ms, remarks)) :
    ∃ cs : List Converted, List.Forall₂ (fun t c => f t = some c) ts cs ∧ ms = cs.map (·.markup) ∧
      remarks = cs.flatMap (·.remarks) := by
  induction ts generalizing ms remarks with
  | nil =>
    cases h
    exact ⟨[], .nil, rfl, rfl⟩
  | cons t ts ih =>
    simp only [convertAll, Option.bind_eq_bind, Option.bind_eq_some_iff, Option.pure_def, Option.some.injEq,
      Prod.exists, Prod.mk.injEq] at h
    obtain ⟨c, hc, ms, remarks, hrest, rfl, rfl⟩ := h
    obtain ⟨cs, hcs, rfl, rfl⟩ := ih hrest
    exact ⟨c :: cs, .cons hc hcs, rfl, rfl⟩

theorem forall₂_of_convertRows {mss : List (List (List Markup))} {remarks : List Remark}
    (h : convertRows f grid = some (mss, remarks)) :
    ∃ css : List (List Converted), List.Forall₂ (List.Forall₂ fun t c => f t = some c) grid css ∧
      mss = css.map (fun row => row.map (·.markup)) ∧ remarks = css.flatten.flatMap (·.remarks) := by
  induction grid generalizing mss remarks with
  | nil =>
    cases h
    exact ⟨[], .nil, rfl, rfl⟩
  | cons row rows ih =>
    simp only [convertRows, Option.bind_eq_bind, Option.bind_eq_some_iff, Option.pure_def, Option.some.injEq,
      Prod.exists, Prod.mk.injEq] at h
    obtain ⟨ms, remarks, hrow, mss, more, hrest, rfl, rfl⟩ := h
    obtain ⟨cs, hcs, rfl, rfl⟩ := forall₂_of_convertAll hrow
    obtain ⟨css, hcss, rfl, rfl⟩ := ih hrest
    exact ⟨cs :: css, .cons hcs hcss, rfl, by rw [List.flatten_cons, List.flatMap_append]⟩

/-- A table as it is written. -/
theorem tableMarkup_eq (fences : Fences) (rows : List (List (List Markup))) :
    tableMarkup fences rows =
      let table := Markup.element "mtable" [] (rows.map fun row =>
        .element "mtr" [] (row.map fun ms => .element "mtd" [] ms))
      let sign (bracket : Option Char) : List Markup := bracket.toList.map fun c => .element "mo" [] [.text [c]]
      if fences = ⟨none, none⟩ then table
      else .element "mrow" [] (sign fences.opening ++ table :: sign fences.closing) := by
  obtain ⟨opening, closing⟩ := fences
  cases opening <;> cases closing <;> rfl

/-- **A table holds its cells.** The text of a grid, in an environment that is a table, converts to the table of
the converted cells, with the rows and cells of the grid in order, between the brackets of the environment if it has
any, and to what there is to say about the cells. -/
theorem convert_table {fuel : Nat} {name : String} {fences : Fences} (hfences : fences? name = some fences)
    (harray : name ≠ "array") (hgrid : grid ≠ []) (hrows : ∀ row ∈ grid, IsFilledRow row)
    (hcells : ∀ row ∈ grid, ∀ cell ∈ row, IsCell cell) (hfuel : ∀ row ∈ grid, ∀ cell ∈ row, cell.length < fuel) :
    ∃ converted : List (List Converted),
      List.Forall₂ (List.Forall₂ fun cell c => convert fuel cell = some c) grid converted ∧
      let table := Markup.element "mtable" [] (converted.map fun row =>
        .element "mtr" [] (row.map fun c => .element "mtd" [] c.markup))
      let sign (bracket : Option Char) : List Markup := bracket.toList.map fun c => .element "mo" [] [.text [c]]
      convert (fuel + 1) (tableText name.toList grid) = some {
        markup := [if fences = ⟨none, none⟩ then table
          else .element "mrow" [] (sign fences.opening ++ table :: sign fences.closing)]
        remarks := converted.flatten.flatMap (·.remarks) } := by
  have hsome : (convertRows (convert fuel) grid).isSome := by
    refine (isSome_convertRows grid).2 fun cell hcell => ?_
    obtain ⟨row, hrow, hcell⟩ := List.mem_flatten.1 hcell
    exact isSome_convert (noToken_of_hasMark_eq_false (hcells row hrow cell hcell).noMark) (hfuel row hrow cell hcell)
  obtain ⟨⟨mss, remarks⟩, hrows'⟩ := Option.isSome_iff_exists.1 hsome
  obtain ⟨converted, hconverted, rfl, rfl⟩ := forall₂_of_convertRows hrows'
  refine ⟨converted, hconverted, ?_⟩
  have hconvert : convert (fuel + 1) (tableText name.toList grid) =
      some ⟨[tableMarkup fences (converted.map fun row => row.map (·.markup))],
        converted.flatten.flatMap (·.remarks)⟩ := by
    simp [convert, pieces_tableText hfences harray hgrid hrows hcells, placeAll, place, convertTable, hrows',
      Progress.push, Progress.finish, Atom.markup]
  rw [hconvert, tableMarkup_eq]
  simp [List.map_map, Function.comp_def]

/-- A matrix with an empty cell, an escaped tab, and tabs and line breaks in arguments. -/
theorem convert_table_mixed :
    let grid := [["\\text\x7ba & b \\\\ c\x7d".toList, []], ["\\&".toList, "\\frac\x7b1\x7d\x7b2\x7d".toList]]
    fences? "pmatrix" = some ⟨some '(', some ')'⟩ ∧ (∀ row ∈ grid, IsFilledRow row) ∧
    (∀ row ∈ grid, ∀ cell ∈ row, IsCell cell) ∧
    convert 21 (tableText "pmatrix".toList grid) = some {
      markup := [.element "mrow" [] [
        .element "mo" [] [.text ['(']],
        .element "mtable" [] [
          .element "mtr" [] [
            .element "mtd" [] [.element "mtext" [] [.text "a & b \\\\ c".toList]],
            .element "mtd" [] []],
          .element "mtr" [] [
            .element "mtd" [] [.element "mo" [] [.text ['&']]],
            .element "mtd" [] [.element "mfrac" [] [
              .element "mrow" [] [.element "mn" [] [.text ['1']]],
              .element "mrow" [] [.element "mn" [] [.text ['2']]]]]]],
        .element "mo" [] [.text [')']]]]
      remarks := [] } := by
  intro grid
  have hfences : fences? "pmatrix" = some ⟨some '(', some ')'⟩ := rfl
  have hrows : ∀ row ∈ grid, IsFilledRow row := by decide
  have hcells : ∀ row ∈ grid, ∀ cell ∈ row, IsCell cell := by decide +kernel
  obtain ⟨converted, hconverted, htable⟩ := convert_table hfences (by decide) (by decide) hrows hcells
    (by decide : ∀ row ∈ grid, ∀ cell ∈ row, cell.length < 20)
  refine ⟨hfences, hrows, hcells, ?_⟩
  -- the cells convert to what is written out above
  change List.Forall₂ _ [[_, _], [_, _]] converted at hconverted
  obtain _ | ⟨hfirst, _ | ⟨hsecond, _ | _⟩⟩ := hconverted
  obtain _ | ⟨htext, _ | ⟨hempty, _ | _⟩⟩ := hfirst
  obtain _ | ⟨htab, _ | ⟨hfraction, _ | _⟩⟩ := hsecond
  have htext' : convert 20 "\\text\x7ba & b \\\\ c\x7d".toList =
      some ⟨[.element "mtext" [] [.text "a & b \\\\ c".toList]], []⟩ := by cbv
  have hempty' : convert 20 [] = some ⟨[], []⟩ := by cbv
  have htab' : convert 20 "\\&".toList = some ⟨[.element "mo" [] [.text ['&']]], []⟩ := by cbv
  have hfraction' : convert 20 "\\frac\x7b1\x7d\x7b2\x7d".toList = some ⟨[.element "mfrac" [] [
      .element "mrow" [] [.element "mn" [] [.text ['1']]],
      .element "mrow" [] [.element "mn" [] [.text ['2']]]]], []⟩ := by cbv
  obtain rfl := Option.some.inj (htext'.symm.trans htext)
  obtain rfl := Option.some.inj (hempty'.symm.trans hempty)
  obtain rfl := Option.some.inj (htab'.symm.trans htab)
  obtain rfl := Option.some.inj (hfraction'.symm.trans hfraction)
  exact htable

end MathMarkup.Tex
