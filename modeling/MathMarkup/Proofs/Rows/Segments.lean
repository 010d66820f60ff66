import MathMarkup.Proofs.Placeholder.Seams

/-!
# The cells of blocks

The rows of a protected text are rows of blocks, and so are its cells: a row is cut at the tabs that are blocks of
their own (`cellBlocks`). With the spans put back, every cell is spelled by the signs of its blocks
(`tableCells_spell`), and what holds of the blocks of a table and is kept by every cut and by trimming holds of the
blocks of every cell (`forall_cells`).
-/

namespace MathMarkup.Tex

open Text Sign

variable {us : List Sign} {b : Block} {bs x y : List Block} {rows : List (List Block)} {n : Nat} {e : Bool}
  {before after : List (List Char)} {p : Placeholders} {colors : Bool}

namespace Block

/-- Is the block an alignment tab? -/
def isTab (b : Block) : Bool := b.head == .char '&'

/-- Does a row or a cell of a table end at the block? -/
def isSeparator (b : Block) : Bool := b.isBreak || b.isTab

end Block

open Block

/-- The blocks between tabs. -/
def cellBlocks : List Block → List (List Block)
  | [] => [[]]
  | b :: bs => if b.isTab then [] :: cellBlocks bs else (cellBlocks bs).modifyHead (b :: ·)

theorem cellBlocks_ne_nil (bs : List Block) : cellBlocks bs ≠ [] := by
  induction bs with
  | nil => exact List.cons_ne_nil _ _
  | cons b bs ih =>
    rw [cellBlocks]
    split
    · exact List.cons_ne_nil _ _
    · simpa using ih

/-! ## Cutting at tabs -/

theorem consCell_eq_modifyHead (c : Char) {cells : List (List Char)} (h : cells ≠ []) :
    consCell c cells = cells.modifyHead (c :: ·) := by
  cases cells with
  | nil => exact absurd rfl h
  | cons cell cells => rfl

theorem splitCellsFrom_ne_nil (e : Bool) (s : List Char) : splitCellsFrom e s ≠ [] := by
  obtain ⟨cell, cells, h, -⟩ := splitCellsFrom_shape e s
  rw [h]
  exact List.cons_ne_nil _ _

/-- An escaped character belongs to the first cell. -/
theorem splitCellsFrom_escaped (c : Char) (s : List Char) :
    splitCellsFrom false ('\\' :: c :: s) = (splitCellsFrom false s).modifyHead (['\\', c] ++ ·) := by
  have hnext : splitCellsFrom true (c :: s) = consCell c (splitCellsFrom false s) := by
    rw [splitCellsFrom]
    by_cases hc : c = '\\'
    · rw [if_pos hc]
      rfl
    · rw [if_neg hc, if_neg (by simp)]
  have hne := splitCellsFrom_ne_nil false s
  rw [splitCellsFrom, if_pos rfl, Bool.not_false, hnext, consCell_eq_modifyHead c hne,
    consCell_eq_modifyHead _ (by simpa using hne), List.modifyHead_modifyHead]
  rfl

/-- The first row is written as the block and what stands behind it. -/
theorem writeRows_modifyHead (b : Block) (h : rows ≠ []) (n : Nat) :
    writeRows n (rows.modifyHead (b :: ·)) =
      (writeRows (n + (spansOf [b]).length) rows).modifyHead (b.write n ++ ·) := by
  obtain ⟨row, rows, rfl⟩ := List.exists_cons_of_ne_nil h
  have hspans : spansOf (b :: row) = spansOf [b] ++ spansOf row := spansOf_append [b] row
  rw [List.modifyHead_cons, writeRows, writeRows, guard_cons_eq, List.modifyHead_cons, hspans, List.length_append,
    Nat.add_assoc]

/-- A block that is no span is written as its sign, which fits. -/
theorem LaidWith.write_of_not_isWord (h : LaidWith colors (b :: bs)) (hword : b.head.isWord = false) (n : Nat) :
    b.write n = b.head.text ∧ spansOf [b] = [] ∧ b.head.FitsWith colors (spell (signsOf bs)) := by
  have htail := h.tail_eq_nil b List.mem_cons_self hword
  have hfits := h.readable.2.1
  rw [htail] at hfits
  refine ⟨?_, ?_, hfits⟩
  · rw [Block.write_eq, if_neg (by simp [hword]), Block.signs, htail, spell_cons, spell_nil, List.append_nil]
  · rw [spansOf, if_neg (by simp [hword])]
    rfl

/-- Behind a backslash that escapes nothing visible a blank comes, or nothing. -/
theorem LaidWith.isBlank_of_slash (h : LaidWith colors (b :: bs)) (hb : b.head = .slash) :
    ∀ c ∈ bs.head?, c.isBlank = true := by
  intro c hc
  obtain ⟨bs, rfl⟩ := List.head?_eq_some_iff.1 hc
  have hfits := (h.write_of_not_isWord (by rw [hb]; rfl) 0).2.2
  rw [hb, signsOf_cons, Block.signs, List.cons_append] at hfits
  obtain ⟨v, tail⟩ := c
  have hhead := head?_spell_cons v (tail ++ signsOf bs)
  cases v with
  | char c => exact hfits c hhead
  | escaped | slash | word => exact absurd (hfits '\\' hhead) (by decide)
  | env opening name => cases opening <;> exact absurd (hfits '\\' hhead) (by decide)

/-- A block that is no tab and leaves nothing escaped belongs to the first cell. -/
theorem splitCellsFrom_write (htab : b.isTab = false)
    (hcut : splitCellsFrom e (b.write n ++ guard (n + (spansOf [b]).length) bs) =
      (splitCellsFrom false (guard (n + (spansOf [b]).length) bs)).modifyHead (b.write n ++ ·))
    (hrest : splitCellsFrom false (guard (n + (spansOf [b]).length) bs) =
      writeRows (n + (spansOf [b]).length) (cellBlocks bs)) :
    splitCellsFrom e (guard n (b :: bs)) = writeRows n (cellBlocks (b :: bs)) := by
  rw [guard_cons_eq, hcut, hrest, cellBlocks, if_neg (by simp [htab]), writeRows_modifyHead b (cellBlocks_ne_nil bs)]

/-- A span belongs to the first cell. -/
theorem splitCellsFrom_span (hword : b.head.isWord = true)
    (hrest : splitCellsFrom false (guard (n + (spansOf [b]).length) bs) =
      writeRows (n + (spansOf [b]).length) (cellBlocks bs)) :
    splitCellsFrom false (guard n (b :: bs)) = writeRows n (cellBlocks (b :: bs)) := by
  have htab : b.isTab = false := by
    obtain ⟨u, tail⟩ := b
    cases u with
    | word | env => rfl
    | char | escaped | slash => cases hword
  have hwrite : b.write n = placeholder n := by rw [Block.write_eq, if_pos hword]
  have huncut := uncut?_placeholder n []
  rw [List.append_nil] at huncut
  refine splitCellsFrom_write htab ?_ hrest
  rw [hwrite]
  exact splitCellsFrom_append huncut _

/-- A tab ends the first cell. -/
theorem splitCellsFrom_tab {tail : List Sign} (h : LaidWith colors (⟨.char '&', tail⟩ :: bs))
    (hrest : splitCellsFrom false (guard n bs) = writeRows n (cellBlocks bs)) :
    splitCellsFrom false (guard n (⟨.char '&', tail⟩ :: bs)) = writeRows n (cellBlocks (⟨.char '&', tail⟩ :: bs)) := by
  obtain ⟨hwrite, hspans, -⟩ := h.write_of_not_isWord rfl n
  have htab : Block.isTab ⟨.char '&', tail⟩ = true := rfl
  rw [guard_cons_eq, hwrite, hspans, List.length_nil, Nat.add_zero, cellBlocks, if_pos htab, writeRows, text,
    List.singleton_append, splitCellsFrom, if_neg (by decide), if_pos ⟨rfl, rfl⟩]
  exact congrArg ([] :: ·) hrest

/-- A backslash belongs to the first cell, and leaves what comes next escaped. -/
theorem splitCellsFrom_slash {tail : List Sign} (h : LaidWith colors (⟨.slash, tail⟩ :: bs))
    (hrest : splitCellsFrom true (guard n bs) = writeRows n (cellBlocks bs)) :
    splitCellsFrom false (guard n (⟨.slash, tail⟩ :: bs)) = writeRows n (cellBlocks (⟨.slash, tail⟩ :: bs)) := by
  obtain ⟨hwrite, hspans, -⟩ := h.write_of_not_isWord rfl n
  have htab : Block.isTab ⟨.slash, tail⟩ = false := rfl
  rw [guard_cons_eq, hwrite, hspans, List.length_nil, Nat.add_zero, text, List.singleton_append, splitCellsFrom,
    if_pos rfl, Bool.not_false, hrest, consCell_eq_modifyHead _ (hrest ▸ splitCellsFrom_ne_nil _ _), cellBlocks,
    if_neg (by simp [htab]), writeRows_modifyHead _ (cellBlocks_ne_nil bs), hspans, hwrite]
  rfl

/-- **Cutting the text of blocks** at its tabs cuts the blocks. Behind a backslash a blank is escaped. -/
theorem splitCellsFrom_guard (h : LaidWith colors bs) (he : e = true → ∀ b ∈ bs.head?, b.isBlank = true) (n : Nat) :
    splitCellsFrom e (guard n bs) = writeRows n (cellBlocks bs) := by
  induction bs generalizing e n with
  | nil => rfl
  | cons b bs ih =>
    have hfirst : ∀ m, splitCellsFrom false (guard m bs) = writeRows m (cellBlocks bs) := ih h.of_cons (by simp)
    have hfalse : b.isBlank = false → e = false := by
      intro hblank
      refine Bool.eq_false_iff.2 fun htrue => ?_
      rw [he htrue b rfl] at hblank
      cases hblank
    have hslash := h.isBlank_of_slash
    obtain ⟨u, tail⟩ := b
    cases u with
    | word | env =>
      obtain rfl := hfalse rfl
      exact splitCellsFrom_span rfl (hfirst _)
    | char c =>
      by_cases htab : c = '&'
      · subst htab
        obtain rfl := hfalse rfl
        exact splitCellsFrom_tab h (hfirst n)
      · obtain ⟨hwrite, -, hfits⟩ := h.write_of_not_isWord rfl n
        refine splitCellsFrom_write (by simpa [isTab] using htab) ?_ (hfirst _)
        rw [hwrite]
        refine splitCellsFrom_append ?_ _
        cases e with
        | false => exact uncut?_of_plain (by simpa [text] using ⟨hfits.1, htab⟩)
        | true => simp [text, uncut?, hfits.1]
    | escaped c =>
      obtain rfl := hfalse rfl
      refine splitCellsFrom_write rfl ?_ (hfirst _)
      rw [(h.write_of_not_isWord rfl n).1]
      exact splitCellsFrom_escaped c _
    | slash =>
      obtain rfl := hfalse rfl
      exact splitCellsFrom_slash h (ih h.of_cons (fun _ => hslash rfl) n)

theorem splitCells_guard (h : LaidWith colors bs) (n : Nat) : splitCells (guard n bs) = writeRows n (cellBlocks bs) :=
  splitCellsFrom_guard h (by simp) n

/-! ## The spans of rows and cells -/

theorem spansOf_eq_nil_of_isGap (h : ∀ b ∈ bs, b.isGap = true) : spansOf bs = [] := by
  induction bs with
  | nil => rfl
  | cons b bs ih =>
    obtain ⟨hb, hbs⟩ := List.forall_mem_cons.1 h
    rw [spansOf, if_neg, ih hbs]
    obtain ⟨u, tail⟩ := b
    cases u with
    | char | escaped | slash => exact Bool.false_ne_true
    | word | env => cases hb

theorem flatMap_spansOf_blockRows (bs : List Block) : (blockRows bs).flatMap spansOf = spansOf bs := by
  fun_induction blockRows bs with
  | case1 bs hnone => exact List.flatMap_singleton spansOf bs
  | case2 bs row rest hsome ih =>
    obtain ⟨b, hb, rfl, -⟩ := eq_of_breakBlocks? hsome
    have hgap : ∀ c ∈ b :: rest.takeWhile Block.isGap, c.isGap = true :=
      List.forall_mem_cons.2 ⟨by simp [Block.isGap, hb], fun c hc => List.mem_takeWhile_imp hc⟩
    have hsplit : b :: rest = b :: rest.takeWhile Block.isGap ++ rest.dropWhile Block.isGap := by simp
    rw [List.flatMap_cons, ih, hsplit, spansOf_append, spansOf_append, spansOf_eq_nil_of_isGap hgap, List.nil_append]

theorem flatMap_spansOf_rowsOf (bs : List Block) : (rowsOf bs).flatMap spansOf = spansOf bs := by
  have hfilter : ∀ rows : List (List Block),
      (rows.filter fun r => !r.isEmpty).flatMap spansOf = rows.flatMap spansOf := by
    intro rows
    induction rows with
    | nil => rfl
    | cons row rows ih =>
      cases row with
      | nil => exact ih
      | cons b row => exact congrArg (spansOf (b :: row) ++ ·) ih
  rw [rowsOf, hfilter, List.flatMap_map, ← flatMap_spansOf_blockRows bs]
  exact congrArg (fun f => (blockRows bs).flatMap f) (funext spansOf_trimBlocks)

theorem flatMap_spansOf_cellBlocks (bs : List Block) : (cellBlocks bs).flatMap spansOf = spansOf bs := by
  induction bs with
  | nil => rfl
  | cons b bs ih =>
    have hb : spansOf (b :: bs) = spansOf [b] ++ spansOf bs := spansOf_append [b] bs
    rw [cellBlocks, hb, ← ih]
    split
    · rename_i htab
      have hword : b.head.isWord = false := by
        have hhead : b.head = .char '&' := by simpa [isTab] using htab
        rw [hhead]
        rfl
      rw [spansOf, if_neg (by simp [hword])]
      rfl
    · obtain ⟨cell, cells, hcells⟩ := List.exists_cons_of_ne_nil (cellBlocks_ne_nil bs)
      have hcell : spansOf (b :: cell) = spansOf [b] ++ spansOf cell := spansOf_append [b] cell
      rw [hcells, List.modifyHead_cons, List.flatMap_cons, List.flatMap_cons, hcell, List.append_assoc]

/-! ## Cells with their spans -/

theorem LaidWith.of_part (h : LaidWith colors bs) (hx : x <:+: bs) : LaidWith colors x := by
  obtain ⟨a, b, rfl⟩ := hx
  exact h.of_append_left.of_append_right

theorem trimBlocks_isInfix (bs : List Block) : trimBlocks bs <:+: bs := by
  obtain ⟨blanks, hbs, -⟩ := trimBlocksEnd_append (bs.dropWhile Block.isBlank)
  refine List.IsInfix.trans ?_ (List.dropWhile_suffix Block.isBlank).isInfix
  exact ⟨[], blanks, by rw [List.nil_append, trimBlocks, ← hbs]⟩

/-- The map puts the signs of a cell back. -/
theorem restore_guard (hmark : hasMark (spell (signsOf bs)) = false)
    (hp : p.spans = before ++ (spansOf bs ++ after)) : p.restore (guard before.length bs) = spell (signsOf bs) := by
  have hexpand : expand p.spans (number before.length bs) = spell (signsOf bs) := by
    rw [hp, expand_number_append bs before after rfl]
  rw [← hexpand]
  exact restore_write fun n _ => hexpand ▸ noToken_of_hasMark_eq_false hmark n

/-- What is made of each row while the spans are numbered through. -/
theorem map_writeRows {β : Type} {f : List Char → β} {g : List Block → β}
    (h : ∀ row ∈ rows, ∀ before after, p.spans = before ++ (spansOf row ++ after) →
      f (guard before.length row) = g row)
    (hp : p.spans = before ++ (rows.flatMap spansOf ++ after)) :
    (writeRows before.length rows).map f = rows.map g := by
  induction rows generalizing before with
  | nil => rfl
  | cons row rows ih =>
    obtain ⟨hrow, hrows⟩ := List.forall_mem_cons.1 h
    have hlength : (before ++ spansOf row).length = before.length + (spansOf row).length := List.length_append
    rw [writeRows, List.map_cons, List.map_cons, ← hlength, ih hrows (by simp [hp]),
      hrow before (rows.flatMap spansOf ++ after) (by simp [hp])]

theorem LaidWith.of_mem_rowsOf (h : LaidWith colors bs) {row : List Block} (hrow : row ∈ rowsOf bs) :
    LaidWith colors row := by
  obtain ⟨r, hr, rfl⟩ := List.mem_map.1 (List.mem_filter.1 hrow).1
  exact (h.of_mem_blockRows hr).of_part (trimBlocks_isInfix r)

/-- The first cell starts the blocks; behind the tab that ends it come the other cells. -/
theorem cellBlocks_shape (bs : List Block) : ∃ cell cells, cellBlocks bs = cell :: cells ∧
    ((cells = [] ∧ bs = cell) ∨ ∃ b rest, b.isTab = true ∧ bs = cell ++ b :: rest ∧ cells = cellBlocks rest) := by
  induction bs with
  | nil => exact ⟨[], [], rfl, Or.inl ⟨rfl, rfl⟩⟩
  | cons b bs ih =>
    rw [cellBlocks]
    by_cases htab : b.isTab = true
    · rw [if_pos htab]
      exact ⟨[], _, rfl, Or.inr ⟨b, bs, htab, rfl, rfl⟩⟩
    · obtain ⟨cell, cells, heq, hshape⟩ := ih
      rw [if_neg htab, heq]
      refine ⟨b :: cell, cells, rfl, ?_⟩
      rcases hshape with ⟨rfl, rfl⟩ | ⟨d, rest, hd, rfl, rfl⟩
      · exact Or.inl ⟨rfl, rfl⟩
      · exact Or.inr ⟨d, rest, hd, rfl, rfl⟩

/-- What is kept by cutting at a tab holds of every cell. -/
theorem forall_cellBlocks {Q : List Block → Prop}
    (hQ : ∀ x b y, b.isTab = true → Q (x ++ b :: y) → Q x ∧ Q y) (h : Q bs) : ∀ cell ∈ cellBlocks bs, Q cell := by
  induction hlength : bs.length using Nat.strongRecOn generalizing bs with
  | ind length ih =>
    intro cell hcell
    obtain ⟨first, cells, heq, hshape⟩ := cellBlocks_shape bs
    rw [heq, List.mem_cons] at hcell
    rcases hshape with ⟨rfl, rfl⟩ | ⟨b, rest, htab, rfl, rfl⟩
    · rcases hcell with rfl | hcell
      · exact h
      · cases hcell
    · obtain ⟨hfirst, hrest⟩ := hQ first b rest htab h
      rcases hcell with rfl | hcell
      · exact hfirst
      · refine ih rest.length ?_ hrest rfl cell hcell
        rw [← hlength, List.length_append, List.length_cons]
        omega

theorem infix_of_mem_cellBlocks {cell : List Block} (hcell : cell ∈ cellBlocks bs) : cell <:+: bs := by
  refine forall_cellBlocks (Q := (· <:+: bs)) (fun x b y _ hin => ⟨?_, ?_⟩) List.infix_rfl cell hcell
  · exact (List.prefix_append x (b :: y)).isInfix.trans hin
  · exact ((List.suffix_cons b y).trans (List.suffix_append x (b :: y))).isInfix.trans hin

/-- **The cells of a readable text** are spelled by the blocks between its separators, trimmed. -/
theorem tableCells_spell (h : ReadableWith colors us) : tableCells (spell us) =
    (rowsOf (blocksOf us)).map fun row => (cellBlocks row).map fun cell => spell (signsOf (trimBlocks cell)) := by
  have hlaid := laid_blocksOf h
  have hprotect : Placeholders.empty.protect (spell us) = (⟨spansOf (blocksOf us)⟩, guard 0 (blocksOf us)) := by
    have hzero : Placeholders.empty.size = 0 := rfl
    rw [Placeholders.protect, hzero, protectFrom_spell h]
    rfl
  simp only [tableCells, hprotect, splitRows_guard hlaid]
  have hspans : (Placeholders.mk (spansOf (blocksOf us))).spans =
      [] ++ ((rowsOf (blocksOf us)).flatMap spansOf ++ []) := by simp [flatMap_spansOf_rowsOf]
  refine map_writeRows ?_ hspans
  intro row hrow before after hp
  have hlaidRow := hlaid.of_mem_rowsOf hrow
  rw [splitCells_guard hlaidRow]
  rw [← flatMap_spansOf_cellBlocks row] at hp
  refine map_writeRows ?_ hp
  intro cell hcell before after hp
  have hlaidCell := hlaidRow.of_part (infix_of_mem_cellBlocks hcell)
  have hmark := (hlaidCell.of_part (trimBlocks_isInfix cell)).readable.hasMark_eq_false
  rw [trim_guard hlaidCell]
  exact restore_guard hmark (by rw [spansOf_trimBlocks]; exact hp)

/-! ## What holds of every cell -/

/-- The property of blocks is kept by cutting at a separator, and by leaving a blank at either end out. -/
structure IsCutKept (Q : List Block → Prop) : Prop where
  front : ∀ {x b y}, b.isSeparator = true → Q (x ++ b :: y) → Q x
  back : ∀ {x b y}, b.isSeparator = true → Q (x ++ b :: y) → Q y
  start : ∀ {b y}, b.isBlank = true → Q (b :: y) → Q y
  stop : ∀ {x b}, b.isBlank = true → Q (x ++ [b]) → Q x

variable {Q : List Block → Prop}

theorem IsCutKept.dropWhile (hQ : IsCutKept Q) {f : Block → Bool} (hf : ∀ b, f b = true → b.isGap = true) (h : Q bs) :
    Q (bs.dropWhile f) := by
  induction bs with
  | nil => exact h
  | cons b bs ih =>
    rw [List.dropWhile_cons]
    split
    · rename_i hb
      have hgap := hf b hb
      rw [Block.isGap, Bool.or_eq_true] at hgap
      rcases hgap with hbreak | hblank
      · exact ih (hQ.back (x := []) (by simp [isSeparator, hbreak]) h)
      · exact ih (hQ.start hblank h)
    · exact h

theorem IsCutKept.of_blanks (hQ : IsCutKept Q) (hblanks : ∀ b ∈ y, b.isBlank = true) (h : Q (x ++ y)) : Q x := by
  induction y using List.reverseRecOn with
  | nil => rwa [List.append_nil] at h
  | append_singleton y b ih =>
    rw [← List.append_assoc] at h
    exact ih (fun c hc => hblanks c (List.mem_append_left _ hc)) (hQ.stop (hblanks b (by simp)) h)

theorem IsCutKept.trimmed (hQ : IsCutKept Q) (h : Q bs) : Q (trimBlocks bs) := by
  have hstart := hQ.dropWhile (f := Block.isBlank) (fun b hb => by simp [Block.isGap, hb]) h
  obtain ⟨blanks, hbs, hblanks⟩ := trimBlocksEnd_append (bs.dropWhile Block.isBlank)
  rw [hbs] at hstart
  exact hQ.of_blanks hblanks hstart

theorem IsCutKept.forall_blockRows (hQ : IsCutKept Q) (h : Q bs) : ∀ row ∈ blockRows bs, Q row := by
  fun_induction blockRows bs with
  | case1 bs hnone => exact List.forall_mem_singleton.2 h
  | case2 bs row rest hsome ih =>
    obtain ⟨b, hb, rfl, -⟩ := eq_of_breakBlocks? hsome
    have hseparator : b.isSeparator = true := by simp [isSeparator, hb]
    refine List.forall_mem_cons.2 ⟨hQ.front hseparator h, ih ?_⟩
    exact hQ.dropWhile (fun _ h => h) (hQ.back hseparator h)

/-- **What every cut keeps** holds of the blocks of every cell. -/
theorem IsCutKept.forall_cells (hQ : IsCutKept Q) (h : Q bs) :
    ∀ row ∈ rowsOf bs, ∀ cell ∈ cellBlocks row, Q (trimBlocks cell) := by
  intro row hrow cell hcell
  obtain ⟨r, hr, rfl⟩ := List.mem_map.1 (List.mem_filter.1 hrow).1
  have hcut : ∀ x b y, b.isTab = true → Q (x ++ b :: y) → Q x ∧ Q y := fun x b y htab hxy =>
    have hseparator : b.isSeparator = true := by simp [isSeparator, htab]
    ⟨hQ.front hseparator hxy, hQ.back hseparator hxy⟩
  exact hQ.trimmed (forall_cellBlocks hcut (hQ.trimmed (hQ.forall_blockRows h r hr)) cell hcell)

end MathMarkup.Tex
