import MathMarkup.Proofs.Rows.Cells
import MathMarkup.Tex.Rows

/-!
# What changing the line structure keeps

Collapsing, cutting, trimming, dropping empty rows, anchoring and joining take away or add layout only:
blanks, backslashes and alignment tabs. Every cut falls between items. So what is left of the items
without layout comes out in order and each once, whatever else stands in the text (`holds_joinRows`).
-/

namespace MathMarkup.Tex

open Text

variable {items content content' : List Item} {c : Char} {s t a b : List Char} {rows : List (List Char)}

/-! ## Layout -/

/-- A character that changing the line structure may add or take away. -/
def isLayout (c : Char) : Bool := isBlank c || c == '\\' || c == '&'

theorem isTokenChar_of_isLayout (h : isLayout c = true) : isTokenChar c = false := by
  simp only [isLayout, Bool.or_eq_true, beq_iff_eq] at h
  rcases h with (hblank | rfl) | rfl
  · exact isTokenChar_of_isBlank hblank
  · rfl
  · rfl

theorem isLayout_of_isBlank (h : isBlank c = true) : isLayout c = true := by simp [isLayout, h]

/-- Is the item more than layout? -/
def Item.isContent : Item → Bool
  | .char c => !isLayout c
  | .token _ => true

/-- What is left of the items without layout. -/
def contentOf (items : List Item) : List Item := items.filter Item.isContent

@[simp] theorem contentOf_append (i j : List Item) : contentOf (i ++ j) = contentOf i ++ contentOf j :=
  List.filter_append i j

/-- Items whose text is layout only leave nothing. -/
theorem contentOf_eq_nil (h : ∀ c ∈ write items, isLayout c = true) : contentOf items = [] := by
  refine List.filter_eq_nil_iff.2 fun item hitem => ?_
  have hwrite : item.render [] 0 ⊆ write items := fun d hd => List.mem_flatMap.2 ⟨item, hitem, hd⟩
  cases item with
  | char c => simpa [Item.isContent] using h c (hwrite (List.mem_singleton_self c))
  | token n =>
    have hmark := h openMark (hwrite (by simp [Item.render, placeholder]))
    exact absurd hmark (by decide)

/-! ## Texts that hold a content -/

/-- The text can be read as items of which this is left without layout. -/
def Holds (content : List Item) (s : List Char) : Prop := ∃ items, write items = s ∧ contentOf items = content

theorem holds_of_layout (h : ∀ c ∈ s, isLayout c = true) : Holds [] s :=
  ⟨s.map .char, write_chars s, contentOf_eq_nil (by rwa [write_chars])⟩

theorem Holds.append (hs : Holds content s) (ht : Holds content' t) : Holds (content ++ content') (s ++ t) := by
  obtain ⟨i, rfl, rfl⟩ := hs
  obtain ⟨j, rfl, rfl⟩ := ht
  exact ⟨i ++ j, write_append i j, contentOf_append i j⟩

/-- Layout in front changes nothing. -/
theorem Holds.append_left (h : Holds content s) (ha : ∀ c ∈ a, isLayout c = true) : Holds content (a ++ s) :=
  (holds_of_layout ha).append h

/-- A cut beside layout cuts no token. -/
theorem Holds.cut (h : Holds content (a ++ b))
    (hcut : (∀ c ∈ a.getLast?, isLayout c = true) ∨ ∀ c ∈ b.head?, isLayout c = true) :
    ∃ front back, content = front ++ back ∧ Holds front a ∧ Holds back b := by
  obtain ⟨items, hwrite, rfl⟩ := h
  obtain ⟨i, j, rfl, hi, hj⟩ := exists_append_of_write hwrite
    (hcut.imp (fun h c hc => isTokenChar_of_isLayout (h c hc)) fun h c hc => isTokenChar_of_isLayout (h c hc))
  exact ⟨contentOf i, contentOf j, contentOf_append i j, ⟨i, hi, rfl⟩, ⟨j, hj, rfl⟩⟩

theorem Holds.eq_nil (h : Holds content s) (hs : ∀ c ∈ s, isLayout c = true) : content = [] := by
  obtain ⟨items, rfl, rfl⟩ := h
  exact contentOf_eq_nil hs

theorem Holds.of_append_left (h : Holds content (a ++ s)) (ha : ∀ c ∈ a, isLayout c = true) : Holds content s := by
  obtain ⟨front, back, rfl, hfront, hback⟩ := h.cut (Or.inl fun c hc => ha c (List.mem_of_mem_getLast? hc))
  obtain rfl := hfront.eq_nil ha
  exact hback

theorem Holds.of_append_right (h : Holds content (s ++ b)) (hb : ∀ c ∈ b, isLayout c = true) : Holds content s := by
  obtain ⟨front, back, rfl, hfront, hback⟩ := h.cut (Or.inr fun c hc => hb c (List.mem_of_mem_head? hc))
  obtain rfl := hback.eq_nil hb
  rwa [List.append_nil]

theorem Holds.trim (h : Holds content s) : Holds content (trim s) := by
  obtain ⟨a, b, hs, ha, hb⟩ := append_trim s
  rw [hs] at h
  exact (h.of_append_right fun c hc => isLayout_of_isBlank (hb c hc)).of_append_left fun c hc =>
    isLayout_of_isBlank (ha c hc)

theorem Holds.trimStart (h : Holds content s) : Holds content (trimStart s) := by
  rw [← trimStart_append s] at h
  exact h.of_append_left fun c hc => isLayout_of_isBlank (isBlank_of_mem_takeWhile c hc)

theorem Holds.afterLineBreaks (h : Holds content s) : Holds content (afterLineBreaks s) := by
  obtain ⟨a, ha, hall⟩ := append_afterLineBreaks s
  rw [ha] at h
  refine h.of_append_left fun c hc => ?_
  rcases hall c hc with hblank | rfl
  · exact isLayout_of_isBlank hblank
  · rfl

theorem Holds.anchored (h : Holds content s) : Holds content (anchored s) := by
  unfold Tex.anchored
  split
  · exact h
  · exact h.append_left (a := ['&', ' ']) (List.all_eq_true.1 (by decide))

/-! ## Rows -/

/-- The rows hold the content, one row after the other. -/
def HoldsRows : List Item → List (List Char) → Prop
  | content, [] => content = []
  | content, row :: rows => ∃ front back, content = front ++ back ∧ Holds front row ∧ HoldsRows back rows

theorem Holds.breakRows (h : Holds content s) : HoldsRows content (breakRows s) := by
  have hbreak : ∀ c ∈ lineBreak, isLayout c = true := List.all_eq_true.1 (by decide)
  fun_induction Tex.breakRows s generalizing content with
  | case1 s hnone => exact ⟨content, [], (List.append_nil content).symm, h, rfl⟩
  | case2 s row rest hsome ih =>
    rw [eq_append_of_breakOn? hsome, List.append_assoc] at h
    obtain ⟨front, back, rfl, hrow, hrest⟩ := h.cut (Or.inr fun c hc => hbreak c (List.mem_of_mem_head? hc))
    exact ⟨front, back, rfl, hrow, ih (hrest.of_append_left hbreak).trimStart.afterLineBreaks⟩

theorem HoldsRows.map (h : HoldsRows content rows) {f : List Char → List Char}
    (hf : ∀ content row, Holds content row → Holds content (f row)) : HoldsRows content (rows.map f) := by
  induction rows generalizing content with
  | nil => exact h
  | cons row rows ih =>
    obtain ⟨front, back, rfl, hrow, hrows⟩ := h
    exact ⟨front, back, rfl, hf front row hrow, ih hrows⟩

/-- An empty row holds nothing. -/
theorem HoldsRows.filter (h : HoldsRows content rows) : HoldsRows content (rows.filter fun row => !row.isEmpty) := by
  induction rows generalizing content with
  | nil => exact h
  | cons row rows ih =>
    obtain ⟨front, back, rfl, hrow, hrows⟩ := h
    by_cases hempty : row = []
    · subst hempty
      obtain rfl := hrow.eq_nil (List.forall_mem_nil _)
      rw [List.filter_cons_of_neg (by simp), List.nil_append]
      exact ih hrows
    · rw [List.filter_cons_of_pos (by simpa using hempty)]
      exact ⟨front, back, rfl, hrow, ih hrows⟩

theorem holdsRows_splitRows (h : Holds content s) : HoldsRows content (splitRows (collapseLineBreaks s)) := by
  rw [splitRows, splitOn_collapseLineBreaks]
  exact (h.breakRows.map fun _ _ => Holds.trim).filter

theorem HoldsRows.anchorRows (h : HoldsRows content rows) : HoldsRows content (anchorRows rows) := by
  cases rows with
  | nil => exact h
  | cons row rows =>
    obtain ⟨front, back, rfl, hrow, hrows⟩ := h
    exact ⟨front, back, rfl, hrow, hrows.map fun _ _ => Holds.anchored⟩

theorem HoldsRows.joinRows (h : HoldsRows content rows) : Holds content (joinRows rows) := by
  have hbehind : ∀ rows content, HoldsRows content rows →
      Holds content (rows.flatMap fun row => [' ', '\\', '\\', ' '] ++ row) := by
    intro rows
    induction rows with
    | nil =>
      rintro content rfl
      exact holds_of_layout (List.forall_mem_nil _)
    | cons row rows ih =>
      rintro content ⟨front, back, rfl, hrow, hrows⟩
      exact (hrow.append_left (List.all_eq_true.1 (by decide))).append (ih back hrows)
  cases rows with
  | nil =>
    obtain rfl : content = [] := h
    exact holds_of_layout (List.forall_mem_nil _)
  | cons row rows =>
    obtain ⟨front, back, rfl, hrow, hrows⟩ := h
    rw [joinRows_cons]
    exact hrow.append (hbehind rows back hrows)

/-- **Everything but layout is carried along**, in order and once, through all steps of the line
normalizer. -/
theorem holds_joinRows (h : Holds content s) :
    Holds content (joinRows (anchorRows (splitRows (collapseLineBreaks s)))) :=
  (holdsRows_splitRows h).anchorRows.joinRows

end MathMarkup.Tex
