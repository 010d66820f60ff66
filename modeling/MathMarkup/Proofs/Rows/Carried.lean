import MathMarkup.Proofs.Placeholder.Rewrites
import MathMarkup.Proofs.Rows.Content

/-!
# The line normalizer carries every token along

Tokens and what stands outside of them are content, so they come out of the line normalizer as they went
in. The protected text holds the tokens of its map in order (`numbers_protect`), and where these are all
of the placeholder characters the spans are filled in without leaks (`fill_append_write`).

Main statement: `exists_items_of_joinRows`.
-/

namespace MathMarkup.Tex

open Text

variable {items : List Item} {ns ms : List Nat} {p : Placeholders} {n k : Nat} {c : Char} {s t a b : List Char}
  {rows : List (List Char)}

/-! ## Tokens and characters of items -/

def Item.number? : Item → Option Nat
  | .char _ => none
  | .token n => some n

/-- The numbers of the tokens, in order. -/
def numbers (items : List Item) : List Nat := items.filterMap Item.number?

/-- The characters outside of tokens. -/
def charsOf (items : List Item) : List Char := items.flatMap (Item.fill fun _ => [])

@[simp] theorem numbers_append (a b : List Item) : numbers (a ++ b) = numbers a ++ numbers b :=
  List.filterMap_append

@[simp] theorem charsOf_append (a b : List Item) : charsOf (a ++ b) = charsOf a ++ charsOf b :=
  List.flatMap_append

@[simp] theorem numbers_chars (s : List Char) : numbers (s.map .char) = [] := by
  simp [numbers, Item.number?]

@[simp] theorem fill_chars (f : Nat → List Char) (s : List Char) : (s.map .char).flatMap (Item.fill f) = s := by
  induction s with
  | nil => rfl
  | cons c s ih => simpa [Item.fill] using ih

@[simp] theorem charsOf_chars (s : List Char) : charsOf (s.map .char) = s := fill_chars _ s

theorem mem_numbers : n ∈ numbers items ↔ .token n ∈ items := by
  rw [numbers, List.mem_filterMap]
  constructor
  · rintro ⟨item, hmem, hnumber⟩
    cases item with
    | char c => cases hnumber
    | token m =>
      obtain rfl : m = n := Option.some.inj hnumber
      exact hmem
  · exact fun hmem => ⟨_, hmem, rfl⟩

theorem mem_charsOf : c ∈ charsOf items ↔ .char c ∈ items := by
  constructor
  · intro h
    obtain ⟨item, hmem, hc⟩ := List.mem_flatMap.1 h
    cases item with
    | char d =>
      obtain rfl := List.mem_singleton.1 hc
      exact hmem
    | token n => cases hc
  · exact fun h => List.mem_flatMap.2 ⟨.char c, h, List.mem_singleton_self c⟩

theorem charsOf_subset_write (items : List Item) : charsOf items ⊆ write items := fun c hc =>
  List.mem_flatMap.2 ⟨.char c, mem_charsOf.1 hc, List.mem_singleton_self c⟩

theorem placeholder_infix_write (h : .token n ∈ items) : placeholder n <:+: write items := by
  obtain ⟨front, back, rfl⟩ := List.append_of_mem h
  rw [write_append, write_token_cons]
  exact ⟨write front, write back, by rw [List.append_assoc]⟩

/-! ## Without layout -/

theorem numbers_contentOf (items : List Item) : numbers (contentOf items) = numbers items := by
  rw [numbers, contentOf, List.filterMap_filter]
  congr 1
  funext item
  cases item with
  | char c => exact ite_self none
  | token n => rfl

theorem charsOf_contentOf (items : List Item) :
    charsOf (contentOf items) = (charsOf items).filter fun c => !isLayout c := by
  induction items with
  | nil => rfl
  | cons item items ih =>
    rw [← List.singleton_append, contentOf_append, charsOf_append, charsOf_append, List.filter_append, ih]
    congr 1
    cases item with
    | token n => rfl
    | char c => by_cases hc : isLayout c = true <;> simp [contentOf, charsOf, Item.isContent, Item.fill, hc]

theorem hasMark_charsOf_contentOf (items : List Item) :
    hasMark (charsOf (contentOf items)) = hasMark (charsOf items) := by
  rw [charsOf_contentOf, hasMark, hasMark, List.any_filter]
  congr 1
  funext c
  by_cases hc : isLayout c = true
  · have hplain := isTokenChar_of_isLayout hc
    simp only [isTokenChar, Bool.or_eq_false_iff] at hplain
    simp [hplain]
  · simp [hc]

/-! ## The protected text -/

theorem mem_of_mem_token {d : Char} (h : d ∈ c :: s.take k) : d ∈ c :: s := by
  rcases List.mem_cons.1 h with rfl | h
  · exact List.mem_cons_self
  · exact List.mem_cons_of_mem _ (List.mem_of_mem_take h)

theorem numbers_itemsFrom (n covered : Nat) (s : List Char) :
    numbers (itemsFrom n covered s) = List.range' n (Placeholders.protectFrom n covered s).1.length := by
  fun_induction Placeholders.protectFrom n covered s with
  | case1 => rw [itemsFrom]; rfl
  | case2 n covered c s kind k hm token hcov spans out hrec ih =>
    rw [hrec] at ih
    rw [itemsFrom, hm]
    simp only [hcov, ↓reduceIte, numbers_append, numbers_chars, List.nil_append, ih]
  | case3 n covered c s kind k hm token hcov hword tail spans out hrec ih =>
    rw [hrec] at ih
    rw [itemsFrom, hm]
    simp only [hcov, ↓reduceIte]
    rw [if_pos hword, List.length_cons, List.range'_succ, ← ih]
    rfl
  | case4 n covered c s kind k hm token hcov hword spans out hrec ih =>
    rw [hrec] at ih
    rw [itemsFrom, hm]
    simp only [hcov, ↓reduceIte]
    rw [if_neg hword, numbers_append, numbers_chars, List.nil_append, ih]

theorem mem_of_mem_charsOf_itemsFrom {covered : Nat} (h : c ∈ charsOf (itemsFrom n covered s)) : c ∈ s := by
  fun_induction itemsFrom n covered s with
  | case1 => cases h
  | case2 n covered d s kind k hm token hcov ih =>
    rw [charsOf_append, charsOf_chars, List.mem_append] at h
    rcases h with h | h
    · exact mem_of_mem_token (List.mem_of_mem_drop h)
    · exact List.mem_cons_of_mem _ (List.mem_of_mem_drop (ih h))
  | case3 n covered d s kind k hm token hcov hword ih =>
    exact List.mem_cons_of_mem _ (List.mem_of_mem_drop (ih h))
  | case4 n covered d s kind k hm token hcov hword ih =>
    rw [charsOf_append, charsOf_chars, List.mem_append] at h
    rcases h with h | h
    · exact mem_of_mem_token h
    · exact List.mem_cons_of_mem _ (List.mem_of_mem_drop (ih h))

/-- **The protected text** holds the tokens of its map, in order. -/
theorem numbers_protect (hp : Placeholders.empty.protect s = (p, t)) :
    numbers (itemsFrom 0 0 s) = List.range p.size := by
  rw [protect_empty, Prod.mk.injEq] at hp
  obtain ⟨rfl, -⟩ := hp
  rw [numbers_itemsFrom, List.range_eq_range']
  rfl

/-! ## Filling in -/

/-- The items with the spans of the map in place of the tokens. -/
def Placeholders.filled (p : Placeholders) (items : List Item) : List Char :=
  items.flatMap (Item.fill fun n => p.spans.getD n [])

theorem Placeholders.filled_cons (p : Placeholders) (item : Item) (items : List Item) :
    p.filled (item :: items) = item.fill (fun n => p.spans.getD n []) ++ p.filled items := List.flatMap_cons

/-- **Tokens of the map** are filled in where they stand. Where no placeholder character stands outside of
them, none is left. -/
theorem fill_append_write (hnumbers : ∀ n ∈ numbers items, n < p.size) (hchars : hasMark (charsOf items) = false)
    (ha : hasMark a = false) (hb : hasMark b = false) :
    p.fill (a ++ write items ++ b) = a ++ p.filled items ++ b ∧ hasMark (p.erase (a ++ write items ++ b)) = false := by
  have hwrite : write (a.map .char ++ items ++ b.map .char) = a ++ write items ++ b := by
    rw [write_append, write_append, write_chars, write_chars]
  have hclean : hasMark (charsOf (a.map .char ++ items ++ b.map .char)) = false := by
    rw [charsOf_append, charsOf_append, charsOf_chars, charsOf_chars]
    simp only [hasMark_append, ha, hb, hchars, Bool.or_self]
  have hparsed : Parsed p.size (a.map .char ++ items ++ b.map .char) := by
    refine parsed_of_unmarked (fun c hc => ?_) fun n hn => hnumbers n ?_
    · rintro rfl
      exact (hasMark_eq_false_iff.1 hclean).1 (mem_charsOf.2 hc)
    · rw [← mem_numbers, numbers_append, numbers_append, numbers_chars, numbers_chars] at hn
      simpa using hn
  refine ⟨?_, ?_⟩
  · rw [← hwrite, Placeholders.fill, hparsed.fillTokens_write, List.flatMap_append, List.flatMap_append, fill_chars,
      fill_chars]
    rfl
  · rw [← hwrite, Placeholders.erase, hparsed.fillTokens_write]
    exact hclean

/-- The items of a protected text, filled in, are the text. -/
theorem filled_itemsFrom (h : hasMark s = false) (hp : Placeholders.empty.protect s = (p, t)) :
    p.filled (itemsFrom 0 0 s) = s := by
  have hguarded : write (itemsFrom 0 0 s) = t := (Prod.mk.inj ((protect_empty s).symm.trans hp)).2
  have hunmarked : hasMark (charsOf (itemsFrom 0 0 s)) = false :=
    hasMark_eq_false_of_subset h fun c hc => mem_of_mem_charsOf_itemsFrom hc
  have hfill := (fill_append_write (p := p) (a := []) (b := [])
    (fun n hn => List.mem_range.1 (numbers_protect hp ▸ hn)) hunmarked rfl rfl).1
  simp only [List.nil_append, List.append_nil] at hfill
  rw [← hfill, hguarded, fill_protect h hp]

/-- **The rows of the protected text** are written by items with the same content: the tokens of the map in
order, and all other characters but layout. -/
theorem exists_items_of_joinRows (h : hasMark s = false) (hp : Placeholders.empty.protect s = (p, t)) :
    ∃ items, write items = joinRows (anchorRows (splitRows (collapseLineBreaks t))) ∧
      contentOf items = contentOf (itemsFrom 0 0 s) ∧ numbers items = List.range p.size ∧
        hasMark (charsOf items) = false := by
  have hguarded : write (itemsFrom 0 0 s) = t := (Prod.mk.inj ((protect_empty s).symm.trans hp)).2
  have hunmarked : hasMark (charsOf (itemsFrom 0 0 s)) = false :=
    hasMark_eq_false_of_subset h fun c hc => mem_of_mem_charsOf_itemsFrom hc
  obtain ⟨items, hwrite, hcontent⟩ := holds_joinRows ⟨itemsFrom 0 0 s, hguarded, rfl⟩
  refine ⟨items, hwrite, hcontent, ?_, ?_⟩
  · rw [← numbers_contentOf, hcontent, numbers_contentOf, numbers_protect hp]
  · rw [← hasMark_charsOf_contentOf, hcontent, hasMark_charsOf_contentOf, hunmarked]

end MathMarkup.Tex
