import MathMarkup.Proofs.Text.Search
import MathMarkup.Tex.Placeholder

/-!
# Protected text as items

A protected text is a list of characters and tokens. `itemsFrom` lists them for what `protect` writes;
with the spans in place of the tokens they are the text again (`expand_itemsFrom`).

Main theorem `restore_write`: putting the spans back one after the other is the same as putting all of
them in at once, as long as what comes out holds no token itself.
-/

namespace MathMarkup.Tex

open Text

/-- A character of a protected text, or the token of a span. -/
inductive Item where
  | char (c : Char)
  | token (n : Nat)
deriving DecidableEq, Repr

namespace Item

/-- The text of an item when the tokens below `k` are replaced by their spans. -/
def render (spans : List (List Char)) (k : Nat) : Item → List Char
  | char c => [c]
  | token n => if n < k then spans.getD n (placeholder n) else placeholder n

variable {spans : List (List Char)} {k n : Nat}

theorem render_token_of_lt (h : n < k) : render spans k (token n) = spans.getD n (placeholder n) := if_pos h

theorem render_token_of_le (h : k ≤ n) : render spans k (token n) = placeholder n := if_neg (Nat.not_lt.2 h)

end Item

variable {spans : List (List Char)} {items : List Item} {s : List Char}

/-- The text of the items when the tokens below `k` are replaced by their spans. -/
def renderItems (spans : List (List Char)) (k : Nat) (items : List Item) : List Char :=
  items.flatMap (Item.render spans k)

/-- The items with their tokens. -/
def write (items : List Item) : List Char := renderItems [] 0 items

/-- The items with the spans in place of the tokens. -/
def expand (spans : List (List Char)) (items : List Item) : List Char :=
  renderItems spans spans.length items

@[simp] theorem renderItems_nil (k : Nat) : renderItems spans k [] = [] := rfl

@[simp] theorem renderItems_cons (k : Nat) (i : Item) (items : List Item) :
    renderItems spans k (i :: items) = i.render spans k ++ renderItems spans k items := rfl

@[simp] theorem renderItems_append (k : Nat) (a b : List Item) :
    renderItems spans k (a ++ b) = renderItems spans k a ++ renderItems spans k b :=
  List.flatMap_append

@[simp] theorem renderItems_chars (k : Nat) (s : List Char) : renderItems spans k (s.map .char) = s := by
  induction s with
  | nil => rfl
  | cons c s ih => simpa [Item.render] using ih

theorem write_append (a b : List Item) : write (a ++ b) = write a ++ write b := renderItems_append 0 a b

theorem write_chars (s : List Char) : write (s.map .char) = s := renderItems_chars 0 s

theorem expand_append (a b : List Item) : expand spans (a ++ b) = expand spans a ++ expand spans b :=
  renderItems_append _ a b

theorem expand_chars (s : List Char) : expand spans (s.map .char) = s := renderItems_chars _ s

theorem renderItems_zero (items : List Item) : renderItems spans 0 items = write items := by
  induction items with
  | nil => rfl
  | cons i items ih => cases i <;> simpa [write, Item.render] using ih

/-! ## The words of tokens -/

theorem closeMark_notMem_toDigits (n : Nat) : closeMark ∉ Nat.toDigits 10 n := by
  intro h
  have hdigit := Nat.isDigit_of_mem_toDigits (by decide) (by decide) h
  exact absurd hdigit (by decide)

theorem openMark_notMem_toDigits (n : Nat) : openMark ∉ Nat.toDigits 10 n := by
  intro h
  have hdigit := Nat.isDigit_of_mem_toDigits (by decide) (by decide) h
  exact absurd hdigit (by decide)

/-- The opening mark stands at the start of a token only. -/
theorem openMark_notMem_tail (n : Nat) : openMark ∉ Nat.toDigits 10 n ++ [closeMark] := by
  rw [List.mem_append, not_or]
  exact ⟨openMark_notMem_toDigits n, by decide⟩

theorem placeholder_ne_nil (n : Nat) : placeholder n ≠ [] := List.cons_ne_nil _ _

theorem toDigits_injective {m n : Nat} (h : Nat.toDigits 10 m = Nat.toDigits 10 n) : m = n := by
  rw [← Nat.ofDigitChars_ten_toDigits (n := m), h, Nat.ofDigitChars_ten_toDigits]

theorem eq_of_prefix_placeholder {m n : Nat} {s : List Char} (h : placeholder m <+: placeholder n ++ s) :
    m = n := by
  obtain ⟨t, ht⟩ := h
  simp only [placeholder, List.cons_append, List.append_assoc, List.cons.injEq, true_and] at ht
  exact toDigits_injective
    (eq_of_append_cons (closeMark_notMem_toDigits m) (closeMark_notMem_toDigits n) ht).1

/-! ## Restoring -/

/-- A text without the opening mark that starts a half restored text starts the restored one too: it
ends before the first token. -/
theorem prefix_expand_of_prefix {v u : List Char} {k : Nat} (hv : openMark ∉ v) (hk : k ≤ spans.length)
    (h : v <+: u ++ renderItems spans k items) : v <+: u ++ expand spans items := by
  induction items generalizing u with
  | nil => exact h
  | cons i items ih =>
    rw [renderItems_cons] at h
    rw [expand, renderItems_cons, ← expand, ← List.append_assoc]
    have hsame : i.render spans k = i.render spans spans.length →
        v <+: u ++ i.render spans spans.length ++ expand spans items := by
      intro hi
      rw [← hi]
      exact ih (by rwa [List.append_assoc])
    cases i with
    | char c => exact hsame rfl
    | token n =>
      rcases Nat.lt_or_ge n k with hn | hn
      · exact hsame (by rw [Item.render_token_of_lt hn, Item.render_token_of_lt (Nat.lt_of_lt_of_le hn hk)])
      · rw [Item.render_token_of_le hn, placeholder, List.cons_append, List.cons_append] at h
        rw [List.append_assoc]
        exact (prefix_of_prefix_append_cons hv h).trans (List.prefix_append u _)

/-- Where a token starts inside text that is restored already, the restored text holds it. -/
theorem placeholder_prefix_expand {n k : Nat} {c : Char} {u : List Char} (hk : k ≤ spans.length)
    (h : placeholder n <+: (c :: u) ++ renderItems spans k items) :
    placeholder n <+: (c :: u) ++ expand spans items := by
  rw [placeholder, List.cons_append, List.cons_append, List.cons_prefix_cons] at h ⊢
  exact ⟨h.1, prefix_expand_of_prefix (openMark_notMem_tail n) hk h.2⟩

/-- Inside a token no token starts. -/
theorem not_placeholder_prefix_tail {m n : Nat} {x y t : List Char} (hy : y ≠ []) (hx : x ≠ [])
    (h : placeholder n = x ++ y) : ¬ placeholder m <+: y ++ t := by
  intro hpre
  cases y with
  | nil => exact hy rfl
  | cons d y =>
    rw [placeholder, List.cons_append, List.cons_append, List.cons_prefix_cons] at hpre
    cases x with
    | nil => exact hx rfl
    | cons c x =>
      rw [placeholder, List.cons_append, List.cons_append, List.cons.injEq] at h
      refine openMark_notMem_tail n ?_
      rw [h.2, hpre.1]
      simp

/-- The token of another number is kept. -/
theorem replaceAll_placeholder_append {m n : Nat} (hmn : m ≠ n) (span t : List Char) :
    replaceAll (placeholder m) span (placeholder n ++ t) = placeholder n ++ replaceAll (placeholder m) span t := by
  refine replaceAll_append (placeholder_ne_nil m) (fun x y hxy hy => ?_) span
  by_cases hx : x = []
  · rw [hx, List.nil_append] at hxy
    rw [← hxy]
    exact fun hpre => hmn (eq_of_prefix_placeholder hpre)
  · exact not_placeholder_prefix_tail hy hx hxy

/-- Text that is restored already is kept while the tokens of span `k` are replaced. -/
theorem replaceAll_append_renderItems {k : Nat} (hk : k ≤ spans.length)
    (hfree : ¬ placeholder k <:+: s ++ expand spans items) (span : List Char) :
    replaceAll (placeholder k) span (s ++ renderItems spans k items) =
      s ++ replaceAll (placeholder k) span (renderItems spans k items) := by
  refine replaceAll_append (placeholder_ne_nil k) (fun x y hxy hy hpre => hfree ?_) span
  obtain ⟨d, y, rfl⟩ := List.exists_cons_of_ne_nil hy
  rw [hxy, List.append_assoc]
  exact (placeholder_prefix_expand hk hpre).isInfix.trans (List.suffix_append x _).isInfix

/-- Replacing the tokens of one span leads from one stage of restoring to the next. -/
theorem replaceAll_renderItems {k : Nat} (hk : k < spans.length)
    (hfree : ¬ placeholder k <:+: expand spans items) :
    replaceAll (placeholder k) (spans.getD k (placeholder k)) (renderItems spans k items) =
      renderItems spans (k + 1) items := by
  induction items with
  | nil => exact replaceAll_nil (placeholder_ne_nil k) _
  | cons i items ih =>
    rw [expand, renderItems_cons, ← expand] at hfree
    rw [renderItems_cons, renderItems_cons, ← ih (not_infix_behind hfree)]
    cases i with
    | char c => exact replaceAll_append_renderItems (Nat.le_of_lt hk) hfree _
    | token n =>
      rcases Nat.lt_trichotomy n k with hlt | rfl | hgt
      · rw [Item.render_token_of_lt (Nat.lt_trans hlt hk)] at hfree
        rw [Item.render_token_of_lt hlt, Item.render_token_of_lt (Nat.lt_succ_of_lt hlt)]
        exact replaceAll_append_renderItems (Nat.le_of_lt hk) hfree _
      · rw [Item.render_token_of_le (Nat.le_refl n), Item.render_token_of_lt (Nat.lt_succ_self n)]
        exact replaceAll_word_append (placeholder_ne_nil n) _ _
      · rw [Item.render_token_of_le (Nat.le_of_lt hgt), Item.render_token_of_le hgt]
        exact replaceAll_placeholder_append (Nat.ne_of_lt hgt) _ _

/-- Restoring goes on from the stage that the first `k` spans lead to. -/
theorem foldl_replaceAll {suffix : List (List Char)} {k : Nat} (hsuffix : spans.drop k = suffix)
    (hfree : ∀ n < spans.length, ¬ placeholder n <:+: expand spans items) :
    ((suffix.zipIdx k).map fun (span, n) => (placeholder n, span)).foldl
      (fun s (token, span) => replaceAll token span s) (renderItems spans k items) =
    expand spans items := by
  induction suffix generalizing k with
  | nil =>
    have hk : spans.length ≤ k := List.drop_eq_nil_iff.1 hsuffix
    have hstage : renderItems spans k items = expand spans items := by
      unfold renderItems expand
      congr 1
      funext i
      cases i with
      | char c => rfl
      | token n =>
        by_cases hn : n < spans.length
        · simp [Item.render, hn, Nat.lt_of_lt_of_le hn hk]
        · simp [Item.render, hn]
    simpa using hstage
  | cons span suffix ih =>
    have hk : k < spans.length := by
      refine Nat.lt_of_not_le fun hle => ?_
      rw [List.drop_eq_nil_iff.2 hle] at hsuffix
      cases hsuffix
    rw [List.drop_eq_getElem_cons hk, List.cons.injEq] at hsuffix
    have hspan : spans.getD k (placeholder k) = span := by simp [hk, hsuffix.1]
    have hstep := replaceAll_renderItems hk (hfree k hk)
    rw [hspan] at hstep
    simp only [List.zipIdx_cons, List.map_cons, List.foldl_cons, hstep]
    exact ih hsuffix.2

/-- **Restoring is simultaneous.** When the spans are put in place of the tokens and no token comes of
it, putting them in one after the other gives the same text. -/
theorem restore_write (hfree : ∀ n < spans.length, ¬ placeholder n <:+: expand spans items) :
    (Placeholders.mk spans).restore (write items) = expand spans items := by
  rw [← renderItems_zero]
  exact foldl_replaceAll rfl hfree

/-! ## The items of a protected text -/

/-- The items that protecting writes; as in `protectFrom`, the first `covered` characters are left
out. -/
def itemsFrom (n covered : Nat) : List Char → List Item
  | [] => []
  | c :: s =>
    let (kind, k) := munch c s
    let token := c :: s.take k
    if 0 < covered then
      (token.drop covered).map .char ++ itemsFrom n (covered - (k + 1)) (s.drop k)
    else if isWordCommand kind token then
      .token n :: itemsFrom (n + 1) (commandTail token (s.drop k)).length (s.drop k)
    else token.map .char ++ itemsFrom n 0 (s.drop k)
termination_by s => s.length
decreasing_by all_goals simp only [List.length_drop, List.length_cons]; omega

theorem append_of_splitGroups (s : List Char) : (splitGroups s).1.flatten ++ (splitGroups s).2 = s := by
  fun_induction splitGroups s with
  | case1 => rfl
  | case2 s group rest h groups rest' hrec ih =>
    rw [hrec] at ih
    rw [List.flatten_cons, List.append_assoc, ih, ← (append_of_splitGroup? h).1]

/-- The tail of a command is what comes next. -/
theorem commandTail_prefix_rest (command rest : List Char) : commandTail command rest <+: rest := by
  have happ := append_of_splitGroups rest
  rw [commandTail]
  simp only
  generalize splitGroups rest = r at happ ⊢
  obtain ⟨groups, after⟩ := r
  simp only at happ ⊢
  cases groups with
  | nil => exact List.nil_prefix
  | cons group groups =>
    simp only
    split
    · split
      · rename_i body rest' henv
        rw [← happ, List.prefix_append_right_inj]
        exact ⟨rest', (append_of_closeEnvironments? henv).symm⟩
      · exact ⟨after, happ⟩
    · exact ⟨after, happ⟩

/-- Protecting writes the items. -/
theorem protectFrom_snd (n covered : Nat) (s : List Char) :
    (Placeholders.protectFrom n covered s).2 = write (itemsFrom n covered s) := by
  fun_induction itemsFrom n covered s with
  | case1 => simp [Placeholders.protectFrom, write]
  | case2 n covered c s kind k hm token hcov ih =>
    rw [Placeholders.protectFrom, hm]
    simp only [hcov, ↓reduceIte, ih]
    rw [write_append, write_chars]
  | case3 n covered c s kind k hm token hcov hword ih =>
    rw [Placeholders.protectFrom, hm]
    simp only [hcov, ↓reduceIte, hword, ih, token]
    simp [write, Item.render]
  | case4 n covered c s kind k hm token hcov hword ih =>
    rw [Placeholders.protectFrom, hm]
    simp only [hcov, ↓reduceIte, hword, ih, token, Bool.false_eq_true]
    rw [write_append, write_chars]

/-- What is left out of a token and of the text behind it. -/
theorem drop_token (covered k : Nat) (c : Char) (s : List Char) :
    (c :: s.take k).drop covered ++ (s.drop k).drop (covered - (k + 1)) = (c :: s).drop covered := by
  conv => rhs; rw [← List.take_append_drop k s, ← List.cons_append, List.drop_append]
  by_cases hk : k ≤ s.length
  · simp [List.length_take, Nat.min_eq_left hk]
  · simp [List.drop_eq_nil_of_le (Nat.le_of_not_le hk)]

/-- With the spans in place of the tokens, the items are the text again. -/
theorem expand_itemsFrom (n covered : Nat) (s : List Char) :
    ∀ before : List (List Char), before.length = n →
      expand (before ++ (Placeholders.protectFrom n covered s).1) (itemsFrom n covered s) =
        s.drop covered := by
  fun_induction Placeholders.protectFrom n covered s with
  | case1 => simp [itemsFrom, expand]
  | case2 n covered c s kind k hm token hcov spans out hrec ih =>
    intro before hn
    have ih := ih before hn
    rw [hrec] at ih
    rw [itemsFrom, hm]
    simp only [hcov, ↓reduceIte]
    rw [expand_append, expand_chars, ih]
    exact drop_token covered k c s
  | case3 n covered c s kind k hm token hcov hword tail spans out hrec ih =>
    intro before hn
    obtain rfl : covered = 0 := Nat.eq_zero_of_not_pos hcov
    obtain ⟨behind, hbehind⟩ := commandTail_prefix_rest token (s.drop k)
    have ih := ih (before ++ [token ++ tail]) (by simp [hn])
    rw [hrec, List.append_assoc] at ih
    have htoken : Item.render (before ++ (token ++ tail) :: spans)
        (before ++ (token ++ tail) :: spans).length (.token n) = token ++ tail := by
      simp [Item.render, ← hn]
    have hrest : (s.drop k).drop tail.length = behind := by
      rw [← hbehind]
      exact List.drop_left
    rw [itemsFrom, hm]
    simp only [Nat.lt_irrefl, ↓reduceIte]
    rw [if_pos hword, expand, renderItems_cons, htoken, ← expand]
    rw [List.singleton_append] at ih
    rw [ih, hrest, List.append_assoc, hbehind]
    simp [token]
  | case4 n covered c s kind k hm token hcov hword spans out hrec ih =>
    intro before hn
    obtain rfl : covered = 0 := Nat.eq_zero_of_not_pos hcov
    have ih := ih before hn
    rw [hrec] at ih
    rw [itemsFrom, hm]
    simp only [Nat.lt_irrefl, ↓reduceIte]
    rw [if_neg hword, expand_append, expand_chars, ih]
    simp

end MathMarkup.Tex
