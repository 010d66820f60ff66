import MathMarkup.Proofs.Rows.Cells
import MathMarkup.Proofs.Text.Tokens

/-!
# Protected passes under any rewrite

A pass may drop, double, split and invent tokens. Its result is read from left to right into items
(`exists_parsed`): a place where a token of the map starts is that token, every other character stands
for itself. Spans start with a backslash and hold no placeholder character, so none of them completes
the beginning of a token in front of it (`Parsed.not_placeholder_infix`), and putting the spans
back one after the other is one simultaneous substitution (`restore_eq_fill`).

Main theorem: `withCommandsProtected_exact`.
-/

namespace MathMarkup.Tex

open Text

variable {spans : List (List Char)} {items : List Item} {p : Placeholders} {k n : Nat}
  {c : Char} {s q rest : List Char}

/-! ## Filling in tokens -/

/-- The token below `k` that the text starts with: its number, and the text after it. -/
def tokenAt? (k : Nat) (s : List Char) : Option (Nat × List Char) :=
  (List.range k).findSome? fun n => (after? (placeholder n) s).map (n, ·)

/-- Fills in `f n` for the token of every `n` below `k`, all at once. -/
def fillTokens (f : Nat → List Char) (k : Nat) (s : List Char) : List Char :=
  substitute (fun t => (tokenAt? k t).map fun (n, rest) => (f n, rest)) s

/-- The text with the spans of the map in place of its tokens. -/
def Placeholders.fill (p : Placeholders) (s : List Char) : List Char :=
  fillTokens (fun n => p.spans.getD n []) p.size s

/-- The text without the tokens of the map. -/
def Placeholders.erase (p : Placeholders) (s : List Char) : List Char := fillTokens (fun _ => []) p.size s

theorem tokenAt?_eq_some_iff : tokenAt? k s = some (n, rest) ↔ n < k ∧ s = placeholder n ++ rest := by
  constructor
  · intro h
    obtain ⟨m, hm, hafter⟩ := List.exists_of_findSome?_eq_some h
    rw [Option.map_eq_some_iff] at hafter
    obtain ⟨r, hr, hmn⟩ := hafter
    obtain ⟨rfl, rfl⟩ := Prod.mk.inj hmn
    exact ⟨List.mem_range.1 hm, after?_eq_some_iff.1 hr⟩
  · rintro ⟨hn, rfl⟩
    cases htoken : tokenAt? k (placeholder n ++ rest) with
    | none =>
      have hnone := List.findSome?_eq_none_iff.1 htoken n (List.mem_range.2 hn)
      rw [after?_append] at hnone
      cases hnone
    | some found =>
      obtain ⟨m, hm, hafter⟩ := List.exists_of_findSome?_eq_some htoken
      rw [Option.map_eq_some_iff] at hafter
      obtain ⟨r, hr, rfl⟩ := hafter
      have hsame := after?_eq_some_iff.1 hr
      obtain rfl : m = n := eq_of_prefix_placeholder ⟨r, hsame.symm⟩
      rw [List.append_cancel_left hsame]

theorem tokenAt?_eq_none_iff : tokenAt? k s = none ↔ ∀ n < k, ¬ placeholder n <+: s := by
  simp only [tokenAt?, List.findSome?_eq_none_iff, List.mem_range, Option.map_eq_none_iff,
    after?_eq_none_iff]

/-! ## Reading a text into items -/

/-- The text of an item when `f n` stands for the token of `n`. -/
def Item.fill (f : Nat → List Char) : Item → List Char
  | .char c => [c]
  | .token n => f n

/-- The items are what reading their text from left to right finds: a character stands where no token
below `k` starts. -/
def Parsed (k : Nat) : List Item → Prop
  | [] => True
  | .char c :: items => (∀ n < k, ¬ placeholder n <+: c :: write items) ∧ Parsed k items
  | .token n :: items => n < k ∧ Parsed k items

@[simp] theorem write_nil : write [] = [] := rfl

@[simp] theorem write_char_cons (c : Char) (items : List Item) : write (.char c :: items) = c :: write items :=
  rfl

@[simp] theorem write_token_cons (n : Nat) (items : List Item) :
    write (.token n :: items) = placeholder n ++ write items := rfl

theorem exists_parsed (k : Nat) (s : List Char) : ∃ items, Parsed k items ∧ write items = s := by
  induction hlen : s.length using Nat.strongRecOn generalizing s with
  | ind len ih =>
    cases s with
    | nil => exact ⟨[], trivial, rfl⟩
    | cons c s =>
      cases htoken : tokenAt? k (c :: s) with
      | none =>
        obtain ⟨items, hitems, rfl⟩ := ih s.length (by rw [← hlen]; simp) s rfl
        exact ⟨.char c :: items, ⟨tokenAt?_eq_none_iff.1 htoken, hitems⟩, rfl⟩
      | some found =>
        obtain ⟨n, rest⟩ := found
        obtain ⟨hn, hs⟩ := tokenAt?_eq_some_iff.1 htoken
        have hshort : rest.length < len := by
          rw [← hlen, hs, placeholder, List.length_append, List.length_append, List.length_cons]
          omega
        obtain ⟨items, hitems, rfl⟩ := ih rest.length hshort rest rfl
        exact ⟨.token n :: items, ⟨hn, hitems⟩, hs.symm⟩

/-- Filling in takes the text item by item. -/
theorem Parsed.fillTokens_write (h : Parsed k items) (f : Nat → List Char) :
    fillTokens f k (write items) = items.flatMap (Item.fill f) := by
  induction items with
  | nil => rw [write_nil, fillTokens, substitute_nil]; rfl
  | cons item items ih =>
    cases item with
    | char c =>
      have hnone := tokenAt?_eq_none_iff.2 h.1
      rw [write_char_cons, fillTokens, substitute_cons_of_none (by rw [hnone]; rfl), ← fillTokens, ih h.2]
      rfl
    | token n =>
      have hsome : tokenAt? k (placeholder n ++ write items) = some (n, write items) :=
        tokenAt?_eq_some_iff.2 ⟨h.1, rfl⟩
      rw [write_token_cons, fillTokens, placeholder, List.cons_append, List.cons_append,
        substitute_cons_of_some (by rw [← List.cons_append, ← List.cons_append, ← placeholder, hsome]; rfl),
        ← fillTokens, ih h.2]
      · rfl
      · simp only [List.length_append]
        omega

/-- Where no character is a placeholder character, the items are what reading finds. -/
theorem parsed_of_unmarked (hchars : ∀ c, .char c ∈ items → c ≠ openMark)
    (htokens : ∀ n, .token n ∈ items → n < k) : Parsed k items := by
  induction items with
  | nil => trivial
  | cons item items ih =>
    have hitems := ih (fun c hc => hchars c (List.mem_cons_of_mem _ hc)) fun n hn =>
      htokens n (List.mem_cons_of_mem _ hn)
    cases item with
    | char c =>
      refine ⟨fun n _ hpre => hchars c List.mem_cons_self ?_, hitems⟩
      rw [placeholder, List.cons_append, List.cons_prefix_cons] at hpre
      exact hpre.1.symm
    | token n => exact ⟨htokens n List.mem_cons_self, hitems⟩

/-! ## Spans -/

/-- What a command span looks like in a text without placeholder characters. -/
structure IsSpan (span : List Char) : Prop where
  head : span.head? = some '\\'
  unmarked : hasMark span = false

theorem isSpan_getD (hspans : ∀ span ∈ spans, IsSpan span) (hn : n < spans.length) : IsSpan (spans.getD n []) := by
  have hget : spans.getD n [] = spans[n] := by simp [hn]
  rw [hget]
  exact hspans _ (List.getElem_mem hn)

theorem hasMark_eq_false_iff : hasMark s = false ↔ openMark ∉ s ∧ closeMark ∉ s := by
  simp only [hasMark, List.any_eq_false, Bool.or_eq_true, beq_iff_eq, not_or]
  constructor
  · intro h
    exact ⟨fun hmem => (h _ hmem).1 rfl, fun hmem => (h _ hmem).2 rfl⟩
  · rintro ⟨hopen, hclose⟩ c hc
    refine ⟨?_, ?_⟩
    · rintro rfl
      exact hopen hc
    · rintro rfl
      exact hclose hc

theorem infix_cons_of_infix_drop {t : List Char} (h : t <:+: s.drop k) (c : Char) : t <:+: c :: s :=
  h.trans ((List.drop_suffix k s).isInfix.trans (List.suffix_cons c s).isInfix)

/-- A span is a slice of the text that starts with a backslash. -/
theorem slash_infix_of_mem_protectFrom {covered : Nat} {span : List Char}
    (h : span ∈ (Placeholders.protectFrom n covered s).1) : span.head? = some '\\' ∧ span <:+: s := by
  fun_induction Placeholders.protectFrom n covered s with
  | case1 => cases h
  | case2 n covered c s m l hm token hcov found out hrec ih =>
    rw [hrec] at ih
    obtain ⟨hhead, hinfix⟩ := ih h
    exact ⟨hhead, infix_cons_of_infix_drop hinfix c⟩
  | case3 n covered c s kind l hm token hcov hword tail found out hrec ih =>
    rcases List.mem_cons.1 h with rfl | h
    · obtain rfl : kind = .command := by
        simp only [isWordCommand, Bool.and_eq_true, beq_iff_eq] at hword
        exact hword.1.1
      refine ⟨congrArg some (eq_slash_of_munch hm), ?_⟩
      obtain ⟨behind, hbehind⟩ := commandTail_prefix_rest token (s.drop l)
      refine List.IsPrefix.isInfix ⟨behind, ?_⟩
      rw [List.append_assoc, hbehind]
      simp [token]
    · rw [hrec] at ih
      obtain ⟨hhead, hinfix⟩ := ih h
      exact ⟨hhead, infix_cons_of_infix_drop hinfix c⟩
  | case4 n covered c s kind l hm token hcov hword found out hrec ih =>
    rw [hrec] at ih
    obtain ⟨hhead, hinfix⟩ := ih h
    exact ⟨hhead, infix_cons_of_infix_drop hinfix c⟩

theorem isSpan_of_protect (hs : hasMark s = false) {guarded : List Char}
    (hp : Placeholders.empty.protect s = (p, guarded)) : ∀ span ∈ p.spans, IsSpan span := by
  intro span hspan
  rw [protect_empty, Prod.mk.injEq] at hp
  obtain ⟨rfl, -⟩ := hp
  obtain ⟨hhead, hinfix⟩ := slash_infix_of_mem_protectFrom hspan
  exact ⟨hhead, hasMark_eq_false_of_subset hs hinfix.subset⟩

/-! ## Restoring is filling in -/

theorem expand_eq_fill (h : Parsed spans.length items) :
    expand spans items = items.flatMap (Item.fill fun n => spans.getD n []) := by
  induction items with
  | nil => rfl
  | cons item items ih =>
    cases item with
    | char c =>
      rw [expand, renderItems_cons, ← expand, ih h.2]
      rfl
    | token n =>
      have hn := h.1
      have hget : spans.getD n (placeholder n) = spans.getD n [] := by simp [hn]
      rw [expand, renderItems_cons, ← expand, ih h.2, List.flatMap_cons, Item.render_token_of_lt hn, Item.fill,
        hget]

/-- A text without backslashes that starts the filled text starts the written one: it ends before the
first token. -/
theorem Parsed.starts_write_of_starts (h : Parsed spans.length items) (hspans : ∀ span ∈ spans, IsSpan span)
    {v : List Char} (hv : '\\' ∉ v) (hpre : v <+: items.flatMap (Item.fill fun n => spans.getD n [])) :
    v <+: write items := by
  induction items generalizing v with
  | nil => exact hpre
  | cons item items ih =>
    cases v with
    | nil => exact List.nil_prefix
    | cons d v =>
      rw [List.mem_cons, not_or] at hv
      cases item with
      | char c =>
        rw [List.flatMap_cons, Item.fill, List.singleton_append, List.cons_prefix_cons] at hpre
        rw [write_char_cons, List.cons_prefix_cons]
        exact ⟨hpre.1, ih h.2 hv.2 hpre.2⟩
      | token n =>
        obtain ⟨tail, hspan⟩ := List.head?_eq_some_iff.1 (isSpan_getD hspans h.1).head
        rw [List.flatMap_cons, Item.fill, hspan, List.cons_append, List.cons_prefix_cons] at hpre
        exact absurd hpre.1.symm hv.1

theorem slash_notMem_tail (n : Nat) : '\\' ∉ Nat.toDigits 10 n ++ [closeMark] := by
  rw [List.mem_append, not_or]
  refine ⟨fun h => ?_, by decide⟩
  exact absurd (Nat.isDigit_of_mem_toDigits (by decide) (by decide) h) (by decide)

/-- What starts with a character that a stretch does not hold starts behind it. -/
theorem infix_of_infix_append {word front : List Char} (hfront : c ∉ front) (h : c :: word <:+: front ++ s) :
    c :: word <:+: s := by
  induction front with
  | nil => exact h
  | cons d front ih =>
    rw [List.mem_cons, not_or] at hfront
    rw [List.cons_append, List.infix_cons_iff, List.cons_prefix_cons] at h
    rcases h with ⟨hcd, -⟩ | h
    · exact absurd hcd hfront.1
    · exact ih hfront.2 h

/-- **No token comes of filling in spans.** -/
theorem Parsed.not_placeholder_infix (h : Parsed spans.length items) (hspans : ∀ span ∈ spans, IsSpan span)
    (hn : n < spans.length) : ¬ placeholder n <:+: items.flatMap (Item.fill fun n => spans.getD n []) := by
  induction items with
  | nil => simp [placeholder]
  | cons item items ih =>
    cases item with
    | char c =>
      rw [List.flatMap_cons, Item.fill, List.singleton_append, List.infix_cons_iff, not_or]
      refine ⟨fun hpre => h.1 n hn ?_, ih h.2⟩
      rw [placeholder, List.cons_append, List.cons_prefix_cons] at hpre ⊢
      exact ⟨hpre.1, h.2.starts_write_of_starts hspans (slash_notMem_tail n) hpre.2⟩
    | token m =>
      have hfront := (hasMark_eq_false_iff.1 (isSpan_getD hspans h.1).unmarked).1
      rw [List.flatMap_cons, Item.fill]
      exact fun hinfix => ih h.2 (infix_of_infix_append hfront hinfix)

/-- **Restoring is one substitution**: putting the spans back one after the other, in a text that any
rewrite made, is putting all of them in at once. -/
theorem restore_eq_fill (hspans : ∀ span ∈ p.spans, IsSpan span) (q : List Char) : p.restore q = p.fill q := by
  obtain ⟨items, hitems, rfl⟩ := exists_parsed p.size q
  have hfill := hitems.fillTokens_write fun n => p.spans.getD n []
  rw [Placeholders.fill, hfill, ← expand_eq_fill hitems]
  refine restore_write fun n hn => ?_
  rw [expand_eq_fill hitems]
  exact hitems.not_placeholder_infix hspans hn

/-- A placeholder character is left in the restored text when one stands outside the tokens. -/
theorem hasMark_fill (hspans : ∀ span ∈ p.spans, IsSpan span) (q : List Char) :
    hasMark (p.fill q) = hasMark (p.erase q) := by
  obtain ⟨items, hitems, rfl⟩ := exists_parsed p.size q
  rw [Placeholders.fill, Placeholders.erase, hitems.fillTokens_write, hitems.fillTokens_write]
  induction items with
  | nil => rfl
  | cons item items ih =>
    rw [List.flatMap_cons, List.flatMap_cons, hasMark_append, hasMark_append]
    cases item with
    | char c =>
      rw [ih hitems.2]
      rfl
    | token n =>
      rw [ih hitems.2, Item.fill, (isSpan_getD hspans hitems.1).unmarked]
      rfl

/-- **Filling in undoes protecting.** -/
theorem fill_protect (hs : hasMark s = false) {guarded : List Char}
    (hp : Placeholders.empty.protect s = (p, guarded)) : p.fill guarded = s := by
  have hspans := isSpan_of_protect hs hp
  rw [protect_empty, Prod.mk.injEq] at hp
  obtain ⟨rfl, rfl⟩ := hp
  have hexpand := expand_itemsFrom 0 0 s [] rfl
  rw [List.nil_append, List.drop_zero] at hexpand
  rw [← restore_eq_fill hspans, restore_write, hexpand]
  rw [hexpand]
  exact fun n _ => noToken_of_hasMark_eq_false hs n

/-! ## Missing tokens -/

theorem length_entries : p.entries.length = p.size := by
  rw [Placeholders.entries, List.length_map, List.length_zipIdx]
  rfl

theorem firstMissing?_eq_none_iff : p.firstMissing? s = none ↔ ∀ n < p.size, placeholder n <:+: s := by
  rw [Placeholders.firstMissing?, Option.map_eq_none_iff, List.find?_eq_none]
  constructor
  · intro h n hn
    have hmem : (placeholder n, p.spans.get ⟨n, hn⟩) ∈ p.entries := by
      refine List.mem_map.2 ⟨(p.spans.get ⟨n, hn⟩, n), ?_, rfl⟩
      rw [List.mem_zipIdx_iff_getElem?]
      simp
    simpa [contains_iff] using h _ hmem
  · intro h entry hentry
    obtain ⟨⟨span, n⟩, hmem, rfl⟩ := List.mem_map.1 hentry
    have hn := (List.mem_zipIdx hmem).2.1
    simpa [contains_iff] using h n (by simpa [Placeholders.size] using hn)

/-- The first token that is missing tells its span. -/
theorem firstMissing?_eq_some {span : List Char} (hspan : p.spans[n]? = some span)
    (hmissing : ¬ placeholder n <:+: s) (hfirst : ∀ i < n, placeholder i <:+: s) : p.firstMissing? s = some span := by
  obtain ⟨hn, hget⟩ := List.getElem?_eq_some_iff.1 hspan
  rw [Placeholders.firstMissing?, Option.map_eq_some_iff]
  refine ⟨(placeholder n, span), ?_, rfl⟩
  rw [List.find?_eq_some_iff_getElem]
  refine ⟨?_, n, length_entries.symm ▸ hn, ?_, ?_⟩
  · simpa [contains_iff, ← Bool.not_eq_true] using hmissing
  · simp [Placeholders.entries, hget]
  · intro i hi
    simpa [Placeholders.entries, contains_iff] using hfirst i hi

/-! ## Protected passes -/

section Pass

variable {stage : String} {pass : List Char → Except StageError (List Char)} {guarded : List Char}

theorem withCommandsProtected_of_error {e : StageError} (hp : Placeholders.empty.protect s = (p, guarded))
    (hpass : pass guarded = .error e) : withCommandsProtected stage s pass = .error e := by
  rw [withCommandsProtected, hp]
  simp only [hpass]
  rfl

theorem withCommandsProtected_of_missing {span : List Char} (hp : Placeholders.empty.protect s = (p, guarded))
    (hpass : pass guarded = .ok q) (hmissing : p.firstMissing? q = some span) :
    withCommandsProtected stage s pass = .error ⟨stage, .dropped span⟩ := by
  rw [withCommandsProtected, hp]
  simp only [hpass, hmissing, bind, Except.bind]
  rfl

/-- When no token is missing, the restored text is the result, or a placeholder character is left. -/
theorem withCommandsProtected_of_kept (hs : hasMark s = false) (hp : Placeholders.empty.protect s = (p, guarded))
    (hpass : pass guarded = .ok q) (hkept : ∀ n < p.size, placeholder n <:+: q) :
    withCommandsProtected stage s pass =
      if hasMark (p.erase q) then .error ⟨stage, .leaked⟩ else .ok (p.fill q) := by
  have hspans := isSpan_of_protect hs hp
  rw [← hasMark_fill hspans, withCommandsProtected, hp]
  simp only [hpass, firstMissing?_eq_none_iff.2 hkept, restore_eq_fill hspans, bind, Except.bind]
  rfl

end Pass

/-- **Command protection under any rewrite.** The pass works on the text with a token in place of each
command span. Its errors are passed on. Its result counts when every token of the map occurs in it and
no placeholder character stands outside of these tokens; then the spans are filled in. Otherwise the
first span whose token is missing is reported, and a leak when none is. -/
theorem withCommandsProtected_exact (stage : String) (pass : List Char → Except StageError (List Char))
    {guarded : List Char} (hs : hasMark s = false) (hp : Placeholders.empty.protect s = (p, guarded)) :
    (∀ e, pass guarded = .error e → withCommandsProtected stage s pass = .error e) ∧
    ∀ q, pass guarded = .ok q →
      ((∃ r, withCommandsProtected stage s pass = .ok r) ↔
        (∀ n < p.size, placeholder n <:+: q) ∧ hasMark (p.erase q) = false) ∧
      (∀ r, withCommandsProtected stage s pass = .ok r → r = p.fill q ∧ hasMark r = false) ∧
      (∀ n span, p.spans[n]? = some span → ¬ placeholder n <:+: q → (∀ i < n, placeholder i <:+: q) →
        withCommandsProtected stage s pass = .error ⟨stage, .dropped span⟩) ∧
      ((∀ n < p.size, placeholder n <:+: q) → hasMark (p.erase q) = true →
        withCommandsProtected stage s pass = .error ⟨stage, .leaked⟩) := by
  refine ⟨fun e he => withCommandsProtected_of_error hp he, fun q hq => ?_⟩
  have hspans := isSpan_of_protect hs hp
  have hok : ∀ r, withCommandsProtected stage s pass = .ok r →
      (∀ n < p.size, placeholder n <:+: q) ∧ hasMark (p.erase q) = false ∧ r = p.fill q := by
    intro r hr
    cases hmissing : p.firstMissing? q with
    | some span =>
      rw [withCommandsProtected_of_missing hp hq hmissing] at hr
      cases hr
    | none =>
      have hkept := firstMissing?_eq_none_iff.1 hmissing
      rw [withCommandsProtected_of_kept hs hp hq hkept] at hr
      by_cases hmark : hasMark (p.erase q) = true
      · rw [if_pos hmark] at hr
        cases hr
      · rw [if_neg hmark, Except.ok.injEq] at hr
        exact ⟨hkept, Bool.eq_false_iff.2 hmark, hr.symm⟩
  refine ⟨⟨?_, ?_⟩, ?_, ?_, ?_⟩
  · rintro ⟨r, hr⟩
    exact ⟨(hok r hr).1, (hok r hr).2.1⟩
  · rintro ⟨hkept, hmark⟩
    refine ⟨p.fill q, ?_⟩
    rw [withCommandsProtected_of_kept hs hp hq hkept, hmark]
    rfl
  · intro r hr
    obtain ⟨-, hmark, rfl⟩ := hok r hr
    exact ⟨rfl, by rw [hasMark_fill hspans, hmark]⟩
  · intro n span hspan hmissing hfirst
    exact withCommandsProtected_of_missing hp hq (firstMissing?_eq_some hspan hmissing hfirst)
  · intro hkept hmark
    rw [withCommandsProtected_of_kept hs hp hq hkept, if_pos hmark]

/-- A pass that writes the text twice, around half a token. -/
theorem withCommandsProtected_exact_doubled :
    hasMark "\\frac\x7ba\x7d+\\pi".toList = false ∧
    Placeholders.empty.protect "\\frac\x7ba\x7d+\\pi".toList =
      (⟨["\\frac\x7ba\x7d".toList, "\\pi".toList]⟩, placeholder 0 ++ '+' :: placeholder 1) ∧
    withCommandsProtected "rows" "\\frac\x7ba\x7d+\\pi".toList (fun t => .ok (t ++ '1' :: t)) =
      .ok "\\frac\x7ba\x7d+\\pi1\\frac\x7ba\x7d+\\pi".toList ∧
    withCommandsProtected "rows" "\\frac\x7ba\x7d+\\pi".toList (fun t => .ok (t ++ [openMark, '1'])) =
      .error ⟨"rows", .leaked⟩ ∧
    withCommandsProtected "rows" "\\frac\x7ba\x7d+\\pi".toList (fun t => .ok (t.take 5)) =
      .error ⟨"rows", .dropped "\\pi".toList⟩ := by
  have hs : hasMark "\\frac\x7ba\x7d+\\pi".toList = false := by decide
  have hp : Placeholders.empty.protect "\\frac\x7ba\x7d+\\pi".toList =
      (⟨["\\frac\x7ba\x7d".toList, "\\pi".toList]⟩, placeholder 0 ++ '+' :: placeholder 1) := by decide +kernel
  refine ⟨hs, hp, ?_, ?_, ?_⟩
  · obtain ⟨hiff, hvalue, -, -⟩ :=
      (withCommandsProtected_exact "rows" (fun t => .ok (t ++ '1' :: t)) hs hp).2 _ rfl
    obtain ⟨r, hr⟩ := hiff.2 ⟨by decide, by decide +kernel⟩
    rw [hr, (hvalue r hr).1, Except.ok.injEq]
    decide +kernel
  · obtain ⟨-, -, -, hleak⟩ :=
      (withCommandsProtected_exact "rows" (fun t => .ok (t ++ [openMark, '1'])) hs hp).2 _ rfl
    exact hleak (by decide) (by decide +kernel)
  · obtain ⟨-, -, hdropped, -⟩ :=
      (withCommandsProtected_exact "rows" (fun t => .ok (t.take 5)) hs hp).2 _ rfl
    exact hdropped 1 _ rfl (by decide) (by decide)

end MathMarkup.Tex
