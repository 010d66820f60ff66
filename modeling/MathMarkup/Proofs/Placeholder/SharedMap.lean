import MathMarkup.Proofs.Rows.Carried

/-!
# One map for many texts

A map grows: the texts that are protected with it later put their spans behind the ones it has. What was
written before means the same text in every later state of the map (`Placeholders.Denotes.mono`), since
its tokens are numbered below what was added. Texts that are put together mean the texts put together
(`Placeholders.Denotes.append`), and restoring finds what a text without placeholder characters was
written for (`Placeholders.Denotes.restore_eq`).

Main theorem: `restore_protectAll`.
-/

namespace MathMarkup.Tex

open Text

variable {p q : Placeholders} {s t guarded guarded' : List Char} {ts : List (List Char)} {i j m n : Nat}

namespace Placeholders

/-- Protects the texts one after the other with the same map: the map in the end, and what is written for
each text. -/
def protectAll (p : Placeholders) : List (List Char) → Placeholders × List (List Char)
  | [] => (p, [])
  | t :: ts =>
    let (next, guarded) := p.protect t
    let (last, rest) := next.protectAll ts
    (last, guarded :: rest)

@[simp] theorem protectAll_cons_fst (p : Placeholders) (t : List Char) (ts : List (List Char)) :
    (p.protectAll (t :: ts)).1 = ((p.protect t).1.protectAll ts).1 := rfl

@[simp] theorem protectAll_cons_snd (p : Placeholders) (t : List Char) (ts : List (List Char)) :
    (p.protectAll (t :: ts)).2 = (p.protect t).2 :: ((p.protect t).1.protectAll ts).2 := rfl

theorem length_protectAll (p : Placeholders) (ts : List (List Char)) : (p.protectAll ts).2.length = ts.length := by
  induction ts generalizing p with
  | nil => rfl
  | cons t ts ih => rw [protectAll_cons_snd, List.length_cons, List.length_cons, ih]

/-! ## The map grows -/

theorem prefix_protect (p : Placeholders) (s : List Char) : p.spans <+: (p.protect s).1.spans :=
  List.prefix_append _ _

theorem prefix_protectAll (p : Placeholders) (ts : List (List Char)) : p.spans <+: (p.protectAll ts).1.spans := by
  induction ts generalizing p with
  | nil => exact List.prefix_rfl
  | cons t ts ih => exact (p.prefix_protect t).trans (ih _)

/-! ## What a protected text means -/

/-- The protected text holds tokens of the map only, and with their spans in place it is `s`. -/
def Denotes (p : Placeholders) (guarded s : List Char) : Prop :=
  ∃ items, write items = guarded ∧ (∀ n ∈ numbers items, n < p.size) ∧ expand p.spans items = s

end Placeholders

/-- Spans behind the ones that the items refer to do not matter. -/
theorem expand_of_longer {spans more : List (List Char)} {items : List Item} (hpre : spans <+: more)
    (hnumbers : ∀ n ∈ numbers items, n < spans.length) : expand more items = expand spans items := by
  induction items with
  | nil => rfl
  | cons item items ih =>
    have hrest := ih fun n hn => hnumbers n (mem_numbers.2 (List.mem_cons_of_mem _ (mem_numbers.1 hn)))
    have hitem : item.render more more.length = item.render spans spans.length := by
      cases item with
      | char c => rfl
      | token n =>
        have hn : n < spans.length := hnumbers n (mem_numbers.2 List.mem_cons_self)
        have hmore := Nat.lt_of_lt_of_le hn hpre.length_le
        obtain ⟨later, rfl⟩ := hpre
        rw [Item.render_token_of_lt hn, Item.render_token_of_lt hmore, List.getD_eq_getElem?_getD,
          List.getElem?_append_left hn, ← List.getD_eq_getElem?_getD]
    rw [expand, expand, renderItems_cons, renderItems_cons, hitem, ← expand, ← expand, hrest]

namespace Placeholders

theorem Denotes.mono (h : p.Denotes guarded s) (hpq : p.spans <+: q.spans) : q.Denotes guarded s := by
  obtain ⟨items, hwrite, hnumbers, hexpand⟩ := h
  exact ⟨items, hwrite, fun n hn => Nat.lt_of_lt_of_le (hnumbers n hn) hpq.length_le,
    (expand_of_longer hpq hnumbers).trans hexpand⟩

theorem Denotes.append (h : p.Denotes guarded s) (h' : p.Denotes guarded' t) :
    p.Denotes (guarded ++ guarded') (s ++ t) := by
  obtain ⟨items, rfl, hnumbers, rfl⟩ := h
  obtain ⟨items', rfl, hnumbers', rfl⟩ := h'
  refine ⟨items ++ items', write_append _ _, fun n hn => ?_, expand_append _ _⟩
  rw [numbers_append, List.mem_append] at hn
  exact hn.elim (hnumbers n) (hnumbers' n)

/-- **Restoring** gives back what the protected text means: no token comes of putting the spans in. -/
theorem Denotes.restore_eq (h : p.Denotes guarded s) (hs : hasMark s = false) : p.restore guarded = s := by
  obtain ⟨items, rfl, -, rfl⟩ := h
  exact restore_write fun n _ => noToken_of_hasMark_eq_false hs n

/-- **Protecting** writes a text that means the text, whatever the map holds already. -/
theorem denotes_protect (p : Placeholders) (s : List Char) : (p.protect s).1.Denotes (p.protect s).2 s := by
  refine ⟨itemsFrom p.size 0 s, (protectFrom_snd p.size 0 s).symm, fun n hn => ?_, ?_⟩
  · rw [numbers_itemsFrom, List.mem_range'_1] at hn
    have hsize : (p.protect s).1.size = p.size + (protectFrom p.size 0 s).1.length := List.length_append
    rw [hsize]
    exact hn.2
  · exact expand_itemsFrom p.size 0 s p.spans rfl

/-- Each text of a sequence is meant by what was written for it, from the state of the map right behind
it on. -/
theorem denotes_protectAll (p : Placeholders) (hi : i < m) (ht : ts[i]? = some t)
    (hguarded : (p.protectAll ts).2[i]? = some guarded) : (p.protectAll (ts.take m)).1.Denotes guarded t := by
  induction ts generalizing p i m with
  | nil => cases ht
  | cons first ts ih =>
    obtain ⟨m, rfl⟩ := Nat.exists_eq_succ_of_ne_zero (Nat.ne_zero_of_lt hi)
    rw [List.take_succ_cons, protectAll_cons_fst]
    cases i with
    | zero =>
      obtain rfl : first = t := Option.some.inj ht
      obtain rfl : (p.protect first).2 = guarded := Option.some.inj hguarded
      exact (p.denotes_protect first).mono (prefix_protectAll _ _)
    | succ i => exact ih _ (Nat.lt_of_succ_lt_succ hi) ht hguarded

end Placeholders

/-- **Round trip on a shared map.** Texts without placeholder characters are protected one after the other
with one map, and `guarded` is what is written for them. Each state of the map, from the one right behind a
text to the last, restores that text, and restores two texts that are put together. -/
theorem restore_protectAll (ts : List (List Char)) (hts : ∀ t ∈ ts, hasMark t = false) :
    (Placeholders.empty.protectAll ts).2.length = ts.length ∧
    ∀ m i t guarded, i < m → ts[i]? = some t → (Placeholders.empty.protectAll ts).2[i]? = some guarded →
      (Placeholders.empty.protectAll (ts.take m)).1.restore guarded = t ∧
      ∀ j t' guarded', j < m → ts[j]? = some t' → (Placeholders.empty.protectAll ts).2[j]? = some guarded' →
        (Placeholders.empty.protectAll (ts.take m)).1.restore (guarded ++ guarded') = t ++ t' := by
  refine ⟨Placeholders.empty.length_protectAll ts, fun m i t guarded hi ht hguarded => ?_⟩
  have hdenotes := Placeholders.empty.denotes_protectAll hi ht hguarded
  have hmark := hts t (List.mem_of_getElem? ht)
  refine ⟨hdenotes.restore_eq hmark, fun j t' guarded' hj ht' hguarded' => ?_⟩
  have hdenotes' := Placeholders.empty.denotes_protectAll hj ht' hguarded'
  have hmark' := hts t' (List.mem_of_getElem? ht')
  exact (hdenotes.append hdenotes').restore_eq (by rw [hasMark_append, hmark, hmark']; rfl)

/-- A command inside an environment, a group that is never closed, and adjacent commands. -/
theorem restore_protectAll_nested :
    let ts := ["\\begin\x7ba\x7d\\frac\x7bx\x7d\x7by\x7d\\end\x7ba\x7d+1".toList, "\\text\x7bopen \\\\ b".toList,
      "\\alpha\\beta\x7bx\x7d".toList]
    let map := (Placeholders.empty.protectAll ts).1
    (∀ t ∈ ts, hasMark t = false) ∧
    (Placeholders.empty.protectAll ts).2 = [placeholder 0 ++ "+1".toList,
      placeholder 1 ++ "\x7bopen \\\\ b".toList, placeholder 2 ++ placeholder 3] ∧
    map.restore (placeholder 1 ++ "\x7bopen \\\\ b".toList) = "\\text\x7bopen \\\\ b".toList ∧
    map.restore (placeholder 2 ++ placeholder 3 ++ (placeholder 0 ++ "+1".toList)) =
      "\\alpha\\beta\x7bx\x7d\\begin\x7ba\x7d\\frac\x7bx\x7d\x7by\x7d\\end\x7ba\x7d+1".toList := by
  intro ts map
  have hts : ∀ t ∈ ts, hasMark t = false := by decide
  have hguarded : (Placeholders.empty.protectAll ts).2 = [placeholder 0 ++ "+1".toList,
      placeholder 1 ++ "\x7bopen \\\\ b".toList, placeholder 2 ++ placeholder 3] := by decide +kernel
  refine ⟨hts, hguarded, ?_, ?_⟩
  · exact ((restore_protectAll ts hts).2 3 1 _ _ (by decide) rfl (by rw [hguarded]; rfl)).1
  · exact ((restore_protectAll ts hts).2 3 2 _ _ (by decide) rfl (by rw [hguarded]; rfl)).2 0 _ _ (by decide) rfl
      (by rw [hguarded]; rfl)

end MathMarkup.Tex
