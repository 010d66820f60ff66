import Mathlib.Data.List.Basic

/-!
# Stable sorting

Merge sort is stable: it keeps the order of elements that stand for each other. So elements may be left out
before a list is sorted or behind it (`filter_mergeSort`), and what is in order already, wherever it is picked
out, is left alone (`filter_mergeSort_of_pairwise`).
-/

namespace MathMarkup

variable {α : Type} {le : α → α → Bool} {p : α → Bool} {a b x y : List α}

/-- Where the elements of a class end in a list is told by the list. -/
theorem eq_of_append_eq (h : a ++ b = x ++ y) (ha : ∀ i ∈ a, p i = true) (hb : ∀ i ∈ b, p i = false)
    (hx : ∀ i ∈ x, p i = true) (hy : ∀ i ∈ y, p i = false) : a = x ∧ b = y := by
  have hcount : ∀ {u v : List α}, (∀ i ∈ u, p i = true) → (∀ i ∈ v, p i = false) →
      (u ++ v).countP p = u.length := by
    intro u v hu hv
    rw [List.countP_append, List.countP_eq_length.2 hu, List.countP_eq_zero.2 fun i hi => by simp [hv i hi],
      Nat.add_zero]
  exact List.append_inj h ((hcount ha hb).symm.trans (h ▸ hcount hx hy))

/-- A new element goes in front of the first one that it does not exceed. -/
theorem exists_mergeSort_cons (trans : ∀ a b c, le a b → le b c → le a c) (total : ∀ a b, le a b || le b a)
    (i : α) (l : List α) : ∃ before behind, (i :: l).mergeSort le = before ++ i :: behind ∧
      l.mergeSort le = before ++ behind ∧ (∀ j ∈ before, (!le i j) = true) ∧ ∀ j ∈ behind, (!le i j) = false := by
  obtain ⟨before, behind, hsort, hrest, hbefore⟩ := List.mergeSort_cons trans total i l
  have hsorted := List.pairwise_mergeSort trans total (i :: l)
  rw [hsort] at hsorted
  have hbehind := (List.pairwise_cons.1 (List.pairwise_append.1 hsorted).2.1).1
  exact ⟨before, behind, hsort, hrest, hbefore, fun j hj => by simp [hbehind j hj]⟩

/-- **Sorting is stable**: elements may be left out before it or behind it. -/
theorem filter_mergeSort (trans : ∀ a b c, le a b → le b c → le a c) (total : ∀ a b, le a b || le b a)
    (p : α → Bool) (l : List α) : (l.mergeSort le).filter p = (l.filter p).mergeSort le := by
  induction l with
  | nil => simp
  | cons i l ih =>
    obtain ⟨before, behind, hsort, hrest, hbefore, hbehind⟩ := exists_mergeSort_cons trans total i l
    rw [hrest, List.filter_append] at ih
    rw [hsort, List.filter_append]
    by_cases hi : p i = true
    · rw [List.filter_cons_of_pos hi, List.filter_cons_of_pos hi]
      obtain ⟨before', behind', hsort', hrest', hbefore', hbehind'⟩ :=
        exists_mergeSort_cons trans total i (l.filter p)
      obtain ⟨rfl, rfl⟩ := eq_of_append_eq (ih.trans hrest') (fun j hj => hbefore j (List.mem_of_mem_filter hj))
        (fun j hj => hbehind j (List.mem_of_mem_filter hj)) hbefore' hbehind'
      exact hsort'.symm
    · rw [List.filter_cons_of_neg hi, List.filter_cons_of_neg hi, ih]

/-- What is in order already is left alone, wherever it is picked out. -/
theorem filter_mergeSort_of_pairwise (trans : ∀ a b c, le a b → le b c → le a c) (total : ∀ a b, le a b || le b a)
    {l : List α} (h : (l.filter p).Pairwise fun a b => le a b) : (l.mergeSort le).filter p = l.filter p := by
  rw [filter_mergeSort trans total, List.mergeSort_of_pairwise h]

end MathMarkup
