import MathMarkup.Proofs.Conversion.Arguments

/-!
# Signs without math shifts

The conversion drops dollar signs before it reads an expression, and `unshifted` drops them among signs. A dollar
sign is no argument, so what a command takes stays (`Supplies.unshifted`), and so does the index of a root
(`HasIndex.unshifted`, `bracketed?_unshifted`).
-/

namespace MathMarkup.Tex

open Sign Text

variable {us a r x y rest : List Sign} {u : Sign} {n : Nat}

/-- The signs that are no dollar signs. -/
def unshifted (us : List Sign) : List Sign := us.filter (· != .char '$')

@[simp] theorem unshifted_nil : unshifted [] = [] := rfl

@[simp] theorem unshifted_append (x y : List Sign) : unshifted (x ++ y) = unshifted x ++ unshifted y :=
  List.filter_append ..

theorem unshifted_cons (hu : u ≠ .char '$') (us : List Sign) : unshifted (u :: us) = u :: unshifted us :=
  List.filter_cons_of_pos (by simpa using hu)

theorem mem_of_mem_unshifted (h : u ∈ unshifted us) : u ∈ us := List.mem_of_mem_filter h

/-- Where a sign stands without dollar signs, it stands among all signs. -/
theorem exists_of_unshifted (h : unshifted us = x ++ u :: y) :
    ∃ x' y', us = x' ++ u :: y' ∧ unshifted x' = x ∧ unshifted y' = y := by
  obtain ⟨front, back, rfl, hfront, hback⟩ := List.filter_eq_append_iff.1 h
  obtain ⟨shifts, y', rfl, hshifts, -, hy'⟩ := List.filter_eq_cons_iff.1 hback
  have hnone : unshifted shifts = [] := List.filter_eq_nil_iff.2 hshifts
  refine ⟨front ++ shifts, y', by simp, ?_, hy'⟩
  rw [unshifted_append, hnone, List.append_nil]
  exact hfront

theorem Nested.unshifted (h : Nested us) : Nested (unshifted us) := by
  induction h with
  | nil => exact .nil
  | @flat u us hu _ ih =>
    by_cases hshift : u = .char '$'
    · subst hshift
      exact ih
    · rw [unshifted_cons hshift]
      exact .flat hu ih
  | @pair u v a us hpair _ _ iha ih =>
    have hpartners : u ≠ .char '$' ∧ v ≠ .char '$' := by
      rcases cases_of_partner? hpair with ⟨rfl, rfl⟩ | ⟨name, rfl, rfl⟩ <;> simp
    rw [unshifted_cons hpartners.1, unshifted_append, unshifted_cons hpartners.2]
    exact .pair hpair iha ih

/-! ## Arguments -/

theorem ne_shift_of_isBlank (hu : u.isBlank = true) : u ≠ .char '$' := by
  rintro rfl
  cases hu

theorem ne_shift_of_isArgument (hu : u.isArgument = true) : u ≠ .char '$' := by
  rintro rfl
  simp [isArgument] at hu

theorem Nested.takes?_unshifted (h : Nested us) (ht : takes? us = some (a, r)) :
    takes? (Tex.unshifted us) = some (Tex.unshifted a, Tex.unshifted r) := by
  induction h using Nested.takes_induction with
  | nil => cases ht
  | blank u us _ _ hu ih =>
    rw [takes?_blank hu] at ht
    rw [unshifted_cons (ne_shift_of_isBlank hu), takes?_blank hu, ih ht]
  | group b us _ hb _ =>
    rw [takes?_group hb] at ht
    cases ht
    rw [unshifted_cons (by simp), unshifted_append, unshifted_cons (by simp), takes?_group hb.unshifted]
  | single u us _ hu _ =>
    rw [takes?_single hu] at ht
    cases ht
    have hshift := ne_shift_of_isArgument hu
    rw [unshifted_cons hshift, unshifted_cons hshift, takes?_single hu, unshifted_nil]
  | stop u us _ hblank hopen hargument =>
    rw [takes?_stop hblank hopen hargument] at ht
    cases ht

theorem Supplies.unshifted_of_nested (h : Supplies n us) (hus : Nested us) : Supplies n (unshifted us) := by
  induction n generalizing us with
  | zero => trivial
  | succ n ih =>
    obtain ⟨a, r, ht, hr⟩ := h
    exact ⟨unshifted a, unshifted r, hus.takes?_unshifted ht, ih hr (hus.of_takes? ht).2.1⟩

/-- **What a command takes** it takes without dollar signs. -/
theorem Supplies.unshifted (h : Supplies n y) (hy : Nested (x ++ y)) : Supplies n (unshifted y) := by
  obtain ⟨inner, t, rfl, hinner, ht⟩ := hy.exists_front
  have hnone : takes? t = none := by
    have hends : Ends (t ++ []) := Ends.append ht .nil
    rw [List.append_nil] at hends
    exact hends.takes?_eq_none
  rw [unshifted_append]
  exact ((h.front hinner hnone).unshifted_of_nested hinner).append hinner.unshifted _

/-! ## The index of a root -/

theorem HasIndex.unshifted {index : List Sign} (h : HasIndex us index rest) :
    HasIndex (unshifted us) (unshifted index) (unshifted rest) where
  spelled := by
    obtain ⟨blanks, hblanks, rfl⟩ := h.spelled
    refine ⟨Tex.unshifted blanks, fun u hu => hblanks u (mem_of_mem_unshifted hu), ?_⟩
    rw [unshifted_append, unshifted_cons (by simp), unshifted_append, unshifted_cons (by simp)]
  nested := h.nested.unshifted
  closed := by
    intro hmem
    obtain ⟨u, hu, hmem⟩ := List.mem_flatMap.1 hmem
    exact h.closed (List.mem_flatMap.2 ⟨u, mem_of_mem_unshifted hu, hmem⟩)
  whole u hu := h.whole u (mem_of_mem_unshifted hu)

/-- What is taken starts behind blanks with a sign that stays. -/
theorem exists_head_of_takes? (ht : (takes? us).isSome) : ∃ u y z, us.dropWhile Sign.isBlank = u :: y ∧
    (unshifted us).dropWhile Sign.isBlank = u :: z := by
  induction us with
  | nil => cases ht
  | cons u us ih =>
    by_cases hu : u.isBlank = true
    · rw [takes?_blank hu] at ht
      rw [unshifted_cons (ne_shift_of_isBlank hu), List.dropWhile_cons_of_pos hu, List.dropWhile_cons_of_pos hu]
      exact ih ht
    · have hshift : u ≠ .char '$' := by
        rintro rfl
        cases ht
      rw [unshifted_cons hshift, List.dropWhile_cons_of_neg hu, List.dropWhile_cons_of_neg hu]
      exact ⟨u, us, _, rfl, rfl⟩

/-- No bracket comes up in front of what is taken. -/
theorem bracketed?_unshifted (hread : Legible us) (hshown : Legible (unshifted us)) (ht : (takes? us).isSome)
    (h : bracketed? (spell us) = none) : bracketed? (spell (unshifted us)) = none := by
  obtain ⟨u, y, z, hy, hz⟩ := exists_head_of_takes? ht
  rw [bracketed?_eq_none_iff, trimStart_spell hread, hy, head?_spell_cons] at h
  rwa [bracketed?_eq_none_iff, trimStart_spell hshown, hz, head?_spell_cons]

end MathMarkup.Tex
