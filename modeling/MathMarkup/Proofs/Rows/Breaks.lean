import MathMarkup.Proofs.Text.Search
import MathMarkup.Tex.Rows

/-!
# Rows between line breaks

Collapsing line breaks and then cutting at them is cutting at every run of line breaks
(`splitOn_collapseLineBreaks`). `breakRows` cuts that way, in one walk.
-/

namespace MathMarkup.Text

/-! ## Blanks at the ends -/

theorem trimStart_append (s : List Char) : s.takeWhile isBlank ++ trimStart s = s :=
  List.takeWhile_append_dropWhile

theorem isBlank_of_mem_takeWhile {s : List Char} : ∀ c ∈ s.takeWhile isBlank, isBlank c = true := by
  intro c hc
  have := List.all_takeWhile (p := isBlank) (l := s)
  exact List.all_eq_true.1 this c hc

/-- A text is its trimmed part between blanks. -/
theorem append_trim (s : List Char) :
    ∃ a b, s = a ++ trim s ++ b ∧ (∀ c ∈ a, isBlank c = true) ∧ ∀ c ∈ b, isBlank c = true := by
  refine ⟨s.takeWhile isBlank, ((trimStart s).reverse.takeWhile isBlank).reverse, ?_,
    isBlank_of_mem_takeWhile, ?_⟩
  · have hend : trim s ++ ((trimStart s).reverse.takeWhile isBlank).reverse = trimStart s := by
      rw [trim, trimEnd, ← List.reverse_append, List.takeWhile_append_dropWhile, List.reverse_reverse]
    rw [List.append_assoc, hend, trimStart_append]
  · intro c hc
    exact isBlank_of_mem_takeWhile c (List.mem_reverse.1 hc)

theorem trimStart_append_of_isBlank {a s : List Char} (ha : ∀ c ∈ a, isBlank c = true) :
    trimStart (a ++ s) = trimStart s := List.dropWhile_append_of_pos ha

theorem trimStart_eq_self {s : List Char} (hs : ∀ c ∈ s.head?, isBlank c = false) : trimStart s = s := by
  cases s with
  | nil => rfl
  | cons c s => exact List.dropWhile_cons_of_neg (by simp [hs c rfl])

theorem trimEnd_append_of_isBlank {s b : List Char} (hb : ∀ c ∈ b, isBlank c = true) :
    trimEnd (s ++ b) = trimEnd s := by
  rw [trimEnd, List.reverse_append, List.dropWhile_append_of_pos fun c hc => hb c (List.mem_reverse.1 hc)]
  rfl

theorem trimEnd_eq_self {s : List Char} (hs : ∀ c ∈ s.getLast?, isBlank c = false) : trimEnd s = s := by
  have hhead : trimStart s.reverse = s.reverse := trimStart_eq_self fun c hc => by
    rw [List.head?_reverse] at hc
    exact hs c hc
  rw [trimStart] at hhead
  rw [trimEnd, hhead, List.reverse_reverse]

end MathMarkup.Text

namespace MathMarkup.Tex

open Text

/-- Two backslashes. -/
def lineBreak : List Char := ['\\', '\\']

theorem lineBreak_prefix_iff {s : List Char} : lineBreak <+: s ↔ ∃ t, s = '\\' :: '\\' :: t := by
  constructor
  · rintro ⟨t, rfl⟩
    exact ⟨t, rfl⟩
  · rintro ⟨t, rfl⟩
    exact ⟨t, rfl⟩

theorem lineBreakRule_eq_none {s : List Char} (h : ¬ lineBreak <+: s) : lineBreakRule s = none := by
  unfold lineBreakRule
  split
  · rename_i t
    exact absurd ⟨t, rfl⟩ h
  · rfl

/-- What is skipped behind a line break: blanks, and more line breaks. -/
theorem append_afterLineBreaks (s : List Char) :
    ∃ a, s = a ++ afterLineBreaks s ∧ ∀ c ∈ a, isBlank c = true ∨ c = '\\' := by
  fun_induction afterLineBreaks s with
  | case1 s ih =>
    obtain ⟨a, ha, hall⟩ := ih
    refine ⟨'\\' :: '\\' :: s.takeWhile isBlank ++ a, ?_, ?_⟩
    · rw [List.append_assoc, ← ha, List.cons_append, List.cons_append, trimStart_append]
    · intro c hc
      simp only [List.cons_append, List.mem_cons, List.mem_append] at hc
      rcases hc with rfl | rfl | hc | hc
      · exact Or.inr rfl
      · exact Or.inr rfl
      · exact Or.inl (isBlank_of_mem_takeWhile c hc)
      · exact hall c hc
  | case2 s => exact ⟨[], rfl, by simp⟩

theorem length_afterLineBreaks_le (s : List Char) : (afterLineBreaks s).length ≤ s.length := by
  obtain ⟨a, ha, -⟩ := append_afterLineBreaks s
  have := congrArg List.length ha
  rw [List.length_append] at this
  omega

/-- The texts between runs of line breaks. -/
def breakRows (s : List Char) : List (List Char) :=
  match _h : breakOn? lineBreak s with
  | none => [s]
  | some (row, rest) => row :: breakRows (afterLineBreaks (trimStart rest))
termination_by s.length
decreasing_by
  have hs := congrArg List.length (eq_append_of_breakOn? _h)
  have hskip := length_afterLineBreaks_le (trimStart rest)
  have htrim := congrArg List.length (trimStart_append rest)
  simp only [List.length_append, lineBreak, List.length_cons] at *
  omega

theorem breakRows_of_none {s : List Char} (h : breakOn? lineBreak s = none) : breakRows s = [s] := by
  rw [breakRows]
  split
  · rfl
  · rename_i hsome
    rw [h] at hsome
    cases hsome

theorem breakRows_of_some {s row rest : List Char} (h : breakOn? lineBreak s = some (row, rest)) :
    breakRows s = row :: breakRows (afterLineBreaks (trimStart rest)) := by
  rw [breakRows]
  split
  · rename_i hnone
    rw [h] at hnone
    cases hnone
  · rename_i hsome
    obtain ⟨rfl, rfl⟩ := Prod.mk.inj (Option.some.inj (h.symm.trans hsome))
    rfl

/-- Before the first line break nothing is collapsed. -/
theorem collapseLineBreaks_append {row rest : List Char}
    (hfirst : ¬ lineBreak <:+: row ++ lineBreak.dropLast) :
    collapseLineBreaks (row ++ lineBreak ++ rest) =
      row ++ (rowBreak ++ collapseLineBreaks (afterLineBreaks (trimStart rest))) := by
  have hbreak : collapseLineBreaks ('\\' :: '\\' :: rest) =
      rowBreak ++ collapseLineBreaks (afterLineBreaks (trimStart rest)) := by
    have hrule : lineBreakRule ('\\' :: '\\' :: rest) =
        some (rowBreak, afterLineBreaks (trimStart rest)) := by
      rw [lineBreakRule, afterLineBreaks]
    refine substitute_cons_of_some hrule ?_
    have hskip := length_afterLineBreaks_le (trimStart rest)
    have htrim := congrArg List.length (trimStart_append rest)
    rw [List.length_append] at htrim
    rw [List.length_cons]
    omega
  have hkeep : ∀ x y, row = x ++ y → y ≠ [] → lineBreakRule (y ++ ('\\' :: '\\' :: rest)) = none := by
    intro x y hxy hy
    refine lineBreakRule_eq_none fun hpre => hfirst ?_
    obtain ⟨t, ht⟩ := lineBreak_prefix_iff.1 hpre
    rw [hxy, List.append_assoc]
    refine List.IsInfix.trans ?_ (List.suffix_append x _).isInfix
    obtain ⟨c, y, rfl⟩ := List.exists_cons_of_ne_nil hy
    cases y with
    | nil =>
      simp only [List.cons_append, List.nil_append, List.cons.injEq] at ht
      exact ⟨[], [], by simp [lineBreak, ht.1]⟩
    | cons d y =>
      simp only [List.cons_append, List.cons.injEq] at ht
      exact ⟨[], y ++ lineBreak.dropLast, by simp [lineBreak, ht.1, ht.2.1]⟩
  rw [List.append_assoc]
  exact (substitute_append_of_none hkeep).trans (congrArg (row ++ ·) hbreak)

theorem collapseLineBreaks_eq_self {s : List Char} (h : ¬ lineBreak <:+: s) :
    collapseLineBreaks s = s := by
  refine substitute_of_none fun x y hxy _ => lineBreakRule_eq_none fun hpre => h ?_
  rw [hxy]
  exact hpre.isInfix.trans (List.suffix_append x y).isInfix

/-- **Cutting a collapsed text** at its line breaks gives what stands between the runs of line breaks. -/
theorem splitOn_collapseLineBreaks (s : List Char) :
    splitOn rowBreak (collapseLineBreaks s) = breakRows s := by
  have hsub : lineBreak <:+: rowBreak := ⟨[], [' '], rfl⟩
  fun_induction breakRows s with
  | case1 s h =>
    have hno := breakOn?_eq_none_iff.1 h
    rw [collapseLineBreaks_eq_self hno, splitOn]
    split
    · rfl
    · rename_i a b hsome
      have := (breakOn?_eq_some_iff (by simp [rowBreak])).1 hsome
      exact absurd (hsub.trans ⟨a, b, this.1.symm⟩) hno
  | case2 s row rest h ih =>
    obtain ⟨rfl, hfirst⟩ := (breakOn?_eq_some_iff (by simp [lineBreak])).1 h
    rw [collapseLineBreaks_append hfirst, splitOn]
    have hbreak : breakOn? rowBreak
        (row ++ (rowBreak ++ collapseLineBreaks (afterLineBreaks (trimStart rest)))) =
        some (row, collapseLineBreaks (afterLineBreaks (trimStart rest))) := by
      rw [breakOn?_eq_some_iff (by simp [rowBreak])]
      refine ⟨by simp, fun hin => hfirst ?_⟩
      -- the space at its end keeps the word inside the row
      have hrow : rowBreak <:+: row := by
        have hshape : row ++ rowBreak.dropLast = (row ++ ['\\']) ++ ['\\'] := by simp [rowBreak]
        rw [hshape, List.infix_concat_iff, List.infix_concat_iff] at hin
        rcases hin with ⟨x, hx⟩ | ⟨x, hx⟩ | hin
        · simpa [rowBreak] using congrArg List.getLast? hx
        · simpa [rowBreak] using congrArg List.getLast? hx
        · exact hin
      exact (hsub.trans hrow).trans (List.prefix_append row _).isInfix
    split
    · rename_i hnone
      rw [hbreak] at hnone
      cases hnone
    · rename_i a b hsome
      rw [hbreak, Option.some.injEq, Prod.mk.injEq] at hsome
      obtain ⟨rfl, rfl⟩ := hsome
      simp only [rowBreak, List.isEmpty_cons, Bool.false_eq_true, ↓reduceIte]
      exact congrArg _ ih

end MathMarkup.Tex
