import MathMarkup.Text.Letter

/-!
# Classes of characters that have nothing in common

A class of characters is given by ranges of numbers. Two classes are apart when every range of one lies
beside every range of the other (`AreApart`), which is checked range by range. So no character is both
blank and part of a word (`isWord_eq_false_of_isBlank`).
-/

namespace MathMarkup.Text

variable {n : Nat} {c : Char} {as bs : List (Nat × Nat)}

theorem exists_of_inRanges (h : inRanges n as = true) : ∃ r ∈ as, r.1 ≤ n ∧ n ≤ r.2 := by
  induction as with
  | nil => cases h
  | cons r as ih =>
    obtain ⟨lo, hi⟩ := r
    rw [inRanges] at h
    split at h
    · cases h
    · rename_i hlo
      rcases Bool.or_eq_true_iff.1 h with hhi | h
      · exact ⟨(lo, hi), List.mem_cons_self, Nat.not_lt.1 hlo, of_decide_eq_true hhi⟩
      · obtain ⟨r, hr, hn⟩ := ih h
        exact ⟨r, List.mem_cons_of_mem _ hr, hn⟩

/-- No number is in a range of both lists. -/
def AreApart (as bs : List (Nat × Nat)) : Prop := ∀ a ∈ as, ∀ b ∈ bs, a.2 < b.1 ∨ b.2 < a.1

instance : Decidable (AreApart as bs) :=
  inferInstanceAs (Decidable (∀ a ∈ as, ∀ b ∈ bs, a.2 < b.1 ∨ b.2 < a.1))

theorem AreApart.inRanges_eq_false (h : AreApart as bs) (hn : inRanges n as = true) : inRanges n bs = false := by
  refine Bool.eq_false_iff.2 fun hn' => ?_
  obtain ⟨a, ha, hlo, hhi⟩ := exists_of_inRanges hn
  obtain ⟨b, hb, hlo', hhi'⟩ := exists_of_inRanges hn'
  rcases h a ha b hb with h | h <;> omega

/-- **No blank is part of a word.** -/
theorem isWord_eq_false_of_isBlank (hc : isBlank c = true) : isWord c = false := by
  have hletter : AreApart blankRanges letterRanges := by decide +kernel
  have hdigit : AreApart blankRanges digitRanges := by decide +kernel
  have hmark : AreApart blankRanges plainMarkRanges := by decide +kernel
  have hconnector : AreApart blankRanges connectorRanges := by decide +kernel
  simp only [isWord, isLetter, isDecimalDigit, Bool.or_eq_false_iff]
  exact ⟨⟨⟨hletter.inRanges_eq_false hc, hdigit.inRanges_eq_false hc⟩, hmark.inRanges_eq_false hc⟩,
    hconnector.inRanges_eq_false hc⟩

theorem isBlank_eq_false_of_isWord (hc : isWord c = true) : isBlank c = false := by
  refine Bool.eq_false_iff.2 fun hblank => ?_
  rw [isWord_eq_false_of_isBlank hblank] at hc
  cases hc

end MathMarkup.Text
