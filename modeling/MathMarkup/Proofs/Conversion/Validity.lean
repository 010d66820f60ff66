import MathMarkup.Proofs.Conversion.Nesting
import MathMarkup.Proofs.Conversion.Sound
import MathMarkup.Proofs.Markup.Document

/-!
# Converted expressions are valid

Main theorem `validate_transliterate`: an expression without placeholder characters has a conversion,
and what it is written as passes validation with grammar checks.
-/

namespace MathMarkup.Tex

open MathML Text

/-! ## The bare expression -/

theorem dropShifts_subset (escaped : Bool) (s : List Char) : dropShifts escaped s ⊆ s := by
  induction s generalizing escaped with
  | nil => exact List.Subset.refl _
  | cons c s ih =>
    rw [dropShifts]
    split
    · exact List.subset_cons_of_subset c (ih false)
    · exact List.cons_subset_cons c (ih _)

/-- Dropping delimiters and math shifts brings no token in. -/
theorem noToken_expressionBody {latex : List Char} (h : hasMark latex = false) :
    NoToken (expressionBody latex) :=
  noToken_of_hasMark_eq_false <| hasMark_eq_false_of_subset h fun _ hc =>
    stripDisplay_subset latex (dropShifts_subset false _ hc)

/-- **The MathML of an expression is valid.** A text that holds no placeholder character has a
conversion; the validator finds nothing to report in it, and no namespace is missing. -/
theorem validate_transliterate (config : Config) (latex : List Char) (h : hasMark latex = false) :
    ∃ t, transliterate? latex = some t ∧ transliterate latex = t ∧
      (validate config t.mathml).isValid = true ∧ validate config t.mathml = ⟨[], false⟩ := by
  obtain ⟨t, ht⟩ := Option.isSome_iff_exists.1 (isSome_transliterate? (noToken_expressionBody h))
  refine ⟨t, ht, by rw [transliterate, ht, Option.getD_some], ?_⟩
  rw [transliterate?, Option.map_eq_some_iff] at ht
  obtain ⟨c, hc, rfl⟩ := ht
  have hvalid : validate config (Converted.transliteration c).mathml = ⟨[], false⟩ :=
    validate_math config (sound_convertBody hc)
  exact ⟨by rw [hvalid]; rfl, hvalid⟩

/-- An unclosed environment behind an unmatched brace, with markup characters and no operand. -/
theorem validate_transliterate_unbalanced :
    hasMark "\x7da<^\\frac\x7bb&\\begin\x7bcases\x7d".toList = false ∧
    ∃ t, transliterate? "\x7da<^\\frac\x7bb&\\begin\x7bcases\x7d".toList = some t ∧
      transliterate "\x7da<^\\frac\x7bb&\\begin\x7bcases\x7d".toList = t ∧
      (validate {} t.mathml).isValid = true ∧ validate {} t.mathml = ⟨[], false⟩ :=
  ⟨by decide, validate_transliterate {} _ (by decide)⟩

end MathMarkup.Tex
