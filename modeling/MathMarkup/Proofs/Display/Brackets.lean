import MathMarkup.Proofs.Normal.Display

/-!
# Brackets that are put on and taken off

The closing bracket of a display is one only behind an even number of backslashes; otherwise the last of
these makes a line break of it (`betweenBrackets?_wrapDisplay`). So an expression that has no blanks at its
ends and no display environment around it comes back from between the brackets exactly if it does not end
in an odd number of backslashes.

Main theorem: `stripDisplay_wrapDisplay_iff`.
-/

namespace MathMarkup.Tex

open Text

variable {e s t body name : List Char}

/-! ## Environments around the whole text -/

theorem stripEnvironment?_eq_none_iff : stripEnvironment? s = none ↔
    ∀ name ∈ wrappingEnvironments, ∀ body, s ≠ beginOf name ++ (body ++ endOf name) := by
  rw [stripEnvironment?, List.findSome?_eq_none_iff]
  refine forall₂_congr fun name _ => ?_
  rw [Option.eq_none_iff_forall_ne_some]
  exact forall_congr' fun body => not_congr between?_eq_some_iff

/-- An environment does not start with the opening bracket. -/
theorem stripEnvironment?_wrapDisplay (e : List Char) : stripEnvironment? (wrapDisplay e) = none := by
  rw [stripEnvironment?_eq_none_iff]
  intro name _ body h
  simp [wrapDisplay, beginOf] at h

/-! ## Brackets around an expression -/

theorem wrapDisplay_eq_concat (s : List Char) : wrapDisplay s = ((['\\', '['] ++ s) ++ ['\\']) ++ [']'] := by
  simp [wrapDisplay]

theorem trimmed_wrapDisplay (s : List Char) : Trimmed (wrapDisplay s) := by
  constructor
  · intro c hc
    obtain rfl : '\\' = c := by simpa [wrapDisplay] using hc
    decide
  · intro c hc
    rw [wrapDisplay_eq_concat, List.getLast?_concat] at hc
    obtain rfl : ']' = c := by simpa using hc
    decide

/-- The last backslash in front of the closing bracket is its own, and the others end the expression. -/
theorem trailingBackslashes_dropLast_wrapDisplay (e : List Char) :
    trailingBackslashes (wrapDisplay e).dropLast = trailingBackslashes e + 1 := by
  have hbracket : trailingBackslashes (['\\'] ++ '[' :: e) = trailingBackslashes e :=
    trailingBackslashes_append (by decide) ['\\'] e
  rw [wrapDisplay_eq_concat, List.dropLast_concat, trailingBackslashes_concat]
  exact congrArg (· + 1) hbracket

theorem betweenBrackets?_wrapDisplay (e : List Char) :
    betweenBrackets? (wrapDisplay e) = if trailingBackslashes e % 2 = 0 then some e else none := by
  have hbetween : between? ['\\', '['] ['\\', ']'] (wrapDisplay e) = some e := by
    rw [between?_eq_some_iff, wrapDisplay, List.append_assoc]
  rw [betweenBrackets?, hbetween, trailingBackslashes_dropLast_wrapDisplay, Option.filter_some]
  rcases Nat.mod_two_eq_zero_or_one (trailingBackslashes e) with heven | hodd
  · have hclosing : (trailingBackslashes e + 1) % 2 = 1 := by omega
    rw [if_pos (decide_eq_true hclosing), if_pos heven]
  · have hplain : ¬ (trailingBackslashes e + 1) % 2 = 1 := by omega
    rw [if_neg (by simpa using hplain), if_neg (by omega)]

theorem stripDelimiters?_wrapDisplay (e : List Char) :
    stripDelimiters? (wrapDisplay e) = if trailingBackslashes e % 2 = 0 then some e else none := by
  have hdollars : betweenDollars? (wrapDisplay e) = none := rfl
  rw [stripDelimiters?, hdollars, betweenBrackets?_wrapDisplay]
  rfl

/-- **Brackets around an expression.** They are taken off again, and nothing else is, exactly if the
expression ends in an even number of backslashes. Behind an odd number of them the text stays as it is. -/
theorem stripDisplay_wrapDisplay_iff (htrim : trim e = e)
    (hbare : ∀ name ∈ wrappingEnvironments, ∀ body, e ≠ beginOf name ++ (body ++ endOf name)) :
    (stripDisplay (wrapDisplay e) = e ↔ trailingBackslashes e % 2 = 0) ∧
      (trailingBackslashes e % 2 = 1 → stripDisplay (wrapDisplay e) = wrapDisplay e) := by
  have hwrapped : trim (wrapDisplay e) = wrapDisplay e := (trimmed_wrapDisplay e).trim_eq_self
  have hodd : trailingBackslashes e % 2 = 1 → stripDisplay (wrapDisplay e) = wrapDisplay e := by
    intro hodd
    have hkept : stripDelimiters? (wrapDisplay e) = none := by
      rw [stripDelimiters?_wrapDisplay, if_neg (by omega)]
    simp only [stripDisplay, hwrapped, hkept, Option.getD_none, stripEnvironment?_wrapDisplay]
  refine ⟨⟨fun hback => ?_, fun heven => ?_⟩, hodd⟩
  · refine (Nat.mod_two_eq_zero_or_one _).resolve_right fun hparity => ?_
    have hlength := congrArg List.length (hback.symm.trans (hodd hparity))
    simp only [wrapDisplay, List.length_append, List.length_cons, List.length_nil] at hlength
    omega
  · have htaken : stripDelimiters? (wrapDisplay e) = some e := by
      rw [stripDelimiters?_wrapDisplay, if_pos heven]
    simp only [stripDisplay, hwrapped, htaken, Option.getD_some, htrim, stripEnvironment?_eq_none_iff.2 hbare,
      Option.getD_none]

/-- A bracket of its own at the start, two signs at the end, and a line break behind them. -/
theorem stripDisplay_wrapDisplay_iff_break :
    let e := "[\\begin\x7balign\x7d x\\] $$\\\\".toList
    trim e = e ∧ (∀ name ∈ wrappingEnvironments, ∀ body, e ≠ beginOf name ++ (body ++ endOf name)) ∧
      (stripDisplay (wrapDisplay e) = e ↔ trailingBackslashes e % 2 = 0) ∧
      (trailingBackslashes e % 2 = 1 → stripDisplay (wrapDisplay e) = wrapDisplay e) := by
  intro e
  have htrim : trim e = e := by decide
  have hbare : ∀ name ∈ wrappingEnvironments, ∀ body, e ≠ beginOf name ++ (body ++ endOf name) :=
    stripEnvironment?_eq_none_iff.1 (by decide)
  exact ⟨htrim, hbare, stripDisplay_wrapDisplay_iff htrim hbare⟩

end MathMarkup.Tex
