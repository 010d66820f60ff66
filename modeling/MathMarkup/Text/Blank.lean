import MathMarkup.Text.Basic

/-!
# Blank characters

The Unicode property `White_Space`, and trimming a text at its ends. `isBlank_of_isWhitespace` says
that the blanks of ASCII text are among them.
-/

namespace MathMarkup.Text

/-- Is `n` in one of the ranges? The ranges are inclusive and in ascending order. -/
def inRanges (n : Nat) : List (Nat × Nat) → Bool
  | [] => false
  | (lo, hi) :: rest => if n < lo then false else n ≤ hi || inRanges n rest

theorem inRanges_of_first {n lo hi : Nat} {rest : List (Nat × Nat)} (low : lo ≤ n) (high : n ≤ hi) :
    inRanges n ((lo, hi) :: rest) := by simp [inRanges, Nat.not_lt.2 low, high]

theorem inRanges_of_rest {n lo hi : Nat} {rest : List (Nat × Nat)} (low : lo ≤ n)
    (h : inRanges n rest) : inRanges n ((lo, hi) :: rest) := by
  simp [inRanges, Nat.not_lt.2 low, h]

/-- The characters with the property `White_Space`. -/
def blankRanges : List (Nat × Nat) := [
  (0x9, 0xd), (0x20, 0x20), (0x85, 0x85), (0xa0, 0xa0), (0x1680, 0x1680), (0x2000, 0x200a),
  (0x2028, 0x2029), (0x202f, 0x202f), (0x205f, 0x205f), (0x3000, 0x3000)]

def isBlank (c : Char) : Bool := inRanges c.toNat blankRanges

theorem isBlank_of_isWhitespace {c : Char} (h : c.isWhitespace) : isBlank c := by
  simp only [Char.isWhitespace, Bool.or_eq_true, decide_eq_true_eq] at h
  rcases h with ((rfl | rfl) | rfl) | rfl <;> rfl

/-- The letters of ASCII by their numbers. -/
theorem toNat_of_isAlpha {c : Char} (h : c.isAlpha = true) :
    (65 ≤ c.toNat ∧ c.toNat ≤ 90) ∨ (97 ≤ c.toNat ∧ c.toNat ≤ 122) := by
  have upperOrLower : (c.isUpper || c.isLower) = true := h
  rcases Bool.or_eq_true_iff.1 upperOrLower with h | h
  · exact Or.inl (of_decide_eq_true h)
  · have bounds := Bool.and_eq_true_iff.1 h
    exact Or.inr ⟨of_decide_eq_true bounds.1, of_decide_eq_true bounds.2⟩

/-- Drops the blanks in front. -/
def trimStart (s : List Char) : List Char := s.dropWhile isBlank

/-- Drops the blanks at the end. -/
def trimEnd (s : List Char) : List Char := (s.reverse.dropWhile isBlank).reverse

/-- Drops the blanks at both ends. -/
def trim (s : List Char) : List Char := trimEnd (trimStart s)

theorem trim_subset (s : List Char) : trim s ⊆ s := by
  intro c hc
  have hend : c ∈ (trimStart s).reverse := (List.dropWhile_suffix isBlank).subset (List.mem_reverse.1 hc)
  exact (List.dropWhile_suffix isBlank).subset (List.mem_reverse.1 hend)

end MathMarkup.Text
