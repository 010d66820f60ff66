import MathMarkup.Tex.Span

/-!
# Display delimiters

An expression may come between `$$` and `$$`, between `\[` and `\]`, in an `equation` or `align`
environment, or bare. `stripDisplay` takes one such pair and one such environment away, and
`wrapDisplay` puts the brackets on.
-/

namespace MathMarkup.Tex

open Text

/-- Environments that are taken away when they enclose the whole expression. -/
def wrappingEnvironments : List (List Char) :=
  ["equation".toList, "equation*".toList, "align".toList, "align*".toList]

/-- Number of backslashes at the end of the text. -/
def trailingBackslashes (s : List Char) : Nat := (s.reverse.takeWhile (· == '\\')).length

/-- The text between `opening` at its start and `closing` at its end, which do not overlap. -/
def between? (opening closing s : List Char) : Option (List Char) :=
  (after? opening s).bind (beforeEnd? closing)

/-- The text between two dollar signs on each side. Behind an odd number of backslashes the first
closing sign is escaped. -/
def betweenDollars? (s : List Char) : Option (List Char) :=
  (between? ['$', '$'] ['$', '$'] s).filter fun body => trailingBackslashes body % 2 = 0

/-- The text between display brackets. Behind an odd number of backslashes the closing one is a line
break and a plain bracket. -/
def betweenBrackets? (s : List Char) : Option (List Char) :=
  (between? ['\\', '['] ['\\', ']'] s).filter fun _ => trailingBackslashes s.dropLast % 2 = 1

/-- The text inside a pair of display delimiters. -/
def stripDelimiters? (s : List Char) : Option (List Char) := betweenDollars? s <|> betweenBrackets? s

/-- The body of a display environment that encloses the whole text. -/
def stripEnvironment? (s : List Char) : Option (List Char) :=
  wrappingEnvironments.findSome? fun name => between? (beginOf name) (endOf name) s

/-- The bare expression, trimmed. -/
def stripDisplay (s : List Char) : List Char :=
  let s := trim s
  let s := trim ((stripDelimiters? s).getD s)
  trim ((stripEnvironment? s).getD s)

/-- The expression between display brackets. -/
def wrapDisplay (s : List Char) : List Char := ['\\', '['] ++ s ++ ['\\', ']']

/-! ## Characters of the bare expression -/

theorem subset_of_between? {opening closing s t : List Char} (h : between? opening closing s = some t) :
    t ⊆ s := by
  rw [between?, Option.bind_eq_some_iff] at h
  obtain ⟨u, hu, h⟩ := h
  rw [beforeEnd?, Option.map_eq_some_iff] at h
  obtain ⟨v, hv, rfl⟩ := h
  intro c hc
  have hmem : c ∈ u.reverse := by
    rw [eq_append_of_after? hv]
    exact List.mem_append_right _ (List.mem_reverse.1 hc)
  rw [eq_append_of_after? hu]
  exact List.mem_append_right _ (List.mem_reverse.1 hmem)

theorem subset_of_stripDelimiters? {s t : List Char} (h : stripDelimiters? s = some t) : t ⊆ s := by
  rw [stripDelimiters?, Option.orElse_eq_orElse, Option.orElse_eq_or, Option.or_eq_some_iff] at h
  rcases h with h | ⟨-, h⟩
  · exact subset_of_between? (Option.filter_eq_some_iff.1 h).1
  · exact subset_of_between? (Option.filter_eq_some_iff.1 h).1

theorem subset_of_stripEnvironment? {s t : List Char} (h : stripEnvironment? s = some t) : t ⊆ s := by
  obtain ⟨name, -, h⟩ := List.exists_of_findSome?_eq_some h
  exact subset_of_between? h

theorem getD_subset {o : Option (List Char)} {s : List Char} (h : ∀ t, o = some t → t ⊆ s) :
    o.getD s ⊆ s := by
  cases o with
  | none => exact List.Subset.refl s
  | some t => exact h t rfl

/-- The bare expression brings no character in. -/
theorem stripDisplay_subset (s : List Char) : stripDisplay s ⊆ s := by
  have hdelimiters := getD_subset (fun t => subset_of_stripDelimiters? (s := trim s) (t := t))
  have henvironment := getD_subset (fun t =>
    subset_of_stripEnvironment? (s := trim ((stripDelimiters? (trim s)).getD (trim s))) (t := t))
  refine List.Subset.trans (trim_subset _) (List.Subset.trans henvironment ?_)
  exact List.Subset.trans (trim_subset _) (List.Subset.trans hdelimiters (trim_subset s))

end MathMarkup.Tex
