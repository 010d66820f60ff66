/-!
# Text as a list of characters

A text that is scanned is a `List Char`; a position in it is counted in UTF-8 bytes. This file holds
the byte measure, the cut at a byte offset, and searching, replacing and splitting at a fixed word.
`byteLength_append` says that the measure adds up, `eq_append_of_breakOn?` that a search loses
nothing, and `append_of_splitAtByte?` that a cut gives back the text and the offset.
-/

namespace MathMarkup.Text

/-- Number of bytes of a text in UTF-8. -/
def byteLength : List Char → Nat
  | [] => 0
  | c :: s => c.utf8Size + byteLength s

@[simp] theorem byteLength_nil : byteLength [] = 0 := rfl

@[simp] theorem byteLength_cons (c : Char) (s : List Char) :
    byteLength (c :: s) = c.utf8Size + byteLength s := rfl

@[simp] theorem byteLength_append (s t : List Char) :
    byteLength (s ++ t) = byteLength s + byteLength t := by
  induction s with
  | nil => simp
  | cons c s ih => simp [ih, Nat.add_assoc]

/-- Cuts a text at a byte offset; `none` when the offset is past the end or inside a character. -/
def splitAtByte? : List Char → Nat → Option (List Char × List Char)
  | s, 0 => some ([], s)
  | [], _ + 1 => none
  | c :: s, n + 1 =>
    if c.utf8Size ≤ n + 1 then
      (splitAtByte? s (n + 1 - c.utf8Size)).map fun (before, after) => (c :: before, after)
    else none

theorem append_of_splitAtByte? {s a b : List Char} {n : Nat}
    (h : splitAtByte? s n = some (a, b)) : s = a ++ b ∧ byteLength a = n := by
  induction s generalizing n a with
  | nil => cases n <;> simp_all [splitAtByte?]
  | cons c s ih =>
    cases n with
    | zero => simp_all [splitAtByte?]
    | succ n =>
      simp only [splitAtByte?] at h
      split at h
      · simp only [Option.map_eq_some_iff, Prod.exists, Prod.mk.injEq] at h
        obtain ⟨a', b', h', rfl, rfl⟩ := h
        obtain ⟨rfl, hlen⟩ := ih h'
        exact ⟨rfl, by simp only [byteLength_cons]; omega⟩
      · simp at h

/-- The text from a byte offset on; `none` when the offset is not the start of a character. -/
def dropBytes? (s : List Char) (n : Nat) : Option (List Char) := (splitAtByte? s n).map (·.2)

/-! ## Searching -/

/-- The text after a leading `word`, when the text starts with it. -/
def after? : List Char → List Char → Option (List Char)
  | [], s => some s
  | _ :: _, [] => none
  | a :: word, c :: s => if a = c then after? word s else none

theorem eq_append_of_after? {word s rest : List Char} (h : after? word s = some rest) :
    s = word ++ rest := by
  induction word generalizing s with
  | nil => simpa [after?] using h
  | cons a word ih =>
    cases s with
    | nil => simp [after?] at h
    | cons c s =>
      rw [after?] at h
      split at h
      · rename_i hac
        rw [hac, ih h, List.cons_append]
      · simp at h

/-- The text before and after the first occurrence of `word`. -/
def breakOn? (word : List Char) : List Char → Option (List Char × List Char)
  | [] => (after? word []).map ([], ·)
  | c :: s =>
    match after? word (c :: s) with
    | some rest => some ([], rest)
    | none => (breakOn? word s).map fun (before, after) => (c :: before, after)

theorem eq_append_of_breakOn? {word s a b : List Char} (h : breakOn? word s = some (a, b)) :
    s = a ++ word ++ b := by
  induction s generalizing a with
  | nil =>
    simp only [breakOn?, Option.map_eq_some_iff, Prod.mk.injEq] at h
    obtain ⟨r, hr, rfl, rfl⟩ := h
    simpa using eq_append_of_after? hr
  | cons c s ih =>
    simp only [breakOn?] at h
    split at h
    · rename_i r hr
      simp only [Option.some.injEq, Prod.mk.injEq] at h
      obtain ⟨rfl, rfl⟩ := h
      simpa using eq_append_of_after? hr
    · simp only [Option.map_eq_some_iff, Prod.exists, Prod.mk.injEq] at h
      obtain ⟨a', b', h', rfl, rfl⟩ := h
      simp [ih h']

/-- Does the word occur in the text? -/
def contains (word s : List Char) : Bool := (breakOn? word s).isSome

/-- The text before a final `word`, when the text ends with it. -/
def beforeEnd? (word s : List Char) : Option (List Char) :=
  (after? word.reverse s.reverse).map List.reverse

/-! ## Replacing and splitting -/

/-- Substitutes from left to right. At each place `rule` may consume a non-empty stretch and answer with
what to write and with the text after it; where it declines, one character is kept. -/
def substitute (rule : List Char → Option (List Char × List Char)) : List Char → List Char
  | [] => []
  | c :: s =>
    match rule (c :: s) with
    | none => c :: substitute rule s
    | some (out, rest) =>
      if rest.length ≤ s.length then out ++ substitute rule rest else c :: substitute rule s
termination_by s => s.length

/-- Replaces every occurrence of `word`, from left to right; the empty word stands before each
character and at the end. -/
def replaceAll (word new : List Char) (s : List Char) : List Char :=
  if word.isEmpty then new ++ s.flatMap fun c => c :: new
  else substitute (fun t => (after? word t).map (new, ·)) s

/-- Cuts the text at every occurrence of `word`. -/
def splitOn (word : List Char) (s : List Char) : List (List Char) :=
  match _h : breakOn? word s with
  | none => [s]
  | some (before, rest) => if word.isEmpty then [s] else before :: splitOn word rest
termination_by s.length
decreasing_by
  have := congrArg List.length (eq_append_of_breakOn? _h)
  rename_i hw
  have : word.length ≠ 0 := by simpa using hw
  simp only [List.length_append] at *
  omega

end MathMarkup.Text
