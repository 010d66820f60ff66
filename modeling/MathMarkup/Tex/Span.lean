import MathMarkup.Tex.Token

/-!
# Spans of a LaTeX fragment

The extents that the other modules cut out of a fragment: a brace group, a macro argument as TeX
reads it, and the body of an environment. Each has a form on the text that starts at the span, and a
form that takes a byte offset into a whole text and answers with byte offsets. A character after a
backslash never opens or closes a group.
-/

namespace MathMarkup.Tex

open Text

/-- The 1-based number of the line that holds byte `offset`; past the end it is the last line. -/
def lineOf (s : List Char) (offset : Nat) : Nat := 1 + go s offset
where
  /-- Number of line feeds that start before byte `offset`. -/
  go : List Char → Nat → Nat
    | [], _ => 0
    | _, 0 => 0
    | c :: s, offset + 1 => (if c = '\n' then 1 else 0) + go s (offset + 1 - c.utf8Size)

/-- The text up to and with the brace that closes `depth` open groups, and the text after it. -/
def closeGroups? (depth : Nat) : List Char → Option (List Char × List Char)
  | [] => none
  | c :: s =>
    if c = '\\' then
      match s with
      | [] => none
      | e :: s => (closeGroups? depth s).map fun (group, rest) => (c :: e :: group, rest)
    else if c = '}' && depth ≤ 1 then some ([c], s)
    else
      let depth := if c = '{' then depth + 1 else if c = '}' then depth - 1 else depth
      (closeGroups? depth s).map fun (group, rest) => (c :: group, rest)

/-- The brace group at the start of the text, braces included, and the text after it. -/
def splitGroup? : List Char → Option (List Char × List Char)
  | '{' :: s => (closeGroups? 1 s).map fun (group, rest) => ('{' :: group, rest)
  | _ => none

theorem append_of_closeGroups? {depth : Nat} {s group rest : List Char}
    (h : closeGroups? depth s = some (group, rest)) : s = group ++ rest ∧ group ≠ [] := by
  fun_induction closeGroups? depth s generalizing group rest with
  | case1 => simp at h
  | case2 => simp at h
  | case4 =>
    simp only [Option.some.injEq, Prod.mk.injEq] at h
    obtain ⟨rfl, rfl⟩ := h
    simp
  | case3 | case5 =>
    rename_i ih
    simp only [Option.map_eq_some_iff, Prod.exists, Prod.mk.injEq] at h
    obtain ⟨g, r, h', rfl, rfl⟩ := h
    simp [(ih h').1]

theorem append_of_splitGroup? {s group rest : List Char} (h : splitGroup? s = some (group, rest)) :
    s = group ++ rest ∧ group ≠ [] := by
  unfold splitGroup? at h
  split at h
  · simp only [Option.map_eq_some_iff, Prod.exists, Prod.mk.injEq] at h
    obtain ⟨g, r, h', rfl, rfl⟩ := h
    obtain ⟨rfl, -⟩ := append_of_closeGroups? h'
    simp
  · simp at h

/-- The text between the outer braces of a group. -/
def groupBody (group : List Char) : List Char := group.tail.dropLast

/-- The end of the brace group that opens at byte `start`, just past its closing brace; `none` when no
group opens there or it is never closed. -/
def groupEnd? (s : List Char) (start : Nat) : Option Nat := do
  let rest ← dropBytes? s start
  let (group, _) ← splitGroup? rest
  return start + byteLength group

/-! ## Arguments -/

/-- The macro argument at the very start of the text, and the text after it: a brace group, a command,
or a character that does not end an argument list. -/
def splitArgumentHere? : List Char → Option (List Char × List Char)
  | [] => none
  | '{' :: s => splitGroup? ('{' :: s)
  | '}' :: _ | '&' :: _ | '^' :: _ | '_' :: _ | '%' :: _ | '$' :: _ => none
  | '\\' :: [] => none
  | '\\' :: '\\' :: _ => none
  | '\\' :: c :: s =>
    if isCommandLetter c then
      some ('\\' :: (c :: s).takeWhile isCommandLetter, (c :: s).dropWhile isCommandLetter)
    else some (['\\', c], s)
  | c :: s => some ([c], s)

/-- The blanks in front of the next macro argument, the argument, and the text after it. -/
def splitArgument? (s : List Char) : Option (List Char × List Char × List Char) :=
  (splitArgumentHere? (trimStart s)).map fun (arg, rest) => (s.takeWhile isBlank, arg, rest)

theorem append_of_splitArgumentHere? {s arg rest : List Char}
    (h : splitArgumentHere? s = some (arg, rest)) : s = arg ++ rest ∧ arg ≠ [] := by
  unfold splitArgumentHere? at h
  split at h
  all_goals first
    | exact append_of_splitGroup? h
    | (split at h <;> simp only [Option.some.injEq, Prod.mk.injEq] at h <;> obtain ⟨rfl, rfl⟩ := h
       <;> simp [List.takeWhile_append_dropWhile])
    | (simp only [Option.some.injEq, Prod.mk.injEq] at h; obtain ⟨rfl, rfl⟩ := h; simp)

theorem append_of_splitArgument? {s blanks arg rest : List Char}
    (h : splitArgument? s = some (blanks, arg, rest)) : s = blanks ++ arg ++ rest ∧ arg ≠ [] := by
  simp only [splitArgument?, Option.map_eq_some_iff, Prod.exists, Prod.mk.injEq] at h
  obtain ⟨a, r, h', rfl, rfl, rfl⟩ := h
  obtain ⟨hs, hne⟩ := append_of_splitArgumentHere? h'
  refine ⟨?_, hne⟩
  rw [List.append_assoc, ← hs, trimStart, List.takeWhile_append_dropWhile]

/-- Start and end of the macro argument at or after byte `start`; `none` when what follows the blanks
there cannot be an argument, or when `start` is not the start of a character. -/
def argumentSpan? (s : List Char) (start : Nat) : Option (Nat × Nat) := do
  let rest ← dropBytes? s start
  let (blanks, arg, _) ← splitArgument? rest
  let first := start + byteLength blanks
  return (first, first + byteLength arg)

/-! ## Environments -/

/-- The word that opens the environment `name`. -/
def beginOf (name : List Char) : List Char := ['\\', 'b', 'e', 'g', 'i', 'n', '{'] ++ name ++ ['}']

/-- The word that closes the environment `name`. -/
def endOf (name : List Char) : List Char := ['\\', 'e', 'n', 'd', '{'] ++ name ++ ['}']

theorem length_beginOf_pos (name : List Char) : 0 < (beginOf name).length := by
  simp only [beginOf, List.length_append, List.length_cons]; omega

theorem length_endOf_pos (name : List Char) : 0 < (endOf name).length := by
  simp only [endOf, List.length_append, List.length_cons]; omega

/-- The text up to and with the word that closes `depth` open environments `name`, and the text after
it. Environments of the same name that open on the way are closed first. -/
def closeEnvironments? (name : List Char) (depth : Nat) : List Char → Option (List Char × List Char)
  | [] => none
  | c :: s =>
    match hc : after? (endOf name) (c :: s) with
    | some rest =>
      if depth ≤ 1 then some (endOf name, rest)
      else (closeEnvironments? name (depth - 1) rest).map fun (body, rest) =>
        (endOf name ++ body, rest)
    | none =>
      match ho : after? (beginOf name) (c :: s) with
      | some rest =>
        (closeEnvironments? name (depth + 1) rest).map fun (body, rest) =>
          (beginOf name ++ body, rest)
      | none => (closeEnvironments? name depth s).map fun (body, rest) => (c :: body, rest)
termination_by s => s.length
decreasing_by
  · have := congrArg List.length (eq_append_of_after? hc)
    have := length_endOf_pos name
    simp only [List.length_append, List.length_cons] at *; omega
  · have := congrArg List.length (eq_append_of_after? ho)
    have := length_beginOf_pos name
    simp only [List.length_append, List.length_cons] at *; omega
  · simp

/-- Splits the text after the opening of the environment `name` just behind its closing word. -/
def splitEnvironment? (name : List Char) (s : List Char) : Option (List Char × List Char) :=
  closeEnvironments? name 1 s

theorem append_of_closeEnvironments? {name : List Char} {depth : Nat} {s body rest : List Char}
    (h : closeEnvironments? name depth s = some (body, rest)) : s = body ++ rest := by
  fun_induction closeEnvironments? name depth s generalizing body rest with
  | case1 => simp at h
  | case2 depth c s rest' hc hd =>
    simp only [Option.some.injEq, Prod.mk.injEq] at h
    obtain ⟨rfl, rfl⟩ := h
    exact eq_append_of_after? hc
  | case3 depth c s rest' hc hd ih =>
    simp only [Option.map_eq_some_iff, Prod.exists, Prod.mk.injEq] at h
    obtain ⟨b, r, h', rfl, rfl⟩ := h
    rw [eq_append_of_after? hc, ih h', List.append_assoc]
  | case4 depth c s hc rest' ho ih =>
    simp only [Option.map_eq_some_iff, Prod.exists, Prod.mk.injEq] at h
    obtain ⟨b, r, h', rfl, rfl⟩ := h
    rw [eq_append_of_after? ho, ih h', List.append_assoc]
  | case5 depth c s hc ho ih =>
    simp only [Option.map_eq_some_iff, Prod.exists, Prod.mk.injEq] at h
    obtain ⟨b, r, h', rfl, rfl⟩ := h
    rw [ih h', List.cons_append]

/-- Where the environment `name` whose body starts at byte `start` ends, just past its closing word. -/
def environmentEnd? (s : List Char) (start : Nat) (name : List Char) : Option Nat := do
  let rest ← dropBytes? s start
  let (body, _) ← splitEnvironment? name rest
  return start + byteLength body

end MathMarkup.Tex
