/-!
# Levels of brackets

A bracket opens a group or closes one. `level?` counts the groups that are open behind some brackets. When
brackets carry names, `WellNested` says that every group is closed by a bracket with the name of the one
that opened it, and `ClosesOuter` that a bracket closes a group which was opened in front of them.
-/

namespace MathMarkup.Text

variable {α : Type} {name : α} {d e : Nat} {bs : List Bool}

/-! ## Levels -/

/-- The number of groups that are open behind the brackets, of which `true` opens a group, when `d` are open
in front of them; `none` when one of them closes a group that was never opened. -/
def level? : Nat → List Bool → Option Nat
  | d, [] => some d
  | d, true :: bs => level? (d + 1) bs
  | 0, false :: _ => none
  | d + 1, false :: bs => level? d bs

@[simp] theorem level?_nil (d : Nat) : level? d [] = some d := by cases d <;> rfl

@[simp] theorem level?_open (d : Nat) (bs : List Bool) : level? d (true :: bs) = level? (d + 1) bs := by
  cases d <;> rfl

@[simp] theorem level?_close (d : Nat) (bs : List Bool) : level? (d + 1) (false :: bs) = level? d bs := rfl

@[simp] theorem level?_zero_close (bs : List Bool) : level? 0 (false :: bs) = none := rfl

theorem level?_append (d : Nat) (as bs : List Bool) :
    level? d (as ++ bs) = (level? d as).bind fun e => level? e bs := by
  induction as generalizing d with
  | nil => simp
  | cons a as ih =>
    rw [List.cons_append]
    cases a with
    | true => simp [ih]
    | false =>
      cases d with
      | zero => simp
      | succ d => simp [ih]

/-- A group around does not matter. -/
theorem level?_succ (h : level? d bs = some e) : level? (d + 1) bs = some (e + 1) := by
  induction bs generalizing d with
  | nil => simpa using h
  | cons b bs ih =>
    cases b with
    | true => exact ih (by simpa using h)
    | false =>
      cases d with
      | zero => cases h
      | succ d => exact ih (by simpa using h)

/-! ## Brackets with names -/

/-- A bracket with a name. -/
structure NamedBracket (α : Type) where
  opening : Bool
  name : α
deriving DecidableEq, Repr

variable {ws inner rest : List (NamedBracket α)}

/-- Every group is closed by a bracket with the name of the one that opened it. -/
inductive WellNested : List (NamedBracket α) → Prop
  | nil : WellNested []
  | block (name : α) {inner rest : List (NamedBracket α)} (hinner : WellNested inner) (hrest : WellNested rest) :
      WellNested (⟨true, name⟩ :: (inner ++ ⟨false, name⟩ :: rest))

/-- One of the brackets closes a group that was opened in front of them. -/
def ClosesOuter (ws : List (NamedBracket α)) : Prop :=
  ∃ inner name rest, ws = inner ++ ⟨false, name⟩ :: rest ∧ WellNested inner

/-- Well nested brackets leave as many groups open as there are in front of them. -/
theorem WellNested.level (h : WellNested ws) (d : Nat) : level? d (ws.map NamedBracket.opening) = some d := by
  induction h generalizing d with
  | nil => exact level?_nil d
  | @block name inner rest hinner hrest ihinner ihrest =>
    rw [List.map_cons, List.map_append, List.map_cons, level?_open, level?_append, ihinner, Option.bind_some,
      level?_close, ihrest]

theorem WellNested.not_closesOuter (h : WellNested ws) : ¬ ClosesOuter ws := by
  rintro ⟨inner, name, rest, rfl, hinner⟩
  have hlevel := h.level 0
  rw [List.map_append, level?_append, hinner.level, Option.bind_some, List.map_cons, level?_zero_close] at hlevel
  cases hlevel

/-- A bracket that opens a group in front of well nested ones leaves it open. -/
theorem WellNested.not_open (h : WellNested ws) (name : α) : ¬ WellNested (⟨true, name⟩ :: ws) := by
  intro hopen
  have hlevel := hopen.level 0
  rw [List.map_cons, level?_open, h.level] at hlevel
  cases hlevel

/-- **A group around brackets.** They are well nested exactly if none of them closes it. -/
theorem wellNested_inner_iff (h : WellNested (⟨true, name⟩ :: (ws ++ [⟨false, name⟩]))) :
    WellNested ws ↔ ¬ ClosesOuter ws := by
  refine ⟨WellNested.not_closesOuter, fun houter => ?_⟩
  generalize hs : (⟨true, name⟩ : NamedBracket α) :: (ws ++ [⟨false, name⟩]) = all at h
  cases h with
  | nil => cases hs
  | @block name' inner rest hinner hrest =>
    have htail := (List.cons.inj hs).2
    rcases List.eq_nil_or_concat rest with rfl | ⟨rest, last, rfl⟩
    · exact (List.append_inj' htail rfl).1 ▸ hinner
    · rw [List.concat_eq_append, ← List.cons_append, ← List.append_assoc] at htail
      exact absurd ⟨inner, name', rest, (List.append_inj' htail rfl).1, hinner⟩ houter

end MathMarkup.Text
