import MathMarkup.Proofs.Normal.Spans
import MathMarkup.Proofs.Text.Slices
import MathMarkup.Tex.Construct

/-!
# Closed texts

A text is closed at depth `d` when, with `d` more groups open in front of it, it closes these and every
group that it opens (`Closes`). The scanner that looks for the end of a group passes such a text
(`Closes.pass`), so what it finds around the text does not depend on what is in it. The text of an
argument in braces is closed at depth zero exactly if the group ends at its last brace
(`isBalanced_iff`); then an argument reader takes the text and leaves what stands behind the group
(`argument?_braced`).
-/

namespace MathMarkup.Tex

open Text

variable {s t a g r blanks : List Char} {c : Char} {d e depth : Nat}

/-- Induction along a text: a backslash goes with the character behind it. -/
@[elab_as_elim]
theorem escapes_induction {motive : List Char → Prop} (nil : motive []) (slash : motive ['\\'])
    (escaped : ∀ c s, motive s → motive ('\\' :: c :: s))
    (char : ∀ c s, c ≠ '\\' → motive s → motive (c :: s)) : ∀ s, motive s
  | [] => nil
  | c :: s => by
    by_cases hc : c = '\\'
    · subst hc
      match s with
      | [] => exact slash
      | c :: s => exact escaped c s (escapes_induction nil slash escaped char s)
    · exact char c s hc (escapes_induction nil slash escaped char s)

/-! ## Groups that are found -/

theorem eq_of_map_onFound {o : Option (List Char × List Char)} {x : List Char}
    (h : o.map (onFound x) = some (g, r)) : ∃ g', o = some (g', r) ∧ g = x ++ g' := by
  obtain ⟨⟨g', r'⟩, ho, h⟩ := Option.map_eq_some_iff.1 h
  obtain ⟨rfl, rfl⟩ := Prod.mk.inj h
  exact ⟨g', ho, rfl⟩

/-- What stands behind the end of a group does not matter. -/
theorem closeGroups?_append (h : closeGroups? depth s = some (g, r)) (t : List Char) :
    closeGroups? depth (s ++ t) = some (g, r ++ t) := by
  induction s using escapes_induction generalizing depth g with
  | nil => cases h
  | slash => simp [closeGroups?] at h
  | escaped c s ih =>
    rw [closeGroups?_escaped] at h
    obtain ⟨g', h', rfl⟩ := eq_of_map_onFound h
    rw [List.cons_append, List.cons_append, closeGroups?_escaped, ih h']
    rfl
  | char c s hc ih =>
    rw [List.cons_append]
    by_cases hclose : c = '}'
    · subst hclose
      rcases Nat.lt_or_ge 1 depth with hdepth | hdepth
      · rw [closeGroups?_close hdepth] at h ⊢
        obtain ⟨g', h', rfl⟩ := eq_of_map_onFound h
        rw [ih h']
        rfl
      · rw [closeGroups?_last hdepth] at h ⊢
        obtain ⟨rfl, rfl⟩ := Prod.mk.inj (Option.some.inj h)
        rfl
    by_cases hopen : c = '{'
    · subst hopen
      rw [closeGroups?_open] at h ⊢
      obtain ⟨g', h', rfl⟩ := eq_of_map_onFound h
      rw [ih h']
      rfl
    · rw [closeGroups?_cons_of_isPlain ⟨hc, hopen, hclose⟩] at h ⊢
      obtain ⟨g', h', rfl⟩ := eq_of_map_onFound h
      rw [ih h']
      rfl

/-! ## Closed texts -/

/-- With `d + 1` groups open in front of the text, a brace right behind it closes the first of them, and
no other one does. -/
def Closes (d : Nat) (s : List Char) : Prop := closeGroups? (d + 1) (s ++ ['}']) = some (s ++ ['}'], [])

theorem closes_nil_iff : Closes d [] ↔ d = 0 := by
  cases d with
  | zero => exact iff_of_true rfl rfl
  | succ d => simp [Closes, closeGroups?]

theorem not_closes_slash : ¬ Closes d ['\\'] := by simp [Closes, closeGroups?]

theorem map_onFound_eq_iff {o : Option (List Char × List Char)} {x y : List Char} :
    o.map (onFound x) = some (x ++ y, r) ↔ o = some (y, r) := by
  constructor
  · intro h
    obtain ⟨g', rfl, hg⟩ := eq_of_map_onFound h
    rw [List.append_cancel_left hg]
  · rintro rfl
    rfl

theorem closes_escaped_iff : Closes d ('\\' :: c :: s) ↔ Closes d s := by
  rw [Closes, List.cons_append, List.cons_append, closeGroups?_escaped]
  exact map_onFound_eq_iff

theorem closes_open_iff : Closes d ('{' :: s) ↔ Closes (d + 1) s := by
  rw [Closes, List.cons_append, closeGroups?_open]
  exact map_onFound_eq_iff

theorem closes_close_iff : Closes d ('}' :: s) ↔ ∃ d', d = d' + 1 ∧ Closes d' s := by
  cases d with
  | zero => simp [Closes, closeGroups?_last]
  | succ d =>
    rw [Closes, List.cons_append, closeGroups?_close (by omega), Nat.add_sub_cancel]
    simpa [Closes] using map_onFound_eq_iff (x := ['}'])

theorem closes_cons_iff_of_isPlain (hc : IsPlain c) : Closes d (c :: s) ↔ Closes d s := by
  rw [Closes, List.cons_append, closeGroups?_cons_of_isPlain hc]
  exact map_onFound_eq_iff

theorem closes_append_iff_of_isPlain (hs : ∀ c ∈ s, IsPlain c) : Closes d (s ++ t) ↔ Closes d t := by
  induction s with
  | nil => exact Iff.rfl
  | cons c s ih =>
    obtain ⟨hc, hs⟩ := List.forall_mem_cons.1 hs
    exact (closes_cons_iff_of_isPlain hc).trans (ih hs)

/-- The scanner passes a closed text. -/
theorem Closes.pass (h : Closes d a) (he : 1 ≤ e) (t : List Char) :
    closeGroups? (d + e) (a ++ t) = (closeGroups? e t).map (onFound a) := by
  induction a using escapes_induction generalizing d with
  | nil =>
    obtain rfl := closes_nil_iff.1 h
    rw [Nat.zero_add, List.nil_append]
    cases closeGroups? e t <;> rfl
  | slash => exact absurd h not_closes_slash
  | escaped c a ih =>
    rw [List.cons_append, List.cons_append, closeGroups?_escaped, ih (closes_escaped_iff.1 h), map_onFound_onFound]
    rfl
  | char c a hc ih =>
    rw [List.cons_append]
    by_cases hclose : c = '}'
    · subst hclose
      obtain ⟨d, rfl, h'⟩ := closes_close_iff.1 h
      rw [closeGroups?_close (by omega), show d + 1 + e - 1 = d + e by omega, ih h', map_onFound_onFound]
      rfl
    by_cases hopen : c = '{'
    · subst hopen
      rw [closeGroups?_open, show d + e + 1 = d + 1 + e by omega, ih (closes_open_iff.1 h), map_onFound_onFound]
      rfl
    · have hplain : IsPlain c := ⟨hc, hopen, hclose⟩
      rw [closeGroups?_cons_of_isPlain hplain, ih ((closes_cons_iff_of_isPlain hplain).1 h), map_onFound_onFound]
      rfl

/-- A text that is closed at the depth of `e` groups more holds the end of them, and what stands behind it is
closed at the depth that is left. -/
theorem Closes.exists_close (h : Closes (d + e) s) (he : 1 ≤ e) :
    ∃ g r, s = g ++ r ∧ closeGroups? e g = some (g, []) ∧ Closes d r := by
  induction s using escapes_induction generalizing e with
  | nil => exact absurd (closes_nil_iff.1 h) (by omega)
  | slash => exact absurd h not_closes_slash
  | escaped c s ih =>
    obtain ⟨g, r, rfl, hg, hr⟩ := ih (closes_escaped_iff.1 h) he
    exact ⟨'\\' :: c :: g, r, rfl, by rw [closeGroups?_escaped, hg]; rfl, hr⟩
  | char c s hc ih =>
    by_cases hclose : c = '}'
    · subst hclose
      obtain ⟨d', hd, h'⟩ := closes_close_iff.1 h
      rcases Nat.eq_or_lt_of_le he with rfl | he
      · obtain rfl : d = d' := Nat.succ.inj hd
        exact ⟨['}'], s, rfl, closeGroups?_last (Nat.le_refl 1) [], h'⟩
      · obtain ⟨g, r, rfl, hg, hr⟩ := ih (e := e - 1) (by rwa [show d + (e - 1) = d' by omega]) (by omega)
        exact ⟨'}' :: g, r, rfl, by rw [closeGroups?_close he, hg]; rfl, hr⟩
    by_cases hopen : c = '{'
    · subst hopen
      obtain ⟨g, r, rfl, hg, hr⟩ := ih (e := e + 1) (closes_open_iff.1 h) (by omega)
      exact ⟨'{' :: g, r, rfl, by rw [closeGroups?_open, hg]; rfl, hr⟩
    · have hplain : IsPlain c := ⟨hc, hopen, hclose⟩
      obtain ⟨g, r, rfl, hg, hr⟩ := ih ((closes_cons_iff_of_isPlain hplain).1 h) he
      exact ⟨c :: g, r, rfl, by rw [closeGroups?_cons_of_isPlain hplain, hg]; rfl, hr⟩

/-! ## Arguments in braces -/

/-- The group around the text ends at its last brace. -/
def IsBalanced (a : List Char) : Prop :=
  groupEnd? ('{' :: (a ++ ['}'])) 0 = some (byteLength ('{' :: (a ++ ['}'])))

instance : Decidable (IsBalanced a) := inferInstanceAs (Decidable (_ = _))

theorem isBalanced_iff : IsBalanced a ↔ Closes 0 a := by
  have hend : groupEnd? ('{' :: (a ++ ['}'])) 0 =
      (closeGroups? 1 (a ++ ['}'])).map fun p => byteLength ('{' :: p.1) := by
    cases hg : closeGroups? 1 (a ++ ['}']) <;> simp [groupEnd?, dropBytes?, splitAtByte?, splitGroup?, hg]
  rw [IsBalanced, hend, Closes, Nat.zero_add, Option.map_eq_some_iff]
  constructor
  · rintro ⟨⟨g, r⟩, hg, hlength⟩
    obtain ⟨hs, -⟩ := append_of_closeGroups? hg
    rw [hs] at hlength
    have hr : r = [] := eq_nil_of_byteLength_eq_zero (by simp at hlength; omega)
    rw [hr, List.append_nil] at hs
    rw [hg, hr, hs]
  · exact fun h => ⟨_, h, rfl⟩

/-- The scanner stops at the brace behind a closed text. -/
theorem IsBalanced.closeGroups?_eq (h : IsBalanced a) (t : List Char) :
    closeGroups? 1 (a ++ '}' :: t) = some (a ++ ['}'], t) := by
  have := (isBalanced_iff.1 h).pass (Nat.le_refl 1) ('}' :: t)
  rwa [Nat.zero_add, closeGroups?_last (Nat.le_refl 1)] at this

theorem IsBalanced.splitGroup?_eq (h : IsBalanced a) (t : List Char) :
    splitGroup? ('{' :: (a ++ '}' :: t)) = some ('{' :: (a ++ ['}']), t) := by
  rw [splitGroup?, h.closeGroups?_eq]
  rfl

/-- **An argument in braces** is its text, whatever follows; blanks in front of it are skipped. -/
theorem IsBalanced.argument?_eq (h : IsBalanced a) (hblanks : ∀ c ∈ blanks, isBlank c = true) (t : List Char) :
    argument? (blanks ++ '{' :: (a ++ '}' :: t)) = some (a, t) := by
  have htrim : trimStart (blanks ++ '{' :: (a ++ '}' :: t)) = '{' :: (a ++ '}' :: t) :=
    (takeWhile_append_of_head hblanks (by simp; decide)).2
  rw [argument?, splitArgument?, htrim, splitArgumentHere?, h.splitGroup?_eq]
  simp [unbrace]

end MathMarkup.Tex
