import MathMarkup.Proofs.Normal.Covered
import MathMarkup.Proofs.Text.Cuts
import MathMarkup.Proofs.Text.Groups

/-!
# What an argument is

A text is closed when every group in it ends (`ClosedText`); these are the texts that may stand in a brace group
(`splitGroup?_eq_some_iff`). An argument is such a group, a word command as long as it gets, a backslash with one
other character, or one character that does not end an argument list (`IsArgumentBefore`). What stands where no
argument starts is told by `NoArgument`, and a text without blanks in front is one or the other
(`splitArgumentHere?_cases`).

With byte offsets an argument is a stretch between two boundaries with only blanks in front of it
(`IsArgumentSpan`), and the span that is found is one (`isArgumentSpan_of_argumentSpan?`); none is found exactly where
no argument starts (`argumentSpan?_eq_none_iff`).
-/

namespace MathMarkup.Tex

open Text

variable {s t a g r arg rest : List Char} {c : Char} {d depth place start stop : Nat}

/-! ## Closed texts -/

/-- Every group that the text opens is closed in it, and it closes no other one. -/
inductive ClosedText : List Char → Prop
  | nil : ClosedText []
  | escaped {s : List Char} (c : Char) (hs : ClosedText s) : ClosedText ('\\' :: c :: s)
  | char {c : Char} {s : List Char} (hc : IsPlain c) (hs : ClosedText s) : ClosedText (c :: s)
  | group {a s : List Char} (ha : ClosedText a) (hs : ClosedText s) : ClosedText ('{' :: (a ++ '}' :: s))

/-- A closed text in front closes nothing. -/
theorem closes_append_iff (ha : Closes 0 a) : Closes d (a ++ t) ↔ Closes d t := by
  have hpass := ha.pass (Nat.le_add_left 1 d) (t ++ ['}'])
  rw [Nat.zero_add] at hpass
  rw [Closes, List.append_assoc, hpass]
  exact map_onFound_eq_iff

/-- The end of a group does not depend on what stands behind it. -/
theorem closeGroups?_self (h : closeGroups? depth s = some (g, r)) : closeGroups? depth g = some (g, []) := by
  induction s using escapes_induction generalizing depth g with
  | nil => cases h
  | slash => simp [closeGroups?] at h
  | escaped c s ih =>
    rw [closeGroups?_escaped] at h
    obtain ⟨g', h', rfl⟩ := eq_of_map_onFound h
    exact (closeGroups?_escaped c g').trans (map_onFound_eq_iff.2 (ih h'))
  | char c s hc ih =>
    by_cases hclose : c = '}'
    · subst hclose
      rcases Nat.lt_or_ge 1 depth with hdepth | hdepth
      · rw [closeGroups?_close hdepth] at h
        obtain ⟨g', h', rfl⟩ := eq_of_map_onFound h
        exact (closeGroups?_close hdepth g').trans (map_onFound_eq_iff.2 (ih h'))
      · rw [closeGroups?_last hdepth] at h
        obtain ⟨rfl, rfl⟩ := Prod.mk.inj (Option.some.inj h)
        exact closeGroups?_last hdepth []
    by_cases hopen : c = '{'
    · subst hopen
      rw [closeGroups?_open] at h
      obtain ⟨g', h', rfl⟩ := eq_of_map_onFound h
      exact (closeGroups?_open g').trans (map_onFound_eq_iff.2 (ih h'))
    · have hplain : IsPlain c := ⟨hc, hopen, hclose⟩
      rw [closeGroups?_cons_of_isPlain hplain] at h
      obtain ⟨g', h', rfl⟩ := eq_of_map_onFound h
      exact (closeGroups?_cons_of_isPlain hplain g').trans (map_onFound_eq_iff.2 (ih h'))

/-- The group that is found is a closed text and the brace behind it. -/
theorem exists_closes_of_closeGroups? (h : closeGroups? 1 s = some (g, r)) : ∃ a, g = a ++ ['}'] ∧ Closes 0 a := by
  obtain ⟨a, rfl⟩ := List.getLast?_eq_some_iff.1 (getLast?_of_closeGroups? h)
  exact ⟨a, rfl, closeGroups?_self h⟩

theorem ClosedText.closes (h : ClosedText a) : Closes 0 a := by
  induction h with
  | nil => exact closes_nil_iff.2 rfl
  | escaped c _ ih => exact closes_escaped_iff.2 ih
  | char hc _ ih => exact (closes_cons_iff_of_isPlain hc).2 ih
  | group _ _ iha ihs =>
    rw [closes_open_iff, closes_append_iff iha]
    exact closes_close_iff.2 ⟨0, rfl, ihs⟩

theorem Closes.closedText (h : Closes 0 s) : ClosedText s := by
  -- a group and what follows it are shorter than both together
  induction hn : s.length using Nat.strongRecOn generalizing s with
  | ind n ih =>
    subst hn
    have hshorter : ∀ t, t.length < s.length → Closes 0 t → ClosedText t := fun t ht hclosed => ih _ ht hclosed rfl
    cases s with
    | nil => exact .nil
    | cons c s =>
      by_cases hslash : c = '\\'
      · subst hslash
        cases s with
        | nil => exact absurd h not_closes_slash
        | cons c s => exact .escaped c (hshorter s (by simp only [List.length_cons]; omega) (closes_escaped_iff.1 h))
      by_cases hclose : c = '}'
      · subst hclose
        obtain ⟨d, hd, -⟩ := closes_close_iff.1 h
        cases hd
      by_cases hopen : c = '{'
      · subst hopen
        obtain ⟨g, r, rfl, hg, hr⟩ := Closes.exists_close (d := 0) (closes_open_iff.1 h) (Nat.le_refl 1)
        obtain ⟨a, rfl, ha⟩ := exists_closes_of_closeGroups? hg
        have hlength : ('{' :: (a ++ ['}'] ++ r)).length = a.length + r.length + 2 := by
          simp only [List.length_cons, List.length_append, List.length_nil]
          omega
        rw [List.append_assoc]
        exact .group (hshorter a (by omega) ha) (hshorter r (by omega) hr)
      · have hplain : IsPlain c := ⟨hslash, hopen, hclose⟩
        exact .char hplain (hshorter s (by simp) ((closes_cons_iff_of_isPlain hplain).1 h))

theorem closedText_iff : ClosedText a ↔ IsBalanced a := by
  rw [isBalanced_iff]
  exact ⟨ClosedText.closes, Closes.closedText⟩

/-- **A brace group** is a closed text between braces. -/
theorem splitGroup?_eq_some_iff :
    splitGroup? ('{' :: s) = some (g, r) ↔ ∃ a, ClosedText a ∧ g = '{' :: (a ++ ['}']) ∧ s = a ++ '}' :: r := by
  constructor
  · intro h
    obtain ⟨⟨g', r'⟩, hg, heq⟩ := Option.map_eq_some_iff.1 h
    obtain ⟨rfl, rfl⟩ := Prod.mk.inj heq
    obtain ⟨a, rfl, ha⟩ := exists_closes_of_closeGroups? hg
    refine ⟨a, ha.closedText, rfl, ?_⟩
    rw [(append_of_closeGroups? hg).1, List.append_assoc]
    rfl
  · rintro ⟨a, ha, rfl, rfl⟩
    exact (closedText_iff.1 ha).splitGroup?_eq r

/-! ## Arguments -/

/-- The characters that end an argument list. -/
def argumentStops : List Char := ['}', '&', '^', '_', '%', '$']

/-- `arg` is an argument when `rest` follows it. -/
inductive IsArgumentBefore (rest : List Char) : List Char → Prop
  | group {a : List Char} (ha : ClosedText a) : IsArgumentBefore rest ('{' :: (a ++ ['}']))
  | word {name : List Char} (hne : name ≠ []) (hrun : IsLongestRun isCommandLetter name rest) :
    IsArgumentBefore rest ('\\' :: name)
  | escaped {c : Char} (hslash : c ≠ '\\') (hletter : isCommandLetter c = false) : IsArgumentBefore rest ['\\', c]
  | char {c : Char} (hblank : isBlank c = false) (hslash : c ≠ '\\') (hopen : c ≠ '{') (hstop : c ∉ argumentStops) :
    IsArgumentBefore rest [c]

/-- No argument starts the text, which has no blanks in front. -/
inductive NoArgument : List Char → Prop
  | nil : NoArgument []
  | stop {c : Char} (hc : c ∈ argumentStops) (s : List Char) : NoArgument (c :: s)
  | lineBreak (s : List Char) : NoArgument ('\\' :: '\\' :: s)
  | slash : NoArgument ['\\']
  | unclosed {s : List Char} (hopen : ∀ a r, ClosedText a → s ≠ a ++ '}' :: r) : NoArgument ('{' :: s)

theorem IsArgumentBefore.ne_nil (h : IsArgumentBefore rest arg) : arg ≠ [] := by
  cases h <;> exact List.cons_ne_nil _ _

theorem NoArgument.splitArgumentHere?_eq (h : NoArgument s) : splitArgumentHere? s = none := by
  cases h with
  | nil | lineBreak | slash => rfl
  | stop hc s =>
    simp only [argumentStops, List.mem_cons, List.not_mem_nil, or_false] at hc
    rcases hc with rfl | rfl | rfl | rfl | rfl | rfl <;> rfl
  | unclosed hopen =>
    refine Option.eq_none_iff_forall_ne_some.2 fun p hp => ?_
    obtain ⟨a, ha, -, heq⟩ := splitGroup?_eq_some_iff.1 hp
    exact hopen a p.2 ha heq

/-- **What stands at the start of a text** without blanks in front: an argument, or no argument. -/
theorem splitArgumentHere?_cases (hs : ∀ c ∈ s.head?, isBlank c = false) :
    (∃ arg rest, s = arg ++ rest ∧ IsArgumentBefore rest arg ∧ splitArgumentHere? s = some (arg, rest)) ∨
      NoArgument s := by
  fun_cases splitArgumentHere? s with
  | case1 => exact Or.inr .nil
  | case2 s =>
    cases hgroup : splitGroup? ('{' :: s) with
    | some p =>
      obtain ⟨a, ha, hg, rfl⟩ := splitGroup?_eq_some_iff.1 hgroup
      refine Or.inl ⟨'{' :: (a ++ ['}']), p.2, by simp, .group ha, ?_⟩
      rw [← hg]
    | none =>
      refine Or.inr (.unclosed fun a r ha hs => ?_)
      rw [hs, splitGroup?_eq_some_iff.2 ⟨a, ha, rfl, rfl⟩] at hgroup
      cases hgroup
  | case3 s | case4 s | case5 s | case6 s | case7 s | case8 s => exact Or.inr (.stop (by decide) s)
  | case9 => exact Or.inr .slash
  | case10 s => exact Or.inr (.lineBreak s)
  | case11 c s hslash hletter =>
    refine Or.inl ⟨_, _, ?_, .word ?_ (isLongestRun_takeWhile isCommandLetter (c :: s)), rfl⟩
    · rw [List.cons_append, List.takeWhile_append_dropWhile]
    · rw [List.takeWhile_cons_of_pos hletter]
      exact List.cons_ne_nil _ _
  | case12 c s hslash hletter => exact Or.inl ⟨_, _, rfl, .escaped hslash (Bool.eq_false_iff.2 hletter), rfl⟩
  | case13 c s hopen hclose hand hcaret hunderscore hpercent hdollar hone hbreak hword =>
    have hstop : c ∉ argumentStops := by
      simpa [argumentStops] using ⟨hclose, hand, hcaret, hunderscore, hpercent, hdollar⟩
    refine Or.inl ⟨_, _, rfl, .char (hs c rfl) (fun hslash => ?_) hopen hstop, rfl⟩
    cases s with
    | nil => exact hone hslash rfl
    | cons d s => exact hword d s hslash rfl

theorem isArgumentBefore_of_splitArgument? {blanks : List Char} (h : splitArgument? t = some (blanks, arg, rest)) :
    IsArgumentBefore rest arg := by
  obtain ⟨p, hp, heq⟩ := Option.map_eq_some_iff.1 h
  obtain ⟨rfl, rfl⟩ := Prod.mk.inj (Prod.mk.inj heq).2
  rcases splitArgumentHere?_cases (isLongestRun_takeWhile isBlank t).ends with ⟨arg, rest, -, harg, hhere⟩ | hnone
  · obtain rfl := Option.some.inj (hhere.symm.trans hp)
    exact harg
  · cases hnone.splitArgumentHere?_eq.symm.trans hp

/-! ## Spans -/

/-- The stretch from byte `start` to byte `stop` is an argument, and only blanks stand between it and byte `place`. -/
structure IsArgumentSpan (s : List Char) (place start stop : Nat) : Prop where
  le : place ≤ start
  lt : start < stop
  inside : stop ≤ byteLength s
  isBoundary_start : IsBoundary s start
  isBoundary_stop : IsBoundary s stop
  blanks : ∃ t, dropBytes? s place = some t ∧ slice? s place start = some (t.takeWhile isBlank)
  argument : ∃ arg rest, slice? s start stop = some arg ∧ dropBytes? s stop = some rest ∧ IsArgumentBefore rest arg

theorem isArgumentSpan_of_dropBytes? {blanks : List Char} (hplace : dropBytes? s place = some (blanks ++ (arg ++ rest)))
    (harg : IsArgumentBefore rest arg) (hblanks : (blanks ++ (arg ++ rest)).takeWhile isBlank = blanks) :
    IsArgumentSpan s place (place + byteLength blanks) (place + byteLength blanks + byteLength arg) := by
  have hstart := dropBytes?_add hplace
  have hstop := dropBytes?_add hstart
  have hstop_boundary := isBoundary_iff.2 ⟨rest, hstop⟩
  have hpos := byteLength_pos harg.ne_nil
  refine ⟨Nat.le_add_right _ _, by omega, hstop_boundary.le, isBoundary_iff.2 ⟨_, hstart⟩, hstop_boundary,
    ⟨_, hplace, ?_⟩, arg, rest, slice?_of_dropBytes? hstart, hstop, harg⟩
  rw [hblanks]
  exact slice?_of_dropBytes? hplace

theorem argumentSpan?_of_dropBytes? (hplace : dropBytes? s place = some t) : argumentSpan? s place =
    (splitArgument? t).map fun p =>
      (place + byteLength p.1, place + byteLength p.1 + byteLength p.2.1) := by
  rw [argumentSpan?, hplace]
  cases h : splitArgument? t <;> simp [h]

/-- **The span that is found is an argument** with only blanks in front of it. -/
theorem isArgumentSpan_of_argumentSpan? (hplace : IsBoundary s place)
    (h : argumentSpan? s place = some (start, stop)) : IsArgumentSpan s place start stop := by
  obtain ⟨t, ht⟩ := isBoundary_iff.1 hplace
  rw [argumentSpan?_of_dropBytes? ht, Option.map_eq_some_iff] at h
  obtain ⟨⟨blanks, arg, rest⟩, hsplit, heq⟩ := h
  obtain ⟨rfl, rfl⟩ := Prod.mk.inj heq
  have hblanks : t.takeWhile isBlank = blanks := by
    obtain ⟨p, -, hp⟩ := Option.map_eq_some_iff.1 hsplit
    exact (Prod.mk.inj hp).1
  have harg := isArgumentBefore_of_splitArgument? hsplit
  obtain ⟨rfl, -⟩ := append_of_splitArgument? hsplit
  rw [List.append_assoc] at ht hblanks
  exact isArgumentSpan_of_dropBytes? ht harg hblanks

/-- **No span is found** exactly where no argument starts. -/
theorem argumentSpan?_eq_none_iff (hplace : dropBytes? s place = some t) :
    argumentSpan? s place = none ↔ NoArgument (trimStart t) := by
  rw [argumentSpan?_of_dropBytes? hplace, splitArgument?, Option.map_eq_none_iff, Option.map_eq_none_iff]
  constructor
  · intro h
    rcases splitArgumentHere?_cases (isLongestRun_takeWhile isBlank t).ends with ⟨arg, rest, -, -, hhere⟩ | hnone
    · cases hhere.symm.trans h
    · exact hnone
  · exact NoArgument.splitArgumentHere?_eq

end MathMarkup.Tex
