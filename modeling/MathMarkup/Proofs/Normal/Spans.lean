import MathMarkup.Proofs.Normal.Blocks
import MathMarkup.Proofs.Placeholder.Items

/-!
# Spans of a readable text

In a readable text a command span is a block that starts with a word: the searches over characters find
the ends that `closing?` finds over signs (`closeGroups?_spell`, `closeEnvironments?_spell`).

Main theorem `protectFrom_spell`: protecting a readable text leaves its other blocks as they are and
numbers the spans in order.
-/

namespace MathMarkup.Tex

open Text Sign

variable {us vs a b : List Sign} {u : Sign} {c : Char} {n depth : Nat} {s t name : List Char} {colors : Bool}

/-- A piece of signs and what comes behind it, as text. -/
def spellPair (p : List Sign × List Sign) : List Char × List Char := (spell p.1, spell p.2)

/-- A found stretch with `s` in front of it. -/
def onFound (s : List Char) (p : List Char × List Char) : List Char × List Char := (s ++ p.1, p.2)

theorem map_spellPair_cons (o : Option (List Sign × List Sign)) (u : Sign) :
    (o.map fun (g, r) => (u :: g, r)).map spellPair = (o.map spellPair).map (onFound u.text) := by
  cases o <;> rfl

theorem map_onFound_onFound (o : Option (List Char × List Char)) (s t : List Char) :
    (o.map (onFound t)).map (onFound s) = o.map (onFound (s ++ t)) := by
  cases o <;> simp [onFound]

@[simp] theorem map_onFound_nil (o : Option (List Char × List Char)) : o.map (onFound []) = o := by
  cases o <;> rfl

/-! ## Brace groups -/

/-- A character that plays no role for brace groups. -/
def IsPlain (c : Char) : Prop := c ≠ '\\' ∧ c ≠ '{' ∧ c ≠ '}'

theorem closeGroups?_cons_of_isPlain (hc : IsPlain c) (s : List Char) :
    closeGroups? depth (c :: s) = (closeGroups? depth s).map (onFound [c]) := by
  obtain ⟨hslash, hopen, hclose⟩ := hc
  rw [closeGroups?.eq_def]
  simp only [hslash, hopen, hclose, ↓reduceIte, decide_false, Bool.false_and, Bool.false_eq_true]
  rfl

theorem closeGroups?_append_of_isPlain (hs : ∀ c ∈ s, IsPlain c) (t : List Char) :
    closeGroups? depth (s ++ t) = (closeGroups? depth t).map (onFound s) := by
  induction s with
  | nil => simp
  | cons c s ih =>
    rw [List.forall_mem_cons] at hs
    rw [List.cons_append, closeGroups?_cons_of_isPlain hs.1, ih hs.2, map_onFound_onFound]
    rfl

theorem closeGroups?_escaped (c : Char) (s : List Char) :
    closeGroups? depth ('\\' :: c :: s) = (closeGroups? depth s).map (onFound ['\\', c]) := by
  rw [closeGroups?]
  rfl

/-- A backslash takes nothing away from a plain character. -/
theorem closeGroups?_slash_of_isPlain (hc : IsPlain c) (s : List Char) :
    closeGroups? depth ('\\' :: c :: s) = (closeGroups? depth (c :: s)).map (onFound ['\\']) := by
  rw [closeGroups?_escaped, closeGroups?_cons_of_isPlain hc, map_onFound_onFound]
  rfl

theorem closeGroups?_open (s : List Char) :
    closeGroups? depth ('{' :: s) = (closeGroups? (depth + 1) s).map (onFound ['{']) := by
  rw [closeGroups?.eq_def]
  simp
  rfl

theorem closeGroups?_close (hdepth : 1 < depth) (s : List Char) :
    closeGroups? depth ('}' :: s) = (closeGroups? (depth - 1) s).map (onFound ['}']) := by
  rw [closeGroups?.eq_def]
  simp [Nat.not_le.2 hdepth]
  rfl

theorem closeGroups?_last (hdepth : depth ≤ 1) (s : List Char) :
    closeGroups? depth ('}' :: s) = some (['}'], s) := by
  rw [closeGroups?.eq_def]
  simp [hdepth]

/-- Inside an open group an inner pair of braces is passed over. -/
theorem closeGroups?_braces (hdepth : 1 ≤ depth) (hname : ∀ c ∈ name, IsPlain c) (t : List Char) :
    closeGroups? depth ('{' :: (name ++ '}' :: t)) =
      (closeGroups? depth t).map (onFound ('{' :: (name ++ ['}']))) := by
  rw [closeGroups?_open, closeGroups?_append_of_isPlain hname, closeGroups?_close (by omega),
    Nat.add_sub_cancel, map_onFound_onFound, map_onFound_onFound]
  rfl

theorem isPlain_of_isCommandLetter (hc : isCommandLetter c = true) : IsPlain c := by
  refine ⟨?_, ?_, ?_⟩ <;> rintro rfl <;> exact absurd hc (by decide)

theorem isPlain_of_isBlank (hc : isBlank c = true) : IsPlain c := by
  refine ⟨?_, ?_, ?_⟩ <;> rintro rfl <;> exact absurd hc (by decide)

/-- A sign other than a brace is passed over. -/
theorem closeGroups?_text {u : Sign} (hdepth : 1 ≤ depth) (hfits : u.FitsWith colors s) (ho : u ≠ .char '{')
    (hc : u ≠ .char '}') :
    closeGroups? depth (u.text ++ s) = (closeGroups? depth s).map (onFound u.text) := by
  cases u with
  | char c =>
    exact closeGroups?_cons_of_isPlain ⟨hfits.1, fun h => ho (h ▸ rfl), fun h => hc (h ▸ rfl)⟩ s
  | escaped c => exact closeGroups?_escaped c s
  | slash =>
    cases s with
    | nil => simp [text, closeGroups?]
    | cons c s => exact closeGroups?_slash_of_isPlain (isPlain_of_isBlank (hfits c rfl)) s
  | word name =>
    have hplain : ∀ c ∈ name, IsPlain c := fun c hc => isPlain_of_isCommandLetter (hfits.2.1 c hc)
    obtain ⟨c, name, rfl⟩ := List.exists_cons_of_ne_nil hfits.1
    rw [text, List.cons_append, List.cons_append,
      closeGroups?_slash_of_isPlain (hplain c List.mem_cons_self), ← List.cons_append,
      closeGroups?_append_of_isPlain hplain, map_onFound_onFound]
    rfl
  | env opening name =>
    have hname : ∀ c ∈ name, IsPlain c := fun c hc => ⟨(hfits c hc).2.2.1, (hfits c hc).1, (hfits c hc).2.1⟩
    cases opening with
    | true =>
      have hword : ∀ c ∈ ['e', 'g', 'i', 'n'], IsPlain c := by simp [IsPlain]
      have htext : beginOf name ++ s =
          '\\' :: 'b' :: (['e', 'g', 'i', 'n'] ++ '{' :: (name ++ '}' :: s)) := by simp [beginOf]
      rw [text, htext, closeGroups?_escaped, closeGroups?_append_of_isPlain hword,
        closeGroups?_braces hdepth hname, map_onFound_onFound, map_onFound_onFound]
      simp [beginOf]
    | false =>
      have hword : ∀ c ∈ ['n', 'd'], IsPlain c := by simp [IsPlain]
      have htext : endOf name ++ s = '\\' :: 'e' :: (['n', 'd'] ++ '{' :: (name ++ '}' :: s)) := by
        simp [endOf]
      rw [text, htext, closeGroups?_escaped, closeGroups?_append_of_isPlain hword,
        closeGroups?_braces hdepth hname, map_onFound_onFound, map_onFound_onFound]
      simp [endOf]

theorem closeGroups?_spell (h : ReadableWith colors us) (hdepth : 1 ≤ depth) :
    closeGroups? depth (spell us) = (closing? (.char '{') (.char '}') depth us).map spellPair := by
  induction us generalizing depth with
  | nil => rfl
  | cons u us ih =>
    obtain ⟨-, hfits, hrest⟩ := h
    rw [spell_cons]
    by_cases hopen : u = .char '{'
    · subst hopen
      rw [closing?_cons (by simp), depthAfter, if_pos rfl, map_spellPair_cons, ← ih hrest (by omega)]
      exact closeGroups?_open (spell us)
    · by_cases hclose : u = .char '}'
      · subst hclose
        by_cases hone : depth ≤ 1
        · rw [closing?, if_pos ⟨rfl, hone⟩]
          exact closeGroups?_last hone (spell us)
        · rw [closing?_cons (by simp [hone]), depthAfter, if_neg (by simp), if_pos rfl, map_spellPair_cons,
            ← ih hrest (by omega)]
          exact closeGroups?_close (Nat.lt_of_not_le hone) (spell us)
      · rw [closeGroups?_text hdepth hfits hopen hclose, closing?_cons_of_ne hopen hclose,
          map_spellPair_cons, ih hrest hdepth]

theorem splitGroup?_spell (h : ReadableWith colors us) : splitGroup? (spell us) = (group? us).map spellPair := by
  by_cases hopen : ∃ us', us = .char '{' :: us'
  · obtain ⟨us, rfl⟩ := hopen
    rw [group?, closing?_cons (by simp), depthAfter, if_pos rfl, map_spellPair_cons,
      ← closeGroups?_spell h.2.2 (by omega)]
    rfl
  · have hgroup : group? us = none := by
      unfold group?
      split
      · rename_i us'
        exact absurd ⟨us', rfl⟩ hopen
      · rfl
    rw [hgroup]
    unfold splitGroup?
    split
    · rename_i s hs
      obtain ⟨us', rfl, -⟩ := h.char_cons hs (by decide)
      exact absurd ⟨us', rfl⟩ hopen
    · rfl

theorem splitGroups_spell (h : ReadableWith colors us) : (splitGroups (spell us)).1.flatten = spell (groupsOf us).1 ∧
    (splitGroups (spell us)).2 = spell (groupsOf us).2 := by
  fun_induction groupsOf us with
  | case1 us hnone =>
    rw [splitGroups]
    split
    · exact ⟨rfl, rfl⟩
    · rename_i hsome
      rw [splitGroup?_spell h, hnone] at hsome
      cases hsome
  | case2 us g r hsome ih =>
    obtain ⟨rfl, -⟩ := append_of_group? hsome
    have ih := ih h.of_append_right
    rw [splitGroups]
    split
    · rename_i hnone
      rw [splitGroup?_spell h, hsome] at hnone
      cases hnone
    · rename_i g' r' hsome'
      rw [splitGroup?_spell h, hsome, Option.map_some, Option.some.injEq, spellPair, Prod.mk.injEq] at hsome'
      obtain ⟨rfl, rfl⟩ := hsome'
      simp [ih.1, ih.2]

/-! ## Environments -/

/-- Where neither word of the environment starts, the search goes on. -/
theorem closeEnvironments?_append (h : ∀ x y, s = x ++ y → y ≠ [] →
    ¬ endOf name <+: y ++ t ∧ ¬ beginOf name <+: y ++ t) :
    closeEnvironments? name depth (s ++ t) = (closeEnvironments? name depth t).map (onFound s) := by
  induction s with
  | nil => simp
  | cons c s ih =>
    obtain ⟨hend, hbegin⟩ := h [] (c :: s) rfl (List.cons_ne_nil c s)
    have ih := ih fun x y hxy hy => h (c :: x) y (by rw [hxy]; rfl) hy
    rw [List.cons_append] at hend hbegin ⊢
    rw [closeEnvironments?]
    split
    · rename_i hsome
      rw [after?_eq_none_iff.2 hend] at hsome
      cases hsome
    · split
      · rename_i hsome
        rw [after?_eq_none_iff.2 hbegin] at hsome
        cases hsome
      · rw [ih]
        exact map_onFound_onFound _ [c] s

theorem closeEnvironments?_endOf (name t : List Char) : closeEnvironments? name depth (endOf name ++ t) =
    if depth ≤ 1 then some (endOf name, t)
    else (closeEnvironments? name (depth - 1) t).map (onFound (endOf name)) := by
  obtain ⟨c, s, hcs⟩ : ∃ c s, endOf name ++ t = c :: s := ⟨_, _, rfl⟩
  have hafter : after? (endOf name) (c :: s) = some t := by rw [← hcs, after?_append]
  rw [hcs, closeEnvironments?]
  split
  · rename_i rest hsome
    rw [hafter, Option.some.injEq] at hsome
    subst hsome
    rfl
  · rename_i hnone
    rw [hafter] at hnone
    cases hnone

theorem closeEnvironments?_beginOf (name t : List Char) : closeEnvironments? name depth (beginOf name ++ t) =
    (closeEnvironments? name (depth + 1) t).map (onFound (beginOf name)) := by
  obtain ⟨c, s, hcs⟩ : ∃ c s, beginOf name ++ t = c :: s := ⟨_, _, rfl⟩
  have hend : after? (endOf name) (c :: s) = none := by rw [← hcs]; simp [endOf, beginOf, after?]
  have hbegin : after? (beginOf name) (c :: s) = some t := by rw [← hcs, after?_append]
  rw [hcs, closeEnvironments?]
  split
  · rename_i hsome
    rw [hend] at hsome
    cases hsome
  · split
    · rename_i rest hsome
      rw [hbegin, Option.some.injEq] at hsome
      subst hsome
      rfl
    · rename_i hnone
      rw [hbegin] at hnone
      cases hnone

theorem closeEnvironments?_spell (h : ReadableWith colors us) (hname : '}' ∉ name) :
    closeEnvironments? name depth (spell us) =
      (closing? (.env true name) (.env false name) depth us).map spellPair := by
  induction us generalizing depth with
  | nil => rw [spell_nil, closeEnvironments?, closing?, Option.map_none]
  | cons u us ih =>
    rw [spell_cons]
    by_cases hend : u = .env false name
    · subst hend
      rw [text, closeEnvironments?_endOf]
      by_cases hdepth : depth ≤ 1
      · rw [if_pos hdepth, closing?, if_pos ⟨rfl, hdepth⟩]
        simp [spellPair, text]
      · rw [if_neg hdepth, closing?_cons fun hlast => hdepth hlast.2, depthAfter, if_neg (by simp), if_pos rfl,
          map_spellPair_cons, ih h.2.2]
        rfl
    · by_cases hbegin : u = .env true name
      · subst hbegin
        rw [text, closeEnvironments?_beginOf, closing?_cons (by simp), depthAfter, if_pos rfl,
          map_spellPair_cons, ih h.2.2]
        rfl
      · rw [closing?_cons_of_ne hbegin hend, map_spellPair_cons, ← ih h.2.2]
        refine closeEnvironments?_append fun x y hxy hy => ?_
        by_cases hx : x = []
        · subst hx
          rw [List.nil_append] at hxy
          rw [← hxy, ← spell_cons]
          constructor
          · rintro (hpre : (env false name).text <+: spell (u :: us))
            exact hend (h.eq_env_of_prefix hname hpre)
          · rintro (hpre : (env true name).text <+: spell (u :: us))
            exact hbegin (h.eq_env_of_prefix hname hpre)
        · constructor
          · rintro (hpre : (env false name).text <+: y ++ spell us)
            exact h.not_env_inside hxy hx hy hpre
          · rintro (hpre : (env true name).text <+: y ++ spell us)
            exact h.not_env_inside hxy hx hy hpre

/-! ## Tails of commands -/

theorem commandTail_of_ne {command : List Char} (h : ReadableWith colors us) (hne : command ≠ beginCommand) :
    commandTail command (spell us) = spell (groupsOf us).1 := by
  rw [← (splitGroups_spell h).1, commandTail]
  simp only
  generalize splitGroups (spell us) = r
  obtain ⟨groups, after⟩ := r
  cases groups with
  | nil => rfl
  | cons group groups => simp [hne]

/-- The first group behind the opening of an environment is its name. -/
theorem splitGroups_braces (h : ∀ c ∈ name, IsPlain c) (t : List Char) :
    splitGroups ('{' :: (name ++ '}' :: t)) =
      (('{' :: (name ++ ['}'])) :: (splitGroups t).1, (splitGroups t).2) := by
  have hgroup : splitGroup? ('{' :: (name ++ '}' :: t)) = some ('{' :: (name ++ ['}']), t) := by
    have hclose : closeGroups? 1 ('}' :: t) = some (['}'], t) := by
      rw [closeGroups?.eq_def]
      rfl
    rw [splitGroup?, closeGroups?_append_of_isPlain h, hclose]
    rfl
  rw [splitGroups]
  split
  · rename_i hnone
    rw [hgroup] at hnone
    cases hnone
  · rename_i hsome
    rw [hgroup, Option.some.injEq, Prod.mk.injEq] at hsome
    obtain ⟨rfl, rfl⟩ := hsome
    rfl

theorem commandTail_word (h : ReadableWith colors (.word name :: us)) :
    commandTail ('\\' :: name) (spell us) = spell ((word name).split us).1 := by
  by_cases hbegin : '\\' :: name = beginCommand
  · -- without a brace behind it there is nothing to take along
    have hgroup : group? us = none := by
      unfold group?
      split
      · refine absurd rfl (h.2.1.2.2.2 ?_)
        rw [(List.cons.inj hbegin).2]
        cases colors <;> simp [reservedWith, reserved]
      · rfl
    have hsplit : splitGroups (spell us) = ([], spell us) := by
      rw [splitGroups]
      split
      · rfl
      · rename_i hsome
        rw [splitGroup?_spell h.2.2, hgroup] at hsome
        cases hsome
    rw [commandTail, hsplit, Sign.split, groupsOf_of_none hgroup]
    rfl
  · exact commandTail_of_ne h.2.2 hbegin

theorem commandTail_env {opening : Bool} (h : ReadableWith colors (.env opening name :: us)) :
    commandTail (if opening then beginCommand else ['\\', 'e', 'n', 'd']) ('{' :: (name ++ '}' :: spell us)) =
      '{' :: (name ++ '}' :: spell ((env opening name).split us).1) := by
  have hname : ∀ c ∈ name, IsPlain c := fun c hc =>
    ⟨(h.2.1 c hc).2.2.1, (h.2.1 c hc).1, (h.2.1 c hc).2.1⟩
  have hclose : '}' ∉ name := fun hmem => (hname _ hmem).2.2 rfl
  obtain ⟨hgroups, hrest⟩ := splitGroups_spell h.2.2
  rw [commandTail, splitGroups_braces hname]
  simp only
  cases opening with
  | false =>
    rw [if_neg (by decide)]
    simp [hgroups, Sign.split]
  | true =>
    have hbody : groupBody ('{' :: (name ++ ['}'])) = name := by
      rw [groupBody, List.tail_cons, List.dropLast_concat]
    rw [if_pos rfl, hbody, splitEnvironment?, hrest, Sign.split,
      closeEnvironments?_spell (ReadableWith.of_append_right (groupsOf_append us ▸ h.2.2)) hclose]
    cases closing? (.env true name) (.env false name) 1 (groupsOf us).2 with
    | none => simp [hgroups]
    | some p => simp [hgroups, spellPair]

end MathMarkup.Tex
