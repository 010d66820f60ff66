import Mathlib.Data.List.Infix
import Mathlib.Logic.Relation
import Mathlib.Order.Bounds.Basic
import MathMarkup.Proofs.Text.Groups

/-!
# The end of an environment

The words that open and close an environment are counted (`occurrences`). Behind an opening word the environment ends
where one closing word more than opening words has been passed for the first time: the search over the text stops at
the shortest beginning that closes more than it opens (`closesMore_of_closeEnvironments?`,
`closeEnvironments?_of_closesMore`). As neither word holds a second backslash, no two words overlap.

The same place is found by jumping from word to word (`turn`): each turn looks for the next word of either sort, counts
it, and goes on behind it. No turn closes an environment when none is open, and the turns come to an end
(`exists_ended`).

Main theorem: `environmentEnd?_matches`.
-/

namespace MathMarkup.Text

variable {word s t u a b : List Char} {c : Char}

/-! ## Counting words -/

/-- How often the word stands in the text. -/
def occurrences (word s : List Char) : Nat := s.tails.countP fun t => word <+: t

theorem occurrences_nil (hword : word ≠ []) : occurrences word [] = 0 := by
  simp [occurrences, hword]

theorem occurrences_cons (word : List Char) (c : Char) (s : List Char) :
    occurrences word (c :: s) = occurrences word s + if word <+: c :: s then 1 else 0 := by
  rw [occurrences, List.tails_cons, List.countP_cons, occurrences]
  simp

/-- A stretch in which the word does not start. -/
theorem occurrences_append (h : ∀ x y, s = x ++ y → y ≠ [] → ¬ word <+: y ++ t) :
    occurrences word (s ++ t) = occurrences word t := by
  induction s with
  | nil => rfl
  | cons c s ih =>
    have hhead : ¬ word <+: c :: (s ++ t) := h [] (c :: s) rfl (List.cons_ne_nil c s)
    rw [List.cons_append, occurrences_cons, if_neg hhead, Nat.add_zero,
      ih fun x y hxy hy => h (c :: x) y (by rw [hxy]; rfl) hy]

theorem infix_of_occurrences_pos (h : 0 < occurrences word s) : word <:+: s := by
  obtain ⟨t, ht, hpre⟩ := List.countP_pos_iff.1 h
  exact (of_decide_eq_true hpre).isInfix.trans ((List.mem_tails t s).1 ht).isInfix

/-! ## The first occurrence -/

/-- A search stops no later than at any place where the word stands. -/
theorem breakOn?_of_prefix (h : word <+: t) (x : List Char) :
    ∃ a b, breakOn? word (x ++ t) = some (a, b) ∧ a <+: x := by
  induction x with
  | nil =>
    obtain ⟨rest, rfl⟩ := h
    refine ⟨[], rest, ?_, List.prefix_refl []⟩
    cases hcons : word ++ rest with
    | nil =>
      obtain ⟨rfl, rfl⟩ := List.append_eq_nil_iff.1 hcons
      rfl
    | cons c s =>
      rw [List.nil_append, breakOn?, ← hcons, after?_append]
  | cons c x ih =>
    rw [List.cons_append, breakOn?]
    cases after? word (c :: (x ++ t)) with
    | some rest => exact ⟨[], rest, rfl, List.nil_prefix⟩
    | none =>
      obtain ⟨a, b, hbreak, hpre⟩ := ih
      exact ⟨c :: a, b, by rw [hbreak]; rfl, List.cons_prefix_cons.2 ⟨rfl, hpre⟩⟩

/-- The word does not start in front of the place where a search stops. -/
theorem not_prefix_of_breakOn? (hbreak : breakOn? word (s ++ t) = some (a, b)) (hle : byteLength s ≤ byteLength a)
    (x y : List Char) (hxy : s = x ++ y) (hy : y ≠ []) : ¬ word <+: y ++ t := by
  intro hpre
  obtain ⟨a', b', hfirst, hbefore⟩ := breakOn?_of_prefix hpre x
  rw [hxy, List.append_assoc, hfirst] at hbreak
  obtain ⟨rfl, rfl⟩ := Prod.mk.inj (Option.some.inj hbreak)
  have hshort := byteLength_le_of_isPrefix hbefore
  have hpos := byteLength_pos hy
  rw [hxy, byteLength_append] at hle
  omega

end MathMarkup.Text

namespace MathMarkup.Tex

open Text

variable {name s t a b body rest : List Char} {c : Char} {d start stop : Nat}

/-! ## Opening and closing words -/

/-- A backslash and then no other one. -/
def IsCommandWord (word : List Char) : Prop := ∃ tail, word = '\\' :: tail ∧ '\\' ∉ tail

theorem isCommandWord_beginOf (hname : '\\' ∉ name) : IsCommandWord (beginOf name) := ⟨_, rfl, by simp [hname]⟩

theorem isCommandWord_endOf (hname : '\\' ∉ name) : IsCommandWord (endOf name) := ⟨_, rfl, by simp [hname]⟩

theorem not_endOf_isPrefix (name t : List Char) : ¬ endOf name <+: beginOf name ++ t := by simp [endOf, beginOf]

theorem not_beginOf_isPrefix (name t : List Char) : ¬ beginOf name <+: endOf name ++ t := by simp [endOf, beginOf]

/-- Behind the backslash of a word no other word starts. -/
theorem IsCommandWord.occurrences_append {v w : List Char} (hv : IsCommandWord v) (hw : IsCommandWord w)
    (t : List Char) : occurrences v (w ++ t) = occurrences v t + if v <+: w ++ t then 1 else 0 := by
  obtain ⟨tail, rfl, htail⟩ := hw
  obtain ⟨v, rfl, -⟩ := hv
  rw [List.cons_append, occurrences_cons, Text.occurrences_append]
  intro x y hxy hy hpre
  obtain ⟨e, y, rfl⟩ := List.exists_cons_of_ne_nil hy
  rw [List.cons_append] at hpre
  refine htail ?_
  rw [hxy, (List.cons_prefix_cons.1 hpre).1]
  simp

/-- A word that stands in another one is its beginning. -/
theorem IsCommandWord.prefix_of_isInfix {v w : List Char} (hv : IsCommandWord v) (hw : IsCommandWord w)
    (h : v <:+: w) : v <+: w := by
  obtain ⟨tail, rfl, htail⟩ := hw
  obtain ⟨v, rfl, -⟩ := hv
  exact (List.infix_cons_iff.1 h).resolve_right fun h => htail (h.subset List.mem_cons_self)

/-! ## Counting along a text -/

/-- The text closes `d` environments more than it opens. -/
def ClosesMore (name : List Char) (d : Nat) (s : List Char) : Prop :=
  occurrences (endOf name) s = occurrences (beginOf name) s + d

theorem closesMore_endOf (hname : '\\' ∉ name) (t : List Char) :
    ClosesMore name (d + 1) (endOf name ++ t) ↔ ClosesMore name d t := by
  have hend := isCommandWord_endOf hname
  rw [ClosesMore, hend.occurrences_append hend, if_pos (List.prefix_append _ _),
    (isCommandWord_beginOf hname).occurrences_append hend, if_neg (not_beginOf_isPrefix name t), ClosesMore]
  omega

theorem closesMore_beginOf (hname : '\\' ∉ name) (t : List Char) :
    ClosesMore name d (beginOf name ++ t) ↔ ClosesMore name (d + 1) t := by
  have hbegin := isCommandWord_beginOf hname
  rw [ClosesMore, hbegin.occurrences_append hbegin, if_pos (List.prefix_append _ _),
    (isCommandWord_endOf hname).occurrences_append hbegin, if_neg (not_endOf_isPrefix name t), ClosesMore]
  omega

theorem closesMore_cons (hend : ¬ endOf name <+: c :: s) (hbegin : ¬ beginOf name <+: c :: s) :
    ClosesMore name d (c :: s) ↔ ClosesMore name d s := by
  rw [ClosesMore, occurrences_cons, occurrences_cons, if_neg hend, if_neg hbegin, ClosesMore]
  rfl

theorem not_closesMore_nil (hd : 1 ≤ d) : ¬ ClosesMore name d [] := by
  have hend : endOf name ≠ [] := List.cons_ne_nil _ _
  have hbegin : beginOf name ≠ [] := List.cons_ne_nil _ _
  rw [ClosesMore, occurrences_nil hend, occurrences_nil hbegin]
  omega

/-- A text that closes an environment holds a closing word. -/
theorem ClosesMore.isInfix_endOf (h : ClosesMore name d s) (hd : 1 ≤ d) : endOf name <:+: s := by
  rw [ClosesMore] at h
  exact infix_of_occurrences_pos (by omega)

/-- A beginning that closes an environment reaches over the word at the start. -/
theorem ClosesMore.exists_append {word : List Char} (h : ClosesMore name d b) (hname : '\\' ∉ name) (hd : 1 ≤ d)
    (hword : word = endOf name ∨ word = beginOf name) (hpre : b <+: word ++ rest) :
    ∃ q, b = word ++ q ∧ q <+: rest := by
  rcases List.prefix_or_prefix_of_prefix hpre (List.prefix_append word rest) with hb | ⟨q, rfl⟩
  · have hinfix := (h.isInfix_endOf hd).trans hb.isInfix
    rcases hword with rfl | rfl
    · have hlength := (h.isInfix_endOf hd).length_le
      exact ⟨[], by rw [List.append_nil, hb.eq_of_length (Nat.le_antisymm hb.length_le hlength)], List.nil_prefix⟩
    · have hbegins := (isCommandWord_endOf hname).prefix_of_isInfix (isCommandWord_beginOf hname) hinfix
      exact absurd (hbegins.trans (List.prefix_append _ [])) (not_endOf_isPrefix name [])
  · exact ⟨q, rfl, (List.prefix_append_right_inj word).1 hpre⟩

/-! ## The shortest beginning that closes the environment -/

theorem closesMore_of_closeEnvironments? (hname : '\\' ∉ name) (hd : 1 ≤ d)
    (h : closeEnvironments? name d s = some (body, rest)) : ClosesMore name d body := by
  fun_induction closeEnvironments? name d s generalizing body rest with
  | case1 => cases h
  | case2 d c s rest' hafter hlast =>
    obtain ⟨rfl, rfl⟩ := Prod.mk.inj (Option.some.inj h)
    obtain rfl : d = 0 + 1 := by omega
    rw [← List.append_nil (endOf name), closesMore_endOf hname]
    rfl
  | case3 d c s rest' hafter hlast ih =>
    obtain ⟨body', hbody, rfl⟩ := eq_of_map_onFound h
    obtain ⟨d, rfl⟩ : ∃ k, d = k + 1 := ⟨d - 1, by omega⟩
    exact (closesMore_endOf hname body').2 (ih (by omega) hbody)
  | case4 d c s hend rest' hafter ih =>
    obtain ⟨body', hbody, rfl⟩ := eq_of_map_onFound h
    exact (closesMore_beginOf hname body').2 (ih (by omega) hbody)
  | case5 d c s hend hbegin ih =>
    obtain ⟨body', hbody, rfl⟩ := eq_of_map_onFound (x := [c]) h
    have hpre : c :: body' <+: c :: s := ⟨rest, by rw [List.cons_append, ← append_of_closeEnvironments? hbody]⟩
    exact (closesMore_cons (fun h => after?_eq_none_iff.1 hend (h.trans hpre))
      fun h => after?_eq_none_iff.1 hbegin (h.trans hpre)).2 (ih hd hbody)

theorem closeEnvironments?_of_closesMore (hname : '\\' ∉ name) (hd : 1 ≤ d) (hpre : b <+: s)
    (h : ClosesMore name d b) : ∃ body rest, closeEnvironments? name d s = some (body, rest) ∧ body <+: b := by
  fun_induction closeEnvironments? name d s generalizing b with
  | case1 =>
    rw [List.prefix_nil.1 hpre] at h
    exact absurd h (not_closesMore_nil hd)
  | case2 d c s rest' hafter hlast =>
    rw [eq_append_of_after? hafter] at hpre
    obtain ⟨q, rfl, -⟩ := h.exists_append hname hd (Or.inl rfl) hpre
    exact ⟨_, _, rfl, List.prefix_append _ q⟩
  | case3 d c s rest' hafter hlast ih =>
    rw [eq_append_of_after? hafter] at hpre
    obtain ⟨q, rfl, hq⟩ := h.exists_append hname hd (Or.inl rfl) hpre
    obtain ⟨d, rfl⟩ : ∃ k, d = k + 1 := ⟨d - 1, by omega⟩
    obtain ⟨body, rest, hfound, hbody⟩ := ih (by omega) hq ((closesMore_endOf hname q).1 h)
    exact ⟨_, rest, by rw [hfound]; rfl, (List.prefix_append_right_inj _).2 hbody⟩
  | case4 d c s hend rest' hafter ih =>
    rw [eq_append_of_after? hafter] at hpre
    obtain ⟨q, rfl, hq⟩ := h.exists_append hname hd (Or.inr rfl) hpre
    obtain ⟨body, rest, hfound, hbody⟩ := ih (by omega) hq ((closesMore_beginOf hname q).1 h)
    exact ⟨_, rest, by rw [hfound]; rfl, (List.prefix_append_right_inj _).2 hbody⟩
  | case5 d c s hend hbegin ih =>
    cases b with
    | nil => exact absurd h (not_closesMore_nil hd)
    | cons e b =>
      obtain ⟨rfl, hb⟩ := List.cons_prefix_cons.1 hpre
      rw [closesMore_cons (fun h => after?_eq_none_iff.1 hend (h.trans hpre))
        fun h => after?_eq_none_iff.1 hbegin (h.trans hpre)] at h
      obtain ⟨body, rest, hfound, hbody⟩ := ih hd hb h
      exact ⟨e :: body, rest, by rw [hfound]; rfl, List.cons_prefix_cons.2 ⟨rfl, hbody⟩⟩

/-- Without a closing word the environment does not end. -/
theorem closeEnvironments?_eq_none (hend : ¬ endOf name <:+: s) : closeEnvironments? name d s = none := by
  fun_induction closeEnvironments? name d s with
  | case1 => rfl
  | case2 d c s rest' hafter hlast | case3 d c s rest' hafter hlast ih =>
    exact absurd ⟨[], rest', (eq_append_of_after? hafter).symm⟩ hend
  | case4 d c s hnone rest' hafter ih =>
    rw [eq_append_of_after? hafter] at hend
    rw [ih (not_infix_behind hend), Option.map_none]
  | case5 d c s hnone hbegin ih =>
    rw [ih fun h => hend (List.infix_cons_iff.2 (Or.inr h)), Option.map_none]

/-! ## Jumping from word to word -/

/-- Where a search stands: how many environments are open, and the byte from which the text is still unread. -/
structure Search where
  depth : Nat
  place : Nat
deriving DecidableEq, Repr

/-- What a turn of the search comes to. -/
inductive Turn where
  | again (next : Search)
  | ended (stop? : Option Nat)
  /-- A word closes an environment when none is open. -/
  | underflow
deriving DecidableEq, Repr

/-- The byte at which the word stands for the first time, from a byte on. -/
def findFrom? (word s : List Char) (place : Nat) : Option Nat := do
  let rest ← dropBytes? s place
  let (before, _) ← breakOn? word rest
  return place + byteLength before

/-- A turn takes the next word of the environment. -/
def turn (name s : List Char) (q : Search) : Turn :=
  match findFrom? (endOf name) s q.place with
  | none => .ended none
  | some close =>
    match (findFrom? (beginOf name) s q.place).filter (· < close) with
    | some opening => .again ⟨q.depth + 1, opening + byteLength (beginOf name)⟩
    | none =>
      match q.depth with
      | 0 => .underflow
      | 1 => .ended (some (close + byteLength (endOf name)))
      | depth + 1 => .again ⟨depth, close + byteLength (endOf name)⟩

/-- Where the search stands after some turns. -/
def Reaches (name s : List Char) : Search → Search → Prop :=
  Relation.ReflTransGen fun q next => turn name s q = .again next

theorem depth_pos_of_turn {q next : Search} (h : turn name s q = .again next) : 0 < next.depth := by
  unfold turn at h
  split at h
  · cases h
  split at h
  · cases h
    exact Nat.succ_pos _
  split at h
  · cases h
  · cases h
  · rename_i depth hone hdepth
    cases h
    exact Nat.pos_of_ne_zero hone

theorem turn_ne_underflow {q : Search} (h : 0 < q.depth) : turn name s q ≠ .underflow := by
  unfold turn
  split
  · exact Turn.noConfusion
  split
  · exact Turn.noConfusion
  split
  · rename_i hzero
    omega
  · exact Turn.noConfusion
  · exact Turn.noConfusion

/-- An environment is open whenever the search goes on. -/
theorem Reaches.depth_pos {q r : Search} (h : Reaches name s q r) (hq : 0 < q.depth) : 0 < r.depth := by
  induction h with
  | refl => exact hq
  | tail _ hturn _ => exact depth_pos_of_turn hturn

theorem findFrom?_append (word a s : List Char) : findFrom? word (a ++ s) (byteLength a) =
    (breakOn? word s).map fun p => byteLength a + byteLength p.1 := by
  rw [findFrom?, dropBytes?_append]
  cases hbreak : breakOn? word s <;> simp [hbreak]

/-- **A turn** finds no closing word, or it takes the next word of the environment, in front of which there is none. -/
theorem turn_cases (name a s : List Char) (d : Nat) :
    turn name (a ++ s) ⟨d + 1, byteLength a⟩ = .ended none ∧ closeEnvironments? name (d + 1) s = none ∨
    (∃ x t, s = x ++ (endOf name ++ t) ∧
      closeEnvironments? name (d + 1) s = (closeEnvironments? name (d + 1) (endOf name ++ t)).map (onFound x) ∧
      turn name (a ++ s) ⟨d + 1, byteLength a⟩ =
        if d = 0 then .ended (some (byteLength (a ++ (x ++ endOf name))))
        else .again ⟨d, byteLength (a ++ (x ++ endOf name))⟩) ∨
    ∃ x t, s = x ++ (beginOf name ++ t) ∧
      closeEnvironments? name (d + 1) s = (closeEnvironments? name (d + 1) (beginOf name ++ t)).map (onFound x) ∧
      turn name (a ++ s) ⟨d + 1, byteLength a⟩ = .again ⟨d + 2, byteLength (a ++ (x ++ beginOf name))⟩ := by
  cases hend : breakOn? (endOf name) s with
  | none =>
    refine Or.inl ⟨?_, closeEnvironments?_eq_none (breakOn?_eq_none_iff.1 hend)⟩
    rw [turn, findFrom?_append, hend]
    rfl
  | some p =>
    obtain ⟨x, t⟩ := p
    have hs := eq_append_of_breakOn? hend
    rw [List.append_assoc] at hs
    have hclose : findFrom? (endOf name) (a ++ s) (byteLength a) = some (byteLength a + byteLength x) := by
      rw [findFrom?_append, hend, Option.map_some]
    have hopen := findFrom?_append (beginOf name) a s
    by_cases hfirst : ∃ y u, breakOn? (beginOf name) s = some (y, u) ∧ byteLength y < byteLength x
    · obtain ⟨y, u, hbegin, hlt⟩ := hfirst
      have hs' := eq_append_of_breakOn? hbegin
      rw [List.append_assoc] at hs'
      refine Or.inr (Or.inr ⟨y, u, hs', ?_, ?_⟩)
      · have hfree := fun v w hvw hw => And.intro (not_prefix_of_breakOn? (hs' ▸ hend) (Nat.le_of_lt hlt) v w hvw hw)
          (not_prefix_of_breakOn? (hs' ▸ hbegin) (Nat.le_refl _) v w hvw hw)
        rw [hs', closeEnvironments?_append hfree]
      · have hbefore : byteLength a + byteLength y < byteLength a + byteLength x := by omega
        rw [hbegin, Option.map_some] at hopen
        simp only [turn, hclose, hopen, Option.filter_some, hbefore, decide_true, ↓reduceIte, byteLength_append,
          Nat.add_assoc]
    · have hfree : ∀ v w, x = v ++ w → w ≠ [] →
          ¬ endOf name <+: w ++ (endOf name ++ t) ∧ ¬ beginOf name <+: w ++ (endOf name ++ t) := by
        intro v w hvw hw
        refine ⟨not_prefix_of_breakOn? (hs ▸ hend) (Nat.le_refl _) v w hvw hw, fun hpre => hfirst ?_⟩
        obtain ⟨y, u, hbegin, hbefore⟩ := breakOn?_of_prefix hpre v
        have hle := byteLength_le_of_isPrefix hbefore
        have hpos := byteLength_pos hw
        refine ⟨y, u, by rw [hs, hvw, List.append_assoc, hbegin], ?_⟩
        rw [hvw, byteLength_append]
        omega
      have hlate : (findFrom? (beginOf name) (a ++ s) (byteLength a)).filter
          (· < byteLength a + byteLength x) = none := by
        rw [hopen, Option.filter_eq_none_iff]
        intro place hplace hlt
        obtain ⟨⟨y, u⟩, hbegin, rfl⟩ := Option.map_eq_some_iff.1 hplace
        exact hfirst ⟨y, u, hbegin, Nat.lt_of_add_lt_add_left (of_decide_eq_true hlt)⟩
      refine Or.inr (Or.inl ⟨x, t, hs, by rw [hs, closeEnvironments?_append hfree], ?_⟩)
      simp only [turn, hclose, hlate, byteLength_append, ← Nat.add_assoc]
      cases d with
      | zero => rfl
      | succ d => rfl

/-- **The turns come to an end**, where the search over the text stops. -/
theorem exists_ended (name a s : List Char) (d : Nat) :
    ∃ last, Reaches name (a ++ s) ⟨d + 1, byteLength a⟩ last ∧
      turn name (a ++ s) last =
        .ended ((closeEnvironments? name (d + 1) s).map fun p => byteLength a + byteLength p.1) := by
  induction hlength : s.length using Nat.strongRecOn generalizing a s d with
  | ind n ih =>
    subst hlength
    -- a turn behind which the search goes on: less text is left
    have hagain : ∀ w t k, s = w ++ t → w ≠ [] →
        closeEnvironments? name (d + 1) s = (closeEnvironments? name (k + 1) t).map (onFound w) →
        turn name (a ++ s) ⟨d + 1, byteLength a⟩ = .again ⟨k + 1, byteLength (a ++ w)⟩ →
        ∃ last, Reaches name (a ++ s) ⟨d + 1, byteLength a⟩ last ∧ turn name (a ++ s) last =
          .ended ((closeEnvironments? name (d + 1) s).map fun p => byteLength a + byteLength p.1) := by
      rintro w t k rfl hw hclose hturn
      have hshort : t.length < (w ++ t).length := by
        have := List.length_pos_iff.2 hw
        rw [List.length_append]
        omega
      obtain ⟨last, hreach, hended⟩ := ih _ hshort (a ++ w) t k rfl
      rw [List.append_assoc] at hreach hended
      refine ⟨last, .head hturn hreach, ?_⟩
      rw [hended, hclose, Option.map_map]
      simp only [Function.comp_def, onFound, byteLength_append, Nat.add_assoc]
    rcases turn_cases name a s d with ⟨hturn, hnone⟩ | ⟨x, t, hs, hclose, hturn⟩ | ⟨x, t, hs, hclose, hturn⟩
    · exact ⟨_, .refl, by rw [hturn, hnone]; rfl⟩
    · rw [closeEnvironments?_endOf] at hclose
      cases d with
      | zero =>
        refine ⟨_, .refl, ?_⟩
        rw [hturn, hclose]
        simp [onFound]
      | succ d =>
        rw [if_neg (by omega), map_onFound_onFound] at hclose
        rw [if_neg (by omega)] at hturn
        exact hagain (x ++ endOf name) t d (by rw [hs, List.append_assoc]) (by simp [endOf]) hclose hturn
    · rw [closeEnvironments?_beginOf, map_onFound_onFound] at hclose
      exact hagain (x ++ beginOf name) t (d + 1) (by rw [hs, List.append_assoc]) (by simp [beginOf]) hclose hturn

/-! ## Where the environment ends -/

theorem environmentEnd?_of_dropBytes? (hstart : dropBytes? s start = some t) (name : List Char) :
    environmentEnd? s start name = (splitEnvironment? name t).map fun p => start + byteLength p.1 := by
  rw [environmentEnd?, hstart]
  cases h : splitEnvironment? name t <;> simp [h]

/-- The bytes up to which the text from byte `start` on closes one environment more than it opens. -/
def environmentEnds (name s : List Char) (start : Nat) : Set Nat := fun stop =>
  ∃ body, slice? s start stop = some body ∧ occurrences (endOf name) body = occurrences (beginOf name) body + 1

theorem mem_environmentEnds_iff : stop ∈ environmentEnds name (a ++ s) (byteLength a) ↔
    ∃ body, body <+: s ∧ ClosesMore name 1 body ∧ byteLength a + byteLength body = stop := by
  constructor
  · rintro ⟨body, hslice, hcount⟩
    obtain ⟨a', b, hs, ha, hstop⟩ := slice?_eq_some_iff.1 hslice
    obtain ⟨-, rfl⟩ := eq_of_byteLength_eq hs ha.symm
    exact ⟨body, List.prefix_append body b, hcount, hstop⟩
  · rintro ⟨body, ⟨b, rfl⟩, hcount, rfl⟩
    exact ⟨body, slice?_append a body b, hcount⟩

/-- **The end of an environment** is the first byte up to which its closing word stands once more than its opening
word, and there is none if there is no such byte. Searching from word to word finds it: the depth never gets below
zero, and the search always ends. -/
theorem environmentEnd?_matches (hname : '\\' ∉ name) (hstart : IsBoundary s start) :
    (∀ stop, environmentEnd? s start name = some stop ↔ IsLeast (environmentEnds name s start) stop) ∧
    (environmentEnd? s start name = none ↔ environmentEnds name s start = ∅) ∧
    (∀ q, Reaches name s ⟨1, start⟩ q → turn name s q ≠ .underflow) ∧
    ∃ last, Reaches name s ⟨1, start⟩ last ∧ turn name s last = .ended (environmentEnd? s start name) := by
  obtain ⟨a, s, rfl, rfl⟩ := hstart
  have hfound : environmentEnd? (a ++ s) (byteLength a) name =
      (closeEnvironments? name 1 s).map fun p => byteLength a + byteLength p.1 :=
    environmentEnd?_of_dropBytes? (dropBytes?_append a s) name
  have hends : (∀ stop, environmentEnd? (a ++ s) (byteLength a) name = some stop ↔
        IsLeast (environmentEnds name (a ++ s) (byteLength a)) stop) ∧
      (environmentEnd? (a ++ s) (byteLength a) name = none ↔ environmentEnds name (a ++ s) (byteLength a) = ∅) := by
    cases hclose : closeEnvironments? name 1 s with
    | none =>
      have hempty : environmentEnds name (a ++ s) (byteLength a) = ∅ := by
        refine Set.eq_empty_iff_forall_notMem.2 fun stop hstop => ?_
        obtain ⟨b, hpre, hb, -⟩ := mem_environmentEnds_iff.1 hstop
        obtain ⟨body, rest, hsome, -⟩ := closeEnvironments?_of_closesMore hname (Nat.le_refl 1) hpre hb
        rw [hclose] at hsome
        cases hsome
      rw [hfound, hclose, hempty]
      simp [IsLeast]
    | some p =>
      obtain ⟨body, rest⟩ := p
      have hleast : IsLeast (environmentEnds name (a ++ s) (byteLength a)) (byteLength a + byteLength body) := by
        constructor
        · exact mem_environmentEnds_iff.2 ⟨body, ⟨rest, (append_of_closeEnvironments? hclose).symm⟩,
            closesMore_of_closeEnvironments? hname (Nat.le_refl 1) hclose, rfl⟩
        · intro stop hstop
          obtain ⟨b, hpre, hb, rfl⟩ := mem_environmentEnds_iff.1 hstop
          obtain ⟨body', rest', hsome, hbody⟩ := closeEnvironments?_of_closesMore hname (Nat.le_refl 1) hpre hb
          obtain ⟨rfl, rfl⟩ := Prod.mk.inj (Option.some.inj (hclose.symm.trans hsome))
          exact Nat.add_le_add_left (byteLength_le_of_isPrefix hbody) _
      rw [hfound, hclose, Option.map_some]
      refine ⟨fun stop => ⟨fun h => Option.some.inj h ▸ hleast, fun h => by rw [hleast.unique h]⟩, ?_⟩
      exact iff_of_false nofun fun hempty => (hempty ▸ hleast.1 : _ ∈ (∅ : Set Nat))
  refine ⟨hends.1, hends.2, fun q hq => turn_ne_underflow (hq.depth_pos Nat.one_pos), ?_⟩
  rw [hfound]
  exact exists_ended name a s 0

/-- An environment inside of one with the same name, and characters of more than one byte. -/
theorem environmentEnd?_matches_nested :
    let s := "\\begin\x7bm\x7dé\\begin\x7bm\x7db\\end\x7bm\x7d\\end\x7bm\x7dc".toList
    '\\' ∉ ['m'] ∧ IsBoundary s 9 ∧ environmentEnd? s 9 ['m'] = some 35 ∧ IsLeast (environmentEnds ['m'] s 9) 35 := by
  intro s
  have hboundary : IsBoundary s 9 := by decide +kernel
  have hend : environmentEnd? s 9 ['m'] = some 35 := by decide +kernel
  exact ⟨by decide, hboundary, hend, ((environmentEnd?_matches (by decide) hboundary).1 35).1 hend⟩

end MathMarkup.Tex
