import MathMarkup.Proofs.Normal.Gaps
import MathMarkup.Tex.Cosmetic

/-!
# What a cosmetic fix does to signs

A fix puts a space between a sign and a word, or takes one of two pairs of braces away (`Touched`). Both
leave alone what a sign takes along: the searches find corresponding ends (`Touched.rel_closing?`).

Main theorems: a readable text stays readable (`Touched.readable`), and aligned blocks stay aligned
(`Touched.aligned`).
-/

namespace MathMarkup.Tex

open Text Sign Block

variable {us vs x : List Sign} {u v y opens closes : Sign} {depth : Nat} {s : List Char}

/-- Does the sign end with a character that needs a space before `\text`? -/
def Sign.Tight (u : Sign) : Prop := ∃ c, u.text.getLast? = some c ∧ spacesItself c = false

/-- The space that a fix writes. -/
def Sign.IsSpace (v : Sign) : Prop := v = .char ' ' ∨ v = .escaped ','

/-- The signs before and after a fix. -/
inductive Touched : List Sign → List Sign → Prop
  | nil : Touched [] []
  | same (u : Sign) {us vs : List Sign} (h : Touched us vs) : Touched (u :: us) (u :: vs)
  | insert {u v : Sign} {name : List Char} {us vs : List Sign} (hu : u.Tight) (hv : v.IsSpace)
      (h : Touched (.word name :: us) vs) : Touched (u :: .word name :: us) (u :: v :: vs)
  | braces {x : List Sign} {y : Sign} {us vs : List Sign} (hx : ∀ c ∈ spell x, isBrace c = false)
      (hy : y = .char '}' ∨ y = .escaped '}') (h : Touched us vs) :
      Touched (.char '{' :: .char '{' :: (x ++ y :: .char '}' :: us)) (.char '{' :: (x ++ y :: vs))

theorem Touched.refl (us : List Sign) : Touched us us := by
  induction us with
  | nil => exact .nil
  | cons u us ih => exact .same u ih

theorem Touched.head?_eq (h : Touched us vs) : vs.head? = us.head? := by
  cases h <;> rfl

theorem Touched.head?_spell_eq (h : Touched us vs) : (spell vs).head? = (spell us).head? := by
  rw [head?_spell, head?_spell, h.head?_eq]

theorem Sign.getLast?_text_env (opening : Bool) (name : List Char) :
    (env opening name).text.getLast? = some '}' := by
  obtain ⟨w, -, htext⟩ := Sign.text_env true opening name
  have hconcat : '\\' :: (w ++ (name ++ ['}'])) = ('\\' :: (w ++ name)) ++ ['}'] := by simp
  rw [htext, hconcat, List.getLast?_concat]

theorem Sign.Tight.not_isStructural (hu : u.Tight) : u.isStructural = false := by
  obtain ⟨c, hc, htight⟩ := hu
  cases u with
  | char d =>
    obtain rfl : d = c := by simpa [text] using hc
    rw [spacesItself] at htight
    simp only [Bool.or_eq_false_iff, isBrace] at htight
    simpa [isStructural] using htight.1.1.1.1.1.2
  | escaped | slash | word => rfl
  | env opening name =>
    rw [Sign.getLast?_text_env, Option.some.injEq] at hc
    subst hc
    cases htight

theorem Sign.IsSpace.not_isStructural (hv : v.IsSpace) : v.isStructural = false := by
  rcases hv with rfl | rfl <;> rfl

/-- A sign without a brace in its text plays no role for pairs. -/
theorem not_isStructural_of_isBrace (hu : ∀ c ∈ u.text, isBrace c = false) : u.isStructural = false := by
  cases u with
  | char c => exact hu c (by simp [text])
  | escaped | slash | word => rfl
  | env opening name =>
    have := hu '}' (by cases opening <;> simp [text, beginOf, endOf])
    cases this

theorem not_isStructural_of_mem (hx : ∀ c ∈ spell x, isBrace c = false) : ∀ u ∈ x, u.isStructural = false := by
  intro u hu
  refine not_isStructural_of_isBrace fun c hc => hx c ?_
  rw [spell, List.mem_flatMap]
  exact ⟨u, hu, hc⟩

/-! ## Ends that are found -/

/-- The signs of a pair: the braces, or the words of an environment. -/
def IsPair (opens closes : Sign) : Prop :=
  (opens = .char '{' ∧ closes = .char '}') ∨ ∃ name, opens = .env true name ∧ closes = .env false name

theorem IsPair.isStructural (h : IsPair opens closes) : opens.isStructural = true ∧ closes.isStructural = true := by
  rcases h with ⟨rfl, rfl⟩ | ⟨name, rfl, rfl⟩ <;> exact ⟨rfl, rfl⟩

/-- Signs in front of what is found. -/
def inFront (s : List Sign) (p : List Sign × List Sign) : List Sign × List Sign := (s ++ p.1, p.2)

theorem map_inFront_inFront (o : Option (List Sign × List Sign)) (a b : List Sign) :
    (o.map (inFront b)).map (inFront a) = o.map (inFront (a ++ b)) := by
  cases o <;> simp [inFront]

/-- Signs other than those of the pair are passed over. -/
theorem closing?_append_of_ne (hx : ∀ u ∈ x, u ≠ opens ∧ u ≠ closes) (us : List Sign) :
    closing? opens closes depth (x ++ us) = (closing? opens closes depth us).map (inFront x) := by
  induction x with
  | nil => cases h : closing? opens closes depth us <;> simp [h, inFront]
  | cons u x ih =>
    rw [List.forall_mem_cons] at hx
    rw [List.cons_append, closing?_cons_of_ne hx.1.1 hx.1.2, ih hx.2, Option.map_map]
    rfl

theorem IsPair.ne_of_not_isStructural (hpair : IsPair opens closes) (hu : u.isStructural = false) :
    u ≠ opens ∧ u ≠ closes := by
  obtain ⟨ho, hc⟩ := hpair.isStructural
  constructor
  · rintro rfl
    rw [hu] at ho
    cases ho
  · rintro rfl
    rw [hu] at hc
    cases hc

theorem closing?_brace_open (us : List Sign) : closing? (.char '{') (.char '}') depth (.char '{' :: us) =
    (closing? (.char '{') (.char '}') (depth + 1) us).map (inFront [.char '{']) := by
  rw [closing?_cons (by simp), depthAfter, if_pos rfl]
  rfl

theorem closing?_brace_close (us : List Sign) : closing? (.char '{') (.char '}') (depth + 1) (.char '}' :: us) =
    if depth = 0 then some ([.char '}'], us)
    else (closing? (.char '{') (.char '}') depth us).map (inFront [.char '}']) := by
  by_cases hdepth : depth = 0
  · rw [if_pos hdepth, closing?, if_pos ⟨rfl, by omega⟩]
  · rw [if_neg hdepth, closing?_cons fun h => hdepth (by omega), depthAfter, if_neg (by simp), if_pos rfl,
      Nat.add_sub_cancel]
    rfl

/-- Doubled braces and single ones are passed alike, or a search ends with both. -/
theorem closing?_braces (hpair : IsPair opens closes) (hx : ∀ c ∈ spell x, isBrace c = false)
    (hy : y = .char '}' ∨ y = .escaped '}') (depth : Nat) :
    (∃ depth', ∀ us vs,
      closing? opens closes depth (.char '{' :: .char '{' :: (x ++ y :: .char '}' :: us)) =
        (closing? opens closes depth' us).map (inFront (.char '{' :: .char '{' :: (x ++ [y, .char '}']))) ∧
      closing? opens closes depth (.char '{' :: (x ++ y :: vs)) =
        (closing? opens closes depth' vs).map (inFront (.char '{' :: (x ++ [y])))) ∨
    ∀ us vs,
      closing? opens closes depth (.char '{' :: .char '{' :: (x ++ y :: .char '}' :: us)) =
        some (.char '{' :: .char '{' :: (x ++ [y, .char '}']), us) ∧
      closing? opens closes depth (.char '{' :: (x ++ y :: vs)) = some (.char '{' :: (x ++ [y]), vs) := by
  have hpass : ∀ depth us, closing? opens closes depth (x ++ us) =
      (closing? opens closes depth us).map (inFront x) := fun depth us =>
    closing?_append_of_ne (fun u hu => hpair.ne_of_not_isStructural (not_isStructural_of_mem hx u hu)) us
  rcases hpair with ⟨rfl, rfl⟩ | ⟨name, rfl, rfl⟩
  · have hescaped : ∀ depth us, closing? (.char '{') (.char '}') depth (.escaped '}' :: us) =
        (closing? (.char '{') (.char '}') depth us).map (inFront [.escaped '}']) := fun depth us =>
      closing?_append_of_ne (x := [.escaped '}']) (by simp) us
    rcases hy with rfl | rfl
    · by_cases hdepth : depth = 0
      · refine Or.inr fun us vs => ⟨?_, ?_⟩ <;>
          simp [closing?_brace_open, closing?_brace_close, hpass, hdepth, inFront]
      · refine Or.inl ⟨depth, fun us vs => ⟨?_, ?_⟩⟩ <;>
          simp only [closing?_brace_open, closing?_brace_close, hpass, hdepth, map_inFront_inFront,
            Nat.add_one_ne_zero, ↓reduceIte] <;> simp
    · refine Or.inl ⟨depth + 1, fun us vs => ⟨?_, ?_⟩⟩ <;>
        simp only [closing?_brace_open, closing?_brace_close, hescaped, hpass, map_inFront_inFront,
          Nat.add_one_ne_zero, ↓reduceIte] <;> simp
  · -- braces are nothing to the words of an environment
    have hall : ∀ z : List Sign, (∀ u ∈ z, u = .char '{' ∨ u = .char '}' ∨ u = .escaped '}' ∨ u ∈ x) →
        ∀ us, closing? (.env true name) (.env false name) depth (z ++ us) =
          (closing? (.env true name) (.env false name) depth us).map (inFront z) := by
      refine fun z hz us => closing?_append_of_ne (fun u hu => ?_) us
      rcases hz u hu with rfl | rfl | rfl | hu
      · simp
      · simp
      · simp
      · exact IsPair.ne_of_not_isStructural (Or.inr ⟨name, rfl, rfl⟩) (not_isStructural_of_mem hx u hu)
    refine Or.inl ⟨depth, fun us vs => ⟨?_, ?_⟩⟩
    · rw [← hall]
      · simp
      · intro u hu
        simp only [List.mem_cons, List.mem_append, List.not_mem_nil, or_false] at hu
        grind
    · rw [← hall]
      · simp
      · intro u hu
        simp only [List.mem_cons, List.mem_append, List.not_mem_nil, or_false] at hu
        grind

/-- Both members of a pair of results are related. -/
def TouchedPair (p q : List Sign × List Sign) : Prop := Touched p.1 q.1 ∧ Touched p.2 q.2

theorem rel_map {α β : Type} {R S : α → β → Prop} {f : α → α} {g : β → β} {o : Option α} {o' : Option β}
    (h : Option.Rel R o o') (hmap : ∀ a b, R a b → S (f a) (g b)) : Option.Rel S (o.map f) (o'.map g) := by
  cases h with
  | none => exact .none
  | some h => exact .some (hmap _ _ h)

theorem rel_mono {α β : Type} {R S : α → β → Prop} {o : Option α} {o' : Option β} (h : Option.Rel R o o')
    (hmap : ∀ a b, o = some a → R a b → S a b) : Option.Rel S o o' := by
  cases h with
  | none => exact .none
  | some h => exact .some (hmap _ _ rfl h)

/-- **The searches find corresponding ends** before and after a fix. -/
theorem Touched.rel_closing? (h : Touched us vs) (hpair : IsPair opens closes) (depth : Nat) :
    Option.Rel TouchedPair (closing? opens closes depth us) (closing? opens closes depth vs) := by
  induction h generalizing depth with
  | nil => exact .none
  | @same u us vs h ih =>
    by_cases hu : u = closes ∧ depth ≤ 1
    · rw [closing?, closing?, if_pos hu, if_pos hu]
      exact .some ⟨.same u .nil, h⟩
    · rw [closing?_cons hu, closing?_cons hu]
      exact rel_map (ih _) fun p q hp => ⟨.same u hp.1, hp.2⟩
  | @insert u v name us vs hu hv h ih =>
    have hne := hpair.ne_of_not_isStructural hu.not_isStructural
    have hnv := hpair.ne_of_not_isStructural hv.not_isStructural
    have hnw := hpair.ne_of_not_isStructural (u := .word name) rfl
    rw [closing?_cons_of_ne hne.1 hne.2, closing?_cons_of_ne hne.1 hne.2, closing?_cons_of_ne hnv.1 hnv.2,
      Option.map_map]
    -- what is found behind `u` starts with the word
    have hword : ∀ p, closing? opens closes depth (.word name :: us) = some p → ∃ g, p.1 = .word name :: g := by
      intro p hp
      rw [closing?_cons_of_ne hnw.1 hnw.2, Option.map_eq_some_iff] at hp
      obtain ⟨q, -, rfl⟩ := hp
      exact ⟨q.1, rfl⟩
    refine rel_map (rel_mono (S := fun p q => TouchedPair p q ∧ ∃ g, p.1 = .word name :: g) (ih depth) ?_) ?_
    · exact fun p q hp hpq => ⟨hpq, hword p hp⟩
    · rintro p q ⟨hpq, g, hg⟩
      refine ⟨?_, hpq.2⟩
      have hfirst := hpq.1
      simp only [hg] at hfirst ⊢
      exact .insert hu hv hfirst
  | @braces x y us vs hx hy h ih =>
    rcases closing?_braces hpair hx hy depth with ⟨depth', hpass⟩ | hend
    · rw [(hpass us vs).1, (hpass us vs).2]
      refine rel_map (ih depth') fun p q hp => ⟨?_, hp.2⟩
      simp only [inFront, List.cons_append, List.append_assoc, List.nil_append]
      exact .braces hx hy hp.1
    · rw [(hend us vs).1, (hend us vs).2]
      exact .some ⟨.braces hx hy .nil, h⟩

/-! ## What a sign takes along -/

theorem group?_eq (us : List Sign) : group? us =
    if us.head? = some (.char '{') then closing? (.char '{') (.char '}') 0 us else none := by
  unfold group?
  split
  · rfl
  · rename_i hne
    rw [if_neg]
    intro hhead
    obtain ⟨us', rfl⟩ := List.head?_eq_some_iff.1 hhead
    exact hne us' rfl

theorem Touched.rel_group? (h : Touched us vs) : Option.Rel TouchedPair (group? us) (group? vs) := by
  rw [group?_eq, group?_eq, h.head?_eq]
  split
  · exact h.rel_closing? (Or.inl ⟨rfl, rfl⟩) 0
  · exact .none

theorem Touched.append {us' vs' : List Sign} (h : Touched us vs) (h' : Touched us' vs') :
    Touched (us ++ us') (vs ++ vs') := by
  induction h with
  | nil => exact h'
  | same u h ih => exact .same u ih
  | insert hu hv h ih => exact .insert hu hv ih
  | @braces x y us vs hx hy h ih =>
    simp only [List.cons_append, List.append_assoc]
    exact .braces hx hy ih

theorem Touched.groups (h : Touched us vs) : TouchedPair (groupsOf us) (groupsOf vs) := by
  fun_induction groupsOf us generalizing vs with
  | case1 us hnone =>
    have hgroup := h.rel_group?
    rw [hnone] at hgroup
    cases hvs : group? vs with
    | none =>
      rw [groupsOf_of_none hvs]
      exact ⟨.nil, h⟩
    | some q =>
      rw [hvs] at hgroup
      cases hgroup
  | case2 us g r hsome ih =>
    have hgroup := h.rel_group?
    rw [hsome] at hgroup
    cases hvs : group? vs with
    | none =>
      rw [hvs] at hgroup
      cases hgroup
    | some q =>
      rw [hvs] at hgroup
      cases hgroup with
      | some hp =>
        obtain ⟨hfirst, hrest⟩ := ih hp.2
        rw [groupsOf_of_some hvs]
        exact ⟨hp.1.append hfirst, hrest⟩

theorem Touched.split (h : Touched us vs) (u : Sign) : TouchedPair (u.split us) (u.split vs) := by
  cases u with
  | char | escaped | slash => exact ⟨.nil, h⟩
  | word name => exact h.groups
  | env opening name =>
    cases opening with
    | false => exact h.groups
    | true =>
      obtain ⟨hgroups, hrest⟩ := h.groups
      have hclose := hrest.rel_closing? (Or.inr ⟨name, rfl, rfl⟩) 1
      rw [Sign.split, Sign.split]
      generalize closing? (.env true name) (.env false name) 1 (groupsOf us).2 = o at hclose ⊢
      generalize closing? (.env true name) (.env false name) 1 (groupsOf vs).2 = o' at hclose ⊢
      cases hclose with
      | none => exact ⟨hgroups, hrest⟩
      | some hp => exact ⟨hgroups.append hp.1, hp.2⟩

/-! ## Readable texts -/

/-- The end of a reserved word: letters and a brace, or nothing. -/
def IsReservedEnd (w : List Char) : Prop :=
  w = [] ∨ ∃ name, (∀ c ∈ name, isCommandLetter c = true) ∧ w = name ++ ['{']

theorem isReservedEnd_of_mem {w : List Char} (hw : w ∈ reserved) : IsReservedEnd w := by
  simp only [reserved, List.mem_cons, List.not_mem_nil, or_false] at hw
  rcases hw with rfl | rfl | rfl
  · exact Or.inr ⟨"begin".toList, List.all_eq_true.1 (by decide), rfl⟩
  · exact Or.inr ⟨"end".toList, List.all_eq_true.1 (by decide), rfl⟩
  · exact Or.inr ⟨"color".toList, List.all_eq_true.1 (by decide), rfl⟩

theorem IsReservedEnd.of_append {a w : List Char} (h : IsReservedEnd (a ++ w)) : IsReservedEnd w := by
  rcases h with hnil | ⟨name, hname, heq⟩
  · exact Or.inl (List.append_eq_nil_iff.1 hnil).2
  · rcases List.append_eq_append_iff.1 heq with ⟨b, rfl, rfl⟩ | ⟨b, rfl, hb⟩
    · exact Or.inr ⟨b, fun c hc => hname c (List.mem_append_right a hc), rfl⟩
    · cases b with
      | nil => exact Or.inr ⟨[], by simp, by simpa using hb.symm⟩
      | cons d b =>
        have := congrArg List.length hb
        simp only [List.length_cons, List.length_append, List.length_nil] at this
        exact Or.inl (List.length_eq_zero_iff.1 (by omega))

/-- A reserved word that a fixed text goes on with was there before. -/
theorem Touched.reserved_prefix (h : Touched us vs) {w : List Char} (hw : IsReservedEnd w)
    (hpre : w <+: spell vs) : w <+: spell us := by
  -- the part of the word inside a sign, and what is left of it
  have hstep : ∀ (a r r' : List Char) (w : List Char), (∀ w, IsReservedEnd w → w <+: r' → w <+: r) →
      IsReservedEnd w → w <+: a ++ r' → w <+: a ++ r := by
    intro a r r' w hrest hw hpre
    rcases List.prefix_or_prefix_of_prefix hpre (List.prefix_append a r') with hin | ⟨w', rfl⟩
    · exact hin.trans (List.prefix_append a r)
    · rw [List.prefix_append_right_inj] at hpre ⊢
      exact hrest w' hw.of_append hpre
  induction h generalizing w with
  | nil => exact hpre
  | @same u us vs h ih => exact hstep u.text _ _ w (fun w hw hpre => ih hw hpre) hw hpre
  | @insert u v name us vs hu hv h ih =>
    refine hstep u.text _ (v.text ++ spell vs) w (fun w hw hpre => ?_) hw hpre
    -- no reserved word goes on with a space
    rcases hw with rfl | ⟨name, hname, rfl⟩
    · exact List.nil_prefix
    · obtain ⟨t, ht⟩ := hpre
      have hhead := congrArg List.head? ht
      rcases hv with rfl | rfl <;> cases name with
      | nil => simp [text] at hhead
      | cons c name =>
        have hc := hname c List.mem_cons_self
        simp only [text, List.cons_append, List.head?_cons, Option.some.injEq] at hhead
        rw [hhead] at hc
        exact absurd hc (by decide)
  | @braces x y us vs hx hy h ih =>
    rcases hw with rfl | ⟨name, hname, rfl⟩
    · exact List.nil_prefix
    · obtain ⟨t, ht⟩ := hpre
      cases name with
      | nil => exact ⟨_, rfl⟩
      | cons c name =>
        have hc := hname c List.mem_cons_self
        have hhead := congrArg List.head? ht
        simp only [spell_cons, text, List.cons_append, List.head?_cons, Option.some.injEq] at hhead
        rw [hhead] at hc
        exact absurd hc (by decide)

/-- A tight sign fits before a space as it fits before a word. -/
theorem Sign.Tight.fits_space {t : List Char} (hu : u.Tight) (hv : v.IsSpace) (h : u.Fits t) :
    u.Fits (spell (v :: vs)) := by
  obtain ⟨c, hc, htight⟩ := hu
  cases u with
  | char | env => exact h
  | escaped d =>
    obtain rfl : d = c := by simpa [text] using hc
    refine ⟨h.1, h.2.1, ?_⟩
    rintro rfl
    cases htight
  | slash =>
    obtain rfl : '\\' = c := by simpa [text] using hc
    cases htight
  | word w =>
    have hhead : (spell (v :: vs)).head? = some ' ' ∨ (spell (v :: vs)).head? = some '\\' := by
      rcases hv with rfl | rfl
      · exact Or.inl rfl
      · exact Or.inr rfl
    refine ⟨h.1, h.2.1, fun e he => ?_, fun _ hbrace => ?_⟩
    · rcases hhead with hhead | hhead <;>
        · rw [hhead] at he
          cases he
          decide
    · rcases hhead with hhead | hhead <;>
        · rw [hhead] at hbrace
          exact absurd hbrace (by decide)

/-- **A fixed text is readable.** -/
theorem Touched.readable (h : Touched us vs) (hus : Readable us) : Readable vs := by
  induction h with
  | nil => trivial
  | @same u us vs h ih =>
    obtain ⟨hmark, hfits, hrest⟩ := hus
    refine ⟨hmark, ?_, ih hrest⟩
    by_cases hu : u = .escaped '\\'
    · subst hu
      exact ⟨hfits.1, hfits.2.1, fun hc w hw hpre =>
        hfits.2.2 hc w hw (h.reserved_prefix (isReservedEnd_of_mem hw) hpre)⟩
    · exact hfits.congr hu (Or.inl h.head?_spell_eq)
  | @insert u v name us vs hu hv h ih =>
    obtain ⟨hmark, hfits, hrest⟩ := hus
    have hspace : hasMark v.text = false ∧ v.Fits (spell vs) := by
      rcases hv with rfl | rfl
      · exact ⟨rfl, by decide, by decide⟩
      · exact ⟨rfl, by decide, by decide, fun hc => absurd hc (by decide)⟩
    exact ⟨hmark, hu.fits_space hv hfits, hspace.1, hspace.2, ih hrest⟩
  | @braces x y us vs hx hy h ih =>
    have hopen : Readable (.char '{' :: (x ++ [y]) ++ .char '}' :: us) := by simpa using hus.2.2
    have hclose : y.Closes := by
      rcases hy with rfl | rfl
      · exact Or.inl rfl
      · exact Or.inr (Or.inl rfl)
    have hlast : (.char '{' :: (x ++ [y])).getLast? = some y := by
      rw [← List.cons_append, List.getLast?_concat]
    simpa using hopen.replace_right (ih hopen.of_append_right.2.2) hlast hclose

/-! ## Aligned blocks -/

theorem walk_cons_head {p : Place} (u : Sign) (t t' : List Sign) (bs : List Block) :
    walk p (⟨u, t⟩ :: bs) = walk p (⟨u, t'⟩ :: bs) := by
  rw [walk, walk]
  cases p <;> rfl

/-- Before a sign that is no brace nothing is taken along. -/
theorem Sign.split_of_head (hu : ∀ opening name, u ≠ .env opening name) (hus : us.head? ≠ some (.char '{')) :
    u.split us = ([], us) := by
  have hgroup : group? us = none := by rw [group?_eq, if_neg hus]
  cases u with
  | char | escaped | slash => rfl
  | word name => exact groupsOf_of_none hgroup
  | env opening name => exact absurd rfl (hu opening name)

theorem Sign.ne_env_of_not_isStructural (hu : u.isStructural = false) :
    ∀ opening name, u ≠ .env opening name := by
  rintro opening name rfl
  cases hu

/-- Signs without braces before something else than a group are blocks of their own. -/
theorem blocksOf_append (hx : ∀ c ∈ spell x, isBrace c = false) (hus : us.head? ≠ some (.char '{')) :
    blocksOf (x ++ us) = x.map single ++ blocksOf us := by
  have hflat := not_isStructural_of_mem hx
  clear hx
  induction x with
  | nil => rfl
  | cons u x ih =>
    rw [List.forall_mem_cons] at hflat
    have hhead : (x ++ us).head? ≠ some (.char '{') := by
      cases x with
      | nil => exact hus
      | cons v x =>
        intro hv
        have hv : v = .char '{' := by simpa using hv
        have := hflat.2 v List.mem_cons_self
        rw [hv] at this
        cases this
    rw [List.cons_append, blocksOf_cons,
      Sign.split_of_head (Sign.ne_env_of_not_isStructural hflat.1) hhead, ih hflat.2]
    rfl

theorem next_solid_of_isGap_eq_false {b : Block} (hb : b.isGap = false) : Place.solid.next b = some .solid := by
  rw [isGap, Bool.or_eq_false_iff] at hb
  have hspace : b.head ≠ .char ' ' := fun h => by
    rw [isBlank_of_head h] at hb
    cases hb.2
  simp [Place.next, hb.1, hb.2, hspace]

theorem eq_solid_of_next {p q : Place} {b : Block} (hb : b.isGap = false) (h : p.next b = some q) : q = .solid := by
  have hgap := hb
  rw [isGap, Bool.or_eq_false_iff] at hb
  have hspace : b.head ≠ .char ' ' := fun h => by
    rw [isBlank_of_head h] at hb
    cases hb.2
  cases p with
  | start => simpa [Place.next, hgap] using h.symm
  | solid | spaced | blank => simpa [Place.next, hb.1, hb.2, hspace] using h.symm
  | broken => simp [Place.next, hspace] at h
  | tabbed =>
    rw [Place.next] at h
    split at h
    · simpa using h.symm
    · cases h

theorem Sign.Tight.isGap_eq_false (hu : u.Tight) (t : List Sign) : Block.isGap ⟨u, t⟩ = false := by
  obtain ⟨c, hc, htight⟩ := hu
  cases u with
  | char d =>
    obtain rfl : d = c := by simpa [text] using hc
    rw [spacesItself] at htight
    simp only [Bool.or_eq_false_iff] at htight
    exact htight.1.1.1.1.1.1
  | escaped d =>
    obtain rfl : d = c := by simpa [text] using hc
    have hne : d ≠ '\\' := by
      rintro rfl
      cases htight
    simp [Block.isGap, Block.isBreak, Block.isBlank, hne]
  | slash | word | env => rfl

/-- A space changes nothing for the word behind it. -/
theorem walk_insert {name : List Char} {p q : Place} (hu : u.Tight) (hv : v.IsSpace)
    (hus : us.head? = some (.word name)) (hvs : vs.head? = some (.word name)) (hw : walk p (blocksOf (u :: us)) = some q) :
    walk .solid (blocksOf us) = some q ∧
      (walk .solid (blocksOf vs) = some q → walk p (blocksOf (u :: v :: vs)) = some q) := by
  have hne := Sign.ne_env_of_not_isStructural hu.not_isStructural
  have hnv : v ≠ .char '{' := by rcases hv with rfl | rfl <;> decide
  rw [blocksOf_cons, Sign.split_of_head hne (by simp [hus]), walk, Option.bind_eq_some_iff] at hw
  obtain ⟨p', hp', hw⟩ := hw
  obtain rfl := eq_solid_of_next (hu.isGap_eq_false []) hp'
  refine ⟨hw, fun hw' => ?_⟩
  rw [blocksOf_cons, Sign.split_of_head hne (by simpa using hnv), walk, hp', Option.bind_some,
    blocksOf_cons, Sign.split_of_head (Sign.ne_env_of_not_isStructural hv.not_isStructural) (by simp [hvs])]
  obtain ⟨vs', rfl⟩ := List.head?_eq_some_iff.1 hvs
  rw [blocksOf_cons] at hw' ⊢
  rcases hv with rfl | rfl <;> exact hw'

/-- Braces are solid, so one pair of them is as good as two. -/
theorem walk_braces {p q : Place} (hx : ∀ c ∈ spell x, isBrace c = false)
    (hy : y = .char '}' ∨ y = .escaped '}')
    (hw : walk p (blocksOf (.char '{' :: .char '{' :: (x ++ y :: .char '}' :: us))) = some q) :
    walk .solid (blocksOf us) = some q ∧
      (walk .solid (blocksOf vs) = some q → walk p (blocksOf (.char '{' :: (x ++ y :: vs))) = some q) := by
  have hopen : ∀ us : List Sign, blocksOf (.char '{' :: us) = single (.char '{') :: blocksOf us := fun us =>
    blocksOf_cons _ us
  have hbrace : ∀ us : List Sign, blocksOf (y :: us) = single y :: blocksOf us := by
    rcases hy with rfl | rfl <;> exact fun us => blocksOf_cons _ us
  have hclose : blocksOf (.char '}' :: us) = single (.char '}') :: blocksOf us := blocksOf_cons _ us
  have hne : y ≠ .char '{' := by rcases hy with rfl | rfl <;> decide
  have hgap : (single y).isGap = false := by rcases hy with rfl | rfl <;> rfl
  rw [hopen, hopen, blocksOf_append hx (by simpa using hne), hbrace, hclose, walk,
    Option.bind_eq_some_iff] at hw
  obtain ⟨first, hfirst, hw⟩ := hw
  obtain rfl := eq_solid_of_next rfl hfirst
  rw [walk, next_solid_of_isGap_eq_false rfl, Option.bind_some, walk_append, Option.bind_eq_some_iff] at hw
  obtain ⟨inner, hinner, hw⟩ := hw
  rw [walk, Option.bind_eq_some_iff] at hw
  obtain ⟨last, hlast, hw⟩ := hw
  obtain rfl := eq_solid_of_next hgap hlast
  rw [walk, next_solid_of_isGap_eq_false rfl, Option.bind_some] at hw
  refine ⟨hw, fun hw' => ?_⟩
  rw [hopen, blocksOf_append hx (by simpa using hne), hbrace, walk, hfirst, Option.bind_some, walk_append,
    hinner, Option.bind_some, walk, hlast, Option.bind_some]
  exact hw'

/-- A fix does not change where a walk ends. -/
theorem Touched.walk_eq (h : Touched us vs) {p q : Place} (hw : walk p (blocksOf us) = some q) :
    walk p (blocksOf vs) = some q := by
  induction hlen : us.length using Nat.strongRecOn generalizing us vs p with
  | ind len ih =>
    cases h with
    | nil => exact hw
    | @same u us vs h =>
      have hlt : (u.split us).2.length < len := by
        have := congrArg List.length (u.split_append us)
        simp only [List.length_append, List.length_cons] at *
        omega
      rw [blocksOf_cons, walk, Option.bind_eq_some_iff] at hw
      obtain ⟨p', hp', hw⟩ := hw
      rw [blocksOf_cons, walk_cons_head u _ (u.split us).1, walk, hp', Option.bind_some]
      exact ih _ hlt (h.split u).2 hw rfl
    | @insert u v name us vs hu hv h =>
      obtain ⟨hrest, hback⟩ := walk_insert hu hv rfl h.head?_eq hw
      exact hback (ih _ (by rw [← hlen]; simp) h hrest rfl)
    | @braces x y us vs hx hy h =>
      obtain ⟨hrest, hback⟩ := walk_braces hx hy hw
      exact hback (ih us.length (by rw [← hlen]; simp; omega) h hrest rfl)

/-- **Aligned blocks stay aligned.** -/
theorem Touched.aligned (h : Touched us vs) (hus : Aligned (blocksOf us)) : Aligned (blocksOf vs) := by
  rcases hus with hnil | hwalk
  · cases h with
    | nil => exact Or.inl hnil
    | same | insert | braces =>
      rw [blocksOf_cons] at hnil
      cases hnil
  · exact Or.inr (h.walk_eq hwalk)

end MathMarkup.Tex
