import MathMarkup.Proofs.Normal.Alignment

/-!
# Changing the gaps between rows

The line normalizer drops blanks and line breaks between blocks and writes separators instead. What a
sign takes along does not change by that (`Sign.split_congr`): an end that was found is still there, and
one that was not found does not come up, since gaps hold no braces and no words.

Main theorem `blocksOf_realign`: the realigned blocks are the blocks of their signs, which spell a
readable text.
-/

namespace MathMarkup.Tex

open Text Sign Block

variable {us vs g r : List Sign} {u : Sign} {bs x y : List Block} {b : Block} {s t : List Char} {colors : Bool}

/-! ## What a sign takes along -/

/-- Does the sign open or close a pair? -/
def Sign.isStructural : Sign → Bool
  | char c => c == '{' || c == '}'
  | env _ _ => true
  | _ => false

/-- The signs that tell where pairs end. -/
def skeleton (us : List Sign) : List Sign := us.filter Sign.isStructural

@[simp] theorem skeleton_append (us vs : List Sign) : skeleton (us ++ vs) = skeleton us ++ skeleton vs :=
  List.filter_append us vs

theorem closing?_eq_none_congr {opens closes : Sign} {depth : Nat} (ho : opens.isStructural = true)
    (hc : closes.isStructural = true) (h : skeleton us = skeleton vs)
    (hnone : closing? opens closes depth us = none) : closing? opens closes depth vs = none := by
  rw [← Option.isNone_iff_eq_none, ← Option.isSome_eq_false_iff, ← isSome_closing?_filter ho hc] at hnone ⊢
  rw [← skeleton, ← h]
  exact hnone

theorem group?_eq_none_congr (h : skeleton us = skeleton vs)
    (hhead : vs.head? = some (.char '{') → us.head? = some (.char '{')) (hnone : group? us = none) :
    group? vs = none := by
  unfold group?
  split
  · rename_i vs'
    obtain ⟨us', rfl⟩ := List.head?_eq_some_iff.1 (hhead rfl)
    exact closing?_eq_none_congr rfl rfl h hnone
  · rfl

theorem group?_groupsOf (us : List Sign) : group? (groupsOf us).2 = none := by
  fun_induction groupsOf us with
  | case1 us h => exact h
  | case2 us g r h ih => exact ih

theorem group?_append (h : group? us = some (g, r)) (vs : List Sign) : group? (g ++ vs) = some (g, vs) := by
  obtain ⟨hus, hne⟩ := append_of_group? h
  unfold group? at h
  split at h
  · obtain ⟨v, g, rfl⟩ := List.exists_cons_of_ne_nil hne
    rw [List.cons_append, List.cons.injEq] at hus
    rw [← hus.1] at h ⊢
    exact closing?_append h vs
  · cases h

/-- Before signs that start with no group the groups are the same. -/
theorem groupsOf_replace (hnone : group? vs = none) :
    groupsOf ((groupsOf us).1 ++ vs) = ((groupsOf us).1, vs) := by
  fun_induction groupsOf us with
  | case1 us h => exact groupsOf_of_none hnone
  | case2 us g r h ih =>
    simp only [List.append_assoc]
    rw [groupsOf_of_some (group?_append h _), ih]

/-- **What a sign takes along** is the same when the signs behind it keep their structure. -/
theorem Sign.split_congr {tail : List Sign} (hsplit : u.split (tail ++ us) = (tail, us))
    (h : skeleton us = skeleton vs) (hhead : vs.head? = some (.char '{') → us.head? = some (.char '{')) :
    u.split (tail ++ vs) = (tail, vs) := by
  -- before signs of the same structure the groups are the same
  have hgroups : ∀ body, (groupsOf (tail ++ us)).1 ++ body = tail → (groupsOf (tail ++ us)).2 = body ++ us →
      groupsOf (tail ++ vs) = ((groupsOf (tail ++ us)).1, body ++ vs) := by
    intro body htail hrest
    have hnone := group?_groupsOf (tail ++ us)
    rw [hrest] at hnone
    have hnone' : group? (body ++ vs) = none := by
      refine group?_eq_none_congr (by simp [h]) (fun hb => ?_) hnone
      cases body with
      | nil => exact hhead hb
      | cons v body => exact hb
    have hreplace : groupsOf ((groupsOf (tail ++ us)).1 ++ (body ++ vs)) = ((groupsOf (tail ++ us)).1, body ++ vs) :=
      groupsOf_replace hnone'
    rwa [← List.append_assoc, htail] at hreplace
  cases u with
  | char | escaped | slash =>
    simp only [Sign.split, Prod.mk.injEq] at hsplit ⊢
    obtain ⟨rfl, -⟩ := hsplit
    exact ⟨rfl, rfl⟩
  | word name =>
    rw [Sign.split] at hsplit ⊢
    have := hgroups [] (by simp [hsplit]) (by simp [hsplit])
    rw [this, hsplit]
    rfl
  | env opening name =>
    cases opening with
    | false =>
      rw [Sign.split] at hsplit ⊢
      have := hgroups [] (by simp [hsplit]) (by simp [hsplit])
      rw [this, hsplit]
      rfl
    | true =>
      rw [Sign.split] at hsplit ⊢
      split at hsplit
      · rename_i body rest hclose
        rw [Prod.mk.injEq] at hsplit
        obtain ⟨htail, rfl⟩ := hsplit
        rw [hgroups body htail (append_of_closing? hclose)]
        simp only [closing?_append hclose, htail]
      · rename_i hclose
        have hrest : (groupsOf (tail ++ us)).2 = us := by rw [hsplit]
        rw [hgroups [] (by simp [hsplit]) hrest]
        rw [hrest] at hclose
        simp only [List.nil_append, closing?_eq_none_congr rfl rfl h hclose, hsplit]

/-! ## Gaps -/

/-- What stands between two rows afterwards: a separator, and the anchor of a row that had none. -/
def IsFiller (f : List Block) : Prop :=
  f = rowSeparator ∨ f = rowSeparator ++ [single (.char '&'), single (.char ' ')]

/-- Gaps give way to separators, and all other blocks stay. -/
inductive Regapped : List Block → List Block → Prop
  | stop {g : List Block} (hg : ∀ b ∈ g, b.isGap = true) : Regapped g []
  | keep {b : Block} {x y : List Block} (hb : b.isBreak = false) (h : Regapped x y) : Regapped (b :: x) (b :: y)
  | gap {g f x y : List Block} (hne : g ≠ []) (hg : ∀ b ∈ g, b.isGap = true) (hf : IsFiller f)
      (h : Regapped x y) : Regapped (g ++ x) (f ++ y)

theorem Regapped.append_left {r : List Block} (hr : ∀ b ∈ r, b.isBreak = false) (h : Regapped x y) :
    Regapped (r ++ x) (r ++ y) := by
  induction r with
  | nil => exact h
  | cons b r ih =>
    rw [List.forall_mem_cons] at hr
    exact .keep hr.1 (ih hr.2)

theorem IsFiller.ne_nil {f : List Block} (hf : IsFiller f) : f ≠ [] := by
  rcases hf with rfl | rfl <;> simp [rowSeparator]

theorem Regapped.isGap_of_nil (h : Regapped x []) : ∀ b ∈ x, b.isGap = true := by
  generalize hy : ([] : List Block) = y at h
  cases h with
  | stop hg => exact hg
  | keep => cases hy
  | gap _ _ hf => exact absurd (List.append_eq_nil_iff.1 hy.symm).1 hf.ne_nil

theorem isGap_of_isBlank (h : b.isBlank = true) : b.isGap = true := by simp [isGap, h]

theorem trimBlocks_append (bs : List Block) : ∃ a c, bs = a ++ trimBlocks bs ++ c ∧
    (∀ b ∈ a, b.isGap = true) ∧ ∀ b ∈ c, b.isGap = true := by
  obtain ⟨blanks, hbs, hblanks⟩ := trimBlocksEnd_append (bs.dropWhile Block.isBlank)
  refine ⟨bs.takeWhile Block.isBlank, blanks, ?_, fun b hb => ?_, fun b hb => isGap_of_isBlank (hblanks b hb)⟩
  · rw [List.append_assoc, trimBlocks, ← hbs, List.takeWhile_append_dropWhile]
  · exact isGap_of_isBlank (List.mem_takeWhile_imp hb)

theorem anchoredBlocks_eq (r : List Block) :
    anchoredBlocks r = r ∨ anchoredBlocks r = [single (.char '&'), single (.char ' ')] ++ r := by
  unfold anchoredBlocks
  split
  · exact Or.inl rfl
  · exact Or.inr rfl

/-- A row in front of the others takes the gap behind it along. -/
theorem Regapped.cons_row {g r : List Block} {rs : List (List Block)} (hr : ∀ b ∈ r, b.isBreak = false)
    (hne : g ≠ []) (hg : ∀ b ∈ g, b.isGap = true) (h : Regapped x (joinBlocks (anchorBlocks rs))) :
    Regapped (r ++ (g ++ x)) (joinBlocks (anchorBlocks (r :: rs))) := by
  refine .append_left hr ?_
  cases rs with
  | nil =>
    refine .stop fun b hb => ?_
    rcases List.mem_append.1 hb with hb | hb
    · exact hg b hb
    · exact h.isGap_of_nil b hb
  | cons r' rs =>
    have hfiller : ∃ f, IsFiller f ∧ rowSeparator ++ anchoredBlocks r' = f ++ r' := by
      rcases anchoredBlocks_eq r' with h | h
      · exact ⟨_, Or.inl rfl, by rw [h]⟩
      · exact ⟨_, Or.inr rfl, by rw [h, List.append_assoc]⟩
    obtain ⟨f, hf, heq⟩ := hfiller
    rw [List.map_cons, List.flatMap_cons, heq, List.append_assoc]
    exact .gap hne hg hf h

/-- What the line normalizer changes is gaps, behind those at the start. -/
theorem regapped_realign (bs : List Block) :
    ∃ lead x, bs = lead ++ x ∧ (∀ b ∈ lead, b.isGap = true) ∧ Regapped x (realign bs) := by
  unfold realign rowsOf
  fun_induction blockRows bs with
  | case1 bs hnone =>
    obtain ⟨a, c, hbs, ha, hc⟩ := trimBlocks_append bs
    have hbreak : ∀ b ∈ trimBlocks bs, b.isBreak = false := fun b hb =>
      isBreak_of_breakBlocks?_eq_none hnone b (by rw [hbs]; simp [hb])
    rw [List.map_singleton]
    by_cases hr : trimBlocks bs = []
    · rw [hr, List.append_nil] at hbs
      rw [hr, List.filter_cons_of_neg (by simp)]
      exact ⟨a, c, hbs, ha, .stop hc⟩
    · rw [List.filter_cons_of_pos (by simpa using hr)]
      refine ⟨a, trimBlocks bs ++ c, by rw [← List.append_assoc, ← hbs], ha, ?_⟩
      exact Regapped.append_left (y := []) hbreak (.stop hc)
  | case2 bs row rest hsome ih =>
    obtain ⟨b, hb, rfl, hall⟩ := eq_of_breakBlocks? hsome
    obtain ⟨a, c, hrow, ha, hc⟩ := trimBlocks_append row
    obtain ⟨lead, x, hx, hlead, hregapped⟩ := ih
    have hbreak : ∀ b ∈ trimBlocks row, b.isBreak = false := fun b hb => hall b (by rw [hrow]; simp [hb])
    have hrest : rest = rest.takeWhile Block.isGap ++ (lead ++ x) := by
      rw [← hx, List.takeWhile_append_dropWhile]
    -- the gap behind the row
    have hgap : ∀ d ∈ c ++ b :: (rest.takeWhile Block.isGap ++ lead), d.isGap = true := by
      intro d hd
      simp only [List.mem_append, List.mem_cons] at hd
      rcases hd with hd | rfl | hd | hd
      · exact hc d hd
      · simp [isGap, hb]
      · exact List.mem_takeWhile_imp hd
      · exact hlead d hd
    have hbs : row ++ b :: rest =
        a ++ (trimBlocks row ++ ((c ++ b :: (rest.takeWhile Block.isGap ++ lead)) ++ x)) := by
      conv => lhs; rw [hrow, hrest]
      simp
    rw [List.map_cons]
    by_cases hr : trimBlocks row = []
    · rw [hr, List.filter_cons_of_neg (by simp)]
      refine ⟨a ++ (c ++ b :: (rest.takeWhile Block.isGap ++ lead)), x, ?_, fun d hd => ?_, hregapped⟩
      · rw [hbs, hr]
        simp
      · rcases List.mem_append.1 hd with hd | hd
        · exact ha d hd
        · exact hgap d hd
    · rw [List.filter_cons_of_pos (by simpa using hr)]
      exact ⟨a, _, hbs, ha, Regapped.cons_row hbreak (by simp) hgap hregapped⟩

/-! ## What stays the same -/

theorem eq_single_of_isGap (hb : b.isGap = true) (htail : b.head.isWord = false → b.tail = []) :
    ∃ u : Sign, b = single u ∧ u.isWord = false ∧ u.isStructural = false := by
  obtain ⟨u, tail⟩ := b
  have hword : u.isWord = false := by
    cases u with
    | char | escaped | slash => rfl
    | word | env => cases hb
  refine ⟨u, by rw [show tail = [] from htail hword]; rfl, hword, ?_⟩
  cases u with
  | char c =>
    have hblank : Text.isBlank c = true := hb
    obtain ⟨-, hopen, hclose⟩ := isPlain_of_isBlank hblank
    simp [isStructural, hopen, hclose]
  | escaped | slash => rfl
  | word | env => cases hb

theorem gap_signs (hlaid : Laid bs) (hg : ∀ b ∈ bs, b.isGap = true) :
    skeleton (signsOf bs) = [] ∧ spansOf bs = [] := by
  induction bs with
  | nil => exact ⟨rfl, rfl⟩
  | cons b bs ih =>
    rw [List.forall_mem_cons] at hg
    obtain ⟨hskeleton, hspans⟩ := ih hlaid.of_cons hg.2
    obtain ⟨u, rfl, hword, hstructural⟩ := eq_single_of_isGap hg.1 (hlaid.tail_eq_nil b List.mem_cons_self)
    constructor
    · rw [signsOf_cons, skeleton_append, hskeleton, List.append_nil]
      simp [skeleton, Block.signs, single, hstructural]
    · rw [spansOf, if_neg (by simp [single, hword]), hspans]

theorem IsFiller.signs {f : List Block} (hf : IsFiller f) : skeleton (signsOf f) = [] ∧ spansOf f = [] := by
  rcases hf with rfl | rfl <;> exact ⟨rfl, rfl⟩

theorem Regapped.skeleton_eq (h : Regapped x y) (hlaid : Laid x) : skeleton (signsOf x) = skeleton (signsOf y) := by
  induction h with
  | stop hg => exact (gap_signs hlaid hg).1
  | keep hb h ih => simp only [signsOf_cons, skeleton_append, ih hlaid.of_cons]
  | gap hne hg hf h ih =>
    simp only [signsOf_append, skeleton_append, (gap_signs hlaid.of_append_left hg).1, hf.signs.1,
      ih hlaid.of_append_right]

theorem Regapped.spansOf_eq (h : Regapped x y) (hlaid : Laid x) : spansOf x = spansOf y := by
  induction h with
  | stop hg => exact (gap_signs hlaid hg).2
  | keep hb h ih => rw [spansOf, spansOf, ih hlaid.of_cons]
  | gap hne hg hf h ih =>
    simp only [spansOf_append, (gap_signs hlaid.of_append_left hg).2, hf.signs.2, ih hlaid.of_append_right]

/-- The first sign is the same, or a space. -/
theorem Regapped.head? (h : Regapped x y) :
    signsOf y = [] ∨ (signsOf y).head? = some (.char ' ') ∨ (signsOf y).head? = (signsOf x).head? := by
  cases h with
  | stop hg => exact Or.inl rfl
  | keep hb h => exact Or.inr (Or.inr rfl)
  | gap hne hg hf h =>
    rcases hf with rfl | rfl <;> exact Or.inr (Or.inl rfl)

theorem Regapped.head?_text (h : Regapped x y) : (spell (signsOf y)).head? = (spell (signsOf x)).head? ∨
    ∀ c ∈ (spell (signsOf y)).head?, c = ' ' := by
  rw [head?_spell, head?_spell]
  rcases h.head? with hnil | hspace | hsame
  · rw [hnil]
    exact Or.inr (by simp)
  · rw [hspace]
    refine Or.inr fun c hc => ?_
    simpa [text] using hc.symm
  · rw [hsame]
    exact Or.inl rfl

/-! ## The signs afterwards -/

theorem Steady.of_append_right (h : Steady (x ++ y)) : Steady y := by
  induction x with
  | nil => exact h
  | cons b x ih => exact ih h.2

theorem steady_single (hu : u.isWord = false) (h : Steady bs) : Steady (single u :: bs) :=
  ⟨u.split_of_isWord_eq_false hu _, h⟩

theorem Regapped.steady (h : Regapped x y) (hlaid : Laid x) (hx : Steady x) : Steady y := by
  induction h with
  | stop => trivial
  | keep hb h ih =>
    refine ⟨Sign.split_congr hx.1 (h.skeleton_eq hlaid.of_cons) (fun hbrace => ?_), ih hlaid.of_cons hx.2⟩
    rcases h.head? with hnil | hspace | hsame
    · rw [hnil] at hbrace
      cases hbrace
    · rw [hspace] at hbrace
      cases hbrace
    · rwa [← hsame]
  | @gap g f x y hne hg hf h ih =>
    have hy := ih hlaid.of_append_right hx.of_append_right
    rcases hf with rfl | rfl
    · exact steady_single rfl (steady_single rfl (steady_single rfl hy))
    · exact steady_single rfl (steady_single rfl (steady_single rfl
        (steady_single rfl (steady_single rfl hy))))

/-- But for line breaks, it is the next character that decides how a sign is read. -/
theorem Sign.FitsWith.congr (hu : u ≠ .escaped '\\') (h : u.FitsWith colors s)
    (ht : t.head? = s.head? ∨ ∀ c ∈ t.head?, c = ' ') : u.FitsWith colors t := by
  cases u with
  | char | env => exact h
  | escaped c => exact ⟨h.1, h.2.1, fun hc => absurd (congrArg Sign.escaped hc) hu⟩
  | slash =>
    intro c hc
    rcases ht with ht | ht
    · exact h c (ht ▸ hc)
    · rw [ht c hc]
      rfl
  | word name =>
    refine ⟨h.1, h.2.1, fun c hc => ?_, fun hw hbrace => ?_⟩
    · rcases ht with ht | ht
      · exact h.2.2.1 c (ht ▸ hc)
      · rw [ht c hc]
        decide
    · rcases ht with ht | ht
      · exact h.2.2.2 hw (ht ▸ hbrace)
      · exact absurd (ht _ hbrace) (by decide)

/-- A sign that ends what another one takes along. -/
def Sign.Closes (u : Sign) : Prop := u = .char '}' ∨ u = .escaped '}' ∨ ∃ name, u = .env false name

theorem Sign.Closes.fits_congr (hu : u.Closes) (h : u.FitsWith colors s) (t : List Char) : u.FitsWith colors t := by
  rcases hu with rfl | rfl | ⟨name, rfl⟩
  · exact h
  · exact ⟨h.1, h.2.1, fun hc => absurd hc (by decide)⟩
  · exact h

theorem Sign.Closes.mem_text (hu : u.Closes) : '}' ∈ u.text := by
  rcases hu with rfl | rfl | ⟨name, rfl⟩ <;> simp [text, endOf]

theorem groupsOf_getLast (us : List Sign) : (groupsOf us).1 = [] ∨ (groupsOf us).1.getLast? = some (.char '}') := by
  fun_induction groupsOf us with
  | case1 => exact Or.inl rfl
  | case2 us g r h ih =>
    refine Or.inr ?_
    have hg : g.getLast? = some (.char '}') := by
      unfold group? at h
      split at h
      · exact getLast?_of_closing? h
      · cases h
    rcases ih with hnil | hlast
    · rw [hnil, List.append_nil, hg]
    · rw [List.getLast?_append, hlast, Option.some_or]

theorem Sign.split_getLast (u : Sign) (us : List Sign) :
    (u.split us).1 = [] ∨ ∃ v, (u.split us).1.getLast? = some v ∧ v.Closes := by
  have hgroups : (groupsOf us).1 = [] ∨ ∃ v, (groupsOf us).1.getLast? = some v ∧ v.Closes := by
    rcases groupsOf_getLast us with hnil | hlast
    · exact Or.inl hnil
    · exact Or.inr ⟨_, hlast, Or.inl rfl⟩
  cases u with
  | char | escaped | slash => exact Or.inl rfl
  | word name => exact hgroups
  | env opening name =>
    cases opening with
    | false => exact hgroups
    | true =>
      rw [Sign.split]
      split
      · rename_i body rest hclose
        refine Or.inr ⟨.env false name, ?_, Or.inr (Or.inr ⟨name, rfl⟩)⟩
        rw [List.getLast?_append, getLast?_of_closing? hclose, Option.some_or]
      · exact hgroups

/-- Behind a closing sign anything may come. -/
theorem ReadableWith.replace_right {v : Sign} (h : ReadableWith colors (g ++ us)) (hvs : ReadableWith colors vs)
    (hlast : g.getLast? = some v) (hv : v.Closes) : ReadableWith colors (g ++ vs) := by
  induction g with
  | nil => cases hlast
  | cons u g ih =>
    rw [List.cons_append] at h ⊢
    cases g with
    | nil =>
      obtain rfl : u = v := by simpa using hlast
      exact ⟨h.1, hv.fits_congr h.2.1 _, hvs⟩
    | cons u' g =>
      rw [List.getLast?_cons_cons] at hlast
      refine ⟨h.1, ?_, ih h.2.2 hlast⟩
      have hfits := h.2.1
      rw [spell_append] at hfits ⊢
      have hne : spell (u' :: g) ≠ [] := fun hnil => List.cons_ne_nil u' g (spell_eq_nil.1 hnil)
      by_cases hu : u = .escaped '\\'
      · subst hu
        refine ⟨hfits.1, hfits.2.1, fun hc w hw hpre => hfits.2.2 hc w hw ?_⟩
        have hbrace : '}' ∈ spell (u' :: g) := by
          rw [spell, List.mem_flatMap]
          exact ⟨v, List.mem_of_getLast? hlast, hv.mem_text⟩
        have hword : '}' ∉ w := by
          have hw := mem_reserved_of_mem hw
          simp only [reserved, List.mem_cons, List.not_mem_nil, or_false] at hw
          rcases hw with rfl | rfl | rfl <;> decide
        exact (prefix_of_prefix_append hword hbrace hpre).trans (List.prefix_append _ _)
      · refine hfits.congr hu (Or.inl ?_)
        rw [List.head?_append_of_ne_nil _ hne, List.head?_append_of_ne_nil _ hne]

theorem IsFiller.readable {f : List Block} (hf : IsFiller f) (h : Readable us) : Readable (signsOf f ++ us) := by
  have hspace : ∀ us, Readable us → Readable (.char ' ' :: us) := fun us h => ⟨rfl, ⟨by decide, by decide⟩, h⟩
  have hanchor : ∀ us, Readable us → Readable (.char '&' :: us) := fun us h => ⟨rfl, ⟨by decide, by decide⟩, h⟩
  have hbreak : ∀ us, Readable us → Readable (.escaped '\\' :: .char ' ' :: us) := by
    refine fun us h => ⟨rfl, ⟨by decide, by decide, fun _ w hw hpre => ?_⟩, hspace us h⟩
    obtain ⟨t, ht⟩ := hpre
    have hw := mem_reserved_of_mem hw
    simp only [reserved, List.mem_cons, List.not_mem_nil, or_false] at hw
    rcases hw with rfl | rfl | rfl <;> simp [text] at ht
  rcases hf with rfl | rfl
  · exact hspace _ (hbreak _ h)
  · exact hspace _ (hbreak _ (hanchor _ (hspace _ h)))

theorem Regapped.readable (h : Regapped x y) (hlaid : Laid x) (hx : Steady x) : Readable (signsOf y) := by
  induction h with
  | stop => trivial
  | @keep b x y hb h ih =>
    have hy := ih hlaid.of_cons hx.2
    have hsigns := hlaid.readable
    rw [signsOf_cons, Block.signs, List.cons_append] at hsigns ⊢
    have hhead : b.head ≠ .escaped '\\' := by
      intro hhead
      rw [isBreak, hhead] at hb
      cases hb
    have hlast := b.head.split_getLast (b.tail ++ signsOf x)
    rw [hx.1] at hlast
    rcases hlast with hnil | ⟨v, hv, hcloses⟩
    · simp only at hnil
      rw [hnil, List.nil_append] at hsigns ⊢
      exact ⟨hsigns.1, hsigns.2.1.congr hhead h.head?_text, hy⟩
    · refine ⟨hsigns.1, hsigns.2.1.congr hhead (Or.inl ?_), hsigns.2.2.replace_right hy hv hcloses⟩
      have hne : spell b.tail ≠ [] := by
        rw [Ne, spell_eq_nil]
        intro hnil
        rw [hnil] at hv
        cases hv
      rw [spell_append, spell_append, List.head?_append_of_ne_nil _ hne, List.head?_append_of_ne_nil _ hne]
  | @gap g f x y hne hg hf h ih =>
    rw [signsOf_append]
    exact hf.readable (ih hlaid.of_append_right hx.of_append_right)

/-- **The realigned blocks** are the blocks of their signs, which spell a readable text, and hold the same
spans. -/
theorem blocksOf_realign (h : Readable us) :
    blocksOf (signsOf (realign (blocksOf us))) = realign (blocksOf us) ∧
      Readable (signsOf (realign (blocksOf us))) ∧ spansOf (realign (blocksOf us)) = spansOf (blocksOf us) := by
  have hlaid := laid_blocksOf h
  have hsteady := steady_blocksOf us
  obtain ⟨lead, x, hx, hlead, hregapped⟩ := regapped_realign (blocksOf us)
  have hspans : spansOf (blocksOf us) = spansOf x := by
    rw [hx] at hlaid ⊢
    rw [spansOf_append, (gap_signs hlaid.of_append_left hlead).2, List.nil_append]
  rw [hx] at hlaid hsteady
  have hlaid := hlaid.of_append_right
  have hsteady := hsteady.of_append_right
  refine ⟨blocksOf_signsOf (hregapped.steady hlaid hsteady), hregapped.readable hlaid hsteady, ?_⟩
  rw [hspans, hregapped.spansOf_eq hlaid]

end MathMarkup.Tex
