import MathMarkup.Proofs.Conversion.Arguments

/-!
# Signs that supply every command

In `WellSupplied` signs every command finds as many arguments behind it as it is converted with, and so does every
script. That is handed down to all that is converted in turn: to nested parts that end where nothing is taken
(`SuppliedWith.of_part`), so to arguments and to what stands behind them (`SuppliedWith.of_takes?`), and to the
cells of a table whose separators stand in no group (`SuppliedWith.cells`).
-/

namespace MathMarkup.Tex

open Sign Text Block

variable {us vs a r x y q body : List Sign} {u : Sign} {s name : List Char} {Q R : List Sign → Prop}
  {bs : List Block}

/-- The separators between the blocks stand in no group. -/
def Cuts (bs : List Block) : Prop := ∀ x b y, bs = x ++ b :: y → b.isSeparator = true → Nested (signsOf x)

theorem cuts_of_flats (h : ∀ u ∈ us, u.isFlat = true) : Cuts (blocksOf us) := by
  intro x b y hblocks _
  refine .of_flats fun u hu => h u ?_
  rw [← signsOf_blocksOf us, hblocks, signsOf_append]
  exact List.mem_append_left _ hu

/-- The body of an array without the description of its columns. -/
def withoutColumns (body : List Sign) : List Sign :=
  match group? (body.dropWhile Sign.isBlank) with
  | some (_, r) => r
  | none => body

/-- What the table of an environment is made of. -/
def tableSigns (name : List Char) (body : List Sign) : List Sign :=
  if name = "array".toList then withoutColumns body else body

/-- What the construct is made of stands at the start; an index satisfies `Q`. -/
def Build.Finds (Q : List Sign → Prop) (us : List Sign) : Build → Prop
  | .indexed _ _ => bracketed? (spell us) = none ∧ Supplies 1 us ∨
    ∃ index rest, HasIndex us index rest ∧ Q index ∧ Supplies 1 rest
  | b => Supplies b.arity us

/-- What the sign is converted with stands behind it. -/
def Sign.Finds (Q : List Sign → Prop) (us : List Sign) : Sign → Prop
  | char c => c = '^' ∨ c = '_' → argument? (spell us) = none ∨ Supplies 1 us
  | word name => String.ofList name ≠ "begin" ∧ String.ofList name ≠ "end" ∧
    ∀ b, build? (String.ofList name) = some b → b.Finds Q us
  | env true name => trim name = name ∧ ∀ body rest, us = body ++ env false name :: rest → Nested body →
    (fences? (String.ofList name)).isSome → Cuts (blocksOf (tableSigns name body))
  | _ => True

/-- Nested signs, each of which finds what it is converted with; the indices of roots satisfy `Q`. -/
structure SuppliedWith (Q : List Sign → Prop) (us : List Sign) : Prop where
  nested : Nested us
  finds : ∀ x u y, us = x ++ u :: y → u.Finds Q y

/-- Every command finds its arguments. A root in an index has no index: the first bracket ends the outer one. -/
def WellSupplied : List Sign → Prop := SuppliedWith (SuppliedWith fun _ => False)

/-! ## Parts -/

theorem Build.Finds.of_ends {b : Build} (h : b.Finds Q (y ++ q)) (hy : Nested (x ++ y)) (hq : Ends q) :
    b.Finds Q y := by
  cases b with
  | unary | binary | plain | styled => exact Supplies.of_ends h hy hq
  | indexed bare f =>
    rcases h with ⟨hbare, h⟩ | ⟨index, rest, hindex, hQ, h⟩
    · rw [spell_append] at hbare
      exact Or.inl ⟨bracketed?_of_append hbare, h.of_ends hy hq⟩
    · obtain ⟨r, hr, rfl, front, rfl, -⟩ := hindex.of_ends hy hq
      rw [← List.append_assoc] at hy
      exact Or.inr ⟨index, r, hr, hQ, h.of_ends hy hq⟩

/-- What a sign finds in a longer list it finds in front of an end. -/
theorem Sign.Finds.of_ends (h : u.Finds Q (y ++ q)) (hy : Nested (x ++ y)) (hq : Ends q) : u.Finds Q y := by
  cases u with
  | escaped | slash => trivial
  | char c =>
    intro hc
    rcases h hc with hnone | hsupplied
    · refine Or.inl (Option.not_isSome_iff_eq_none.1 fun hsome => ?_)
      have hmore := isSome_argument?_append hsome (spell q)
      rw [← spell_append, hnone] at hmore
      cases hmore
    · exact Or.inr (hsupplied.of_ends hy hq)
  | word name => exact ⟨h.1, h.2.1, fun b hb => (h.2.2 b hb).of_ends hy hq⟩
  | env opening name =>
    cases opening with
    | false => trivial
    | true =>
      refine ⟨h.1, fun body rest hbody => h.2 body (rest ++ q) ?_⟩
      rw [hbody]
      simp

namespace SuppliedWith

/-- A nested part that ends where nothing is taken. -/
theorem of_part (h : SuppliedWith Q (x ++ (a ++ q))) (ha : Nested a) (hq : Ends q) : SuppliedWith Q a where
  nested := ha
  finds := by
    rintro before u y rfl
    have hy : Nested ((before ++ [u]) ++ y) := by simpa using ha
    exact (h.finds (x ++ before) u (y ++ q) (by simp)).of_ends hy hq

theorem of_append_right (h : SuppliedWith Q (x ++ y)) (hy : Nested y) : SuppliedWith Q y :=
  of_part (q := []) (by simpa using h) hy .nil

theorem of_flat (h : SuppliedWith Q (u :: us)) (hu : u.isFlat = true) : SuppliedWith Q us :=
  h.of_append_right (x := [u]) (h.nested.of_flat hu)

theorem of_isArgument (h : SuppliedWith Q (u :: us)) (hu : u.isArgument = true) : SuppliedWith Q [u] where
  nested := .flat (isFlat_of_isArgument hu) .nil
  finds := by
    intro x v y hv
    obtain ⟨rfl, hnil⟩ : x = [] ∧ v :: y = [u] := by
      cases x with
      | nil => exact ⟨rfl, hv.symm⟩
      | cons w x => simp at hv
    obtain ⟨rfl, rfl⟩ := List.cons.inj hnil
    have hfinds := h.finds [] v us rfl
    cases v with
    | escaped | slash => trivial
    | env => cases hu
    | char c =>
      rintro (rfl | rfl) <;> simp [isArgument] at hu
    | word name =>
      refine ⟨hfinds.1, hfinds.2.1, fun b hb => ?_⟩
      simp [isArgument, hb] at hu

/-- What stands between two partners, and behind them. -/
theorem of_pair {v : Sign} (h : SuppliedWith Q (u :: (a ++ v :: r))) (hpair : u.partner? = some v) (ha : Nested a) :
    SuppliedWith Q a ∧ SuppliedWith Q r := by
  have hcloser : v.isCloser = true := by simp [isCloser, closer_of_partner? hpair]
  refine ⟨h.of_part (x := [u]) ha (.cut (Or.inr hcloser)), ?_⟩
  exact of_append_right (x := u :: (a ++ [v])) (by simpa using h) (h.nested.of_pair hpair ha)

/-- **An argument** and what stands behind it. -/
theorem of_takes? (h : SuppliedWith Q us) (ht : takes? us = some (a, r)) : SuppliedWith Q a ∧ SuppliedWith Q r := by
  have hnested := h.nested
  induction hnested using Nested.takes_induction with
  | nil => cases ht
  | blank u us _ _ hu ih =>
    rw [takes?_blank hu] at ht
    exact ih (h.of_flat (isFlat_of_isBlank hu)) ht
  | group b us _ hb hus =>
    rw [takes?_group hb] at ht
    cases ht
    exact h.of_pair rfl hb
  | single u us _ hu hus =>
    rw [takes?_single hu] at ht
    cases ht
    exact ⟨h.of_isArgument hu, h.of_flat (isFlat_of_isArgument hu)⟩
  | stop u us _ hblank hopen hargument =>
    rw [takes?_stop hblank hopen hargument] at ht
    cases ht

theorem mono (hQR : ∀ index, Q index → R index) (h : SuppliedWith Q us) : SuppliedWith R us where
  nested := h.nested
  finds x u y hus := by
    have hfinds := h.finds x u y hus
    cases u with
    | escaped | slash => trivial
    | char c => exact hfinds
    | env opening name => cases opening <;> exact hfinds
    | word name =>
      refine ⟨hfinds.1, hfinds.2.1, fun b hb => ?_⟩
      have hb := hfinds.2.2 b hb
      cases b with
      | unary | binary | plain | styled => exact hb
      | indexed bare f =>
        exact hb.imp_right fun ⟨index, rest, hindex, hQ, hrest⟩ => ⟨index, rest, hindex, hQR index hQ, hrest⟩

end SuppliedWith

theorem WellSupplied.of_index (h : SuppliedWith (fun _ => False) us) : WellSupplied us :=
  h.mono fun _ hfalse => hfalse.elim

/-! ## Cells -/

theorem cases_of_isSeparator (h : u.isSeparator = true) : u = .escaped '\\' ∨ u = .char '&' := by
  simpa [Sign.isSeparator] using h

theorem isFlat_of_isSeparator (h : u.isSeparator = true) : u.isFlat = true := by
  rcases cases_of_isSeparator h with rfl | rfl <;> rfl

/-- What holds of the blocks of a table. -/
structure TableSupplied (Q : List Sign → Prop) (bs : List Block) : Prop where
  laid : LaidWith false bs
  supplied : SuppliedWith Q (signsOf bs)
  cuts : Cuts bs

theorem TableSupplied.behind {bx bt : List Block} {b : Block} (h : TableSupplied Q (bx ++ b :: bt))
    (hx : Nested (signsOf bx)) (hb : b.head.isFlat = true) (hword : b.head.isWord = false) : TableSupplied Q bt := by
  have htail := h.laid.tail_eq_nil b (by simp) hword
  have hsigns : ∀ bs, signsOf (bx ++ b :: bs) = (signsOf bx ++ [b.head]) ++ signsOf bs := by
    intro bs
    simp [Block.signs, htail]
  have hfront : Nested (signsOf bx ++ [b.head]) := hx.append (.flat hb .nil)
  have hsupplied := h.supplied
  rw [hsigns] at hsupplied
  refine ⟨h.laid.of_append_right.of_cons, hsupplied.of_append_right (hsupplied.nested.of_append hfront), ?_⟩
  rintro x c y rfl hc
  have hcut := h.cuts (bx ++ b :: x) c y (by simp) hc
  rw [hsigns] at hcut
  exact hcut.of_append hfront

theorem TableSupplied.isCutKept : IsCutKept (TableSupplied Q) where
  front {x b y} hb h := by
    refine ⟨h.laid.of_append_left, ?_, ?_⟩
    · have hsupplied := h.supplied
      rw [signsOf_append, signsOf_cons, Block.signs, List.cons_append] at hsupplied
      exact hsupplied.of_part (x := []) (h.cuts x b y rfl hb) (.cut (Or.inl hb))
    · rintro z c w rfl hc
      exact h.cuts z c (w ++ b :: y) (by simp) hc
  back {x b y} hb h := by
    have hword : b.head.isWord = false := by
      rcases cases_of_isSeparator hb with hhead | hhead <;> rw [hhead] <;> rfl
    exact h.behind (h.cuts x b y rfl hb) (isFlat_of_isSeparator hb) hword
  start {b y} hb h := by
    obtain ⟨c, hc, rfl⟩ := Block.write_of_isBlank h.laid hb
    have hfront : Nested (signsOf []) := .nil
    exact h.behind hfront (isFlat_of_isBlank (u := char c) hc) rfl
  stop {x b} hb h := by
    obtain ⟨c, hc, rfl⟩ := Block.write_of_isBlank h.laid.of_append_right hb
    have hblank : (char c).isBlank = true := hc
    have hsupplied := h.supplied
    rw [signsOf_append] at hsupplied
    have hx := hsupplied.nested.of_append_flat (isFlat_of_isBlank hblank)
    refine ⟨h.laid.of_append_left, hsupplied.of_part (x := []) hx (.blank hblank), ?_⟩
    rintro z d w rfl hd
    exact h.cuts z d (w ++ [single (char c)]) (by simp) hd

/-- **The cells** of a table whose separators stand in no group. -/
theorem SuppliedWith.cells (h : SuppliedWith Q us) (hread : Legible us) (hcuts : Cuts (blocksOf us)) :
    ∀ row ∈ tableCells (spell us), ∀ cell ∈ row, ∃ vs, Legible vs ∧ SuppliedWith Q vs ∧ cell = spell vs := by
  have htable : TableSupplied Q (blocksOf us) := ⟨laid_blocksOf hread, by rwa [signsOf_blocksOf], hcuts⟩
  intro row hrow cell hcell
  rw [tableCells_spell hread] at hrow
  obtain ⟨blockRow, hblockRow, rfl⟩ := List.mem_map.1 hrow
  obtain ⟨blockCell, hblockCell, rfl⟩ := List.mem_map.1 hcell
  have hcell := TableSupplied.isCutKept.forall_cells htable blockRow hblockRow blockCell hblockCell
  exact ⟨_, hcell.laid.readable, hcell.supplied, rfl⟩

/-! ## Arrays -/

/-- The next group is the brace group behind blanks. -/
theorem nextGroup?_eq (s : List Char) : nextGroup? s = splitGroup? (trimStart s) := by
  rw [nextGroup?, splitArgument?]
  generalize trimStart s = t
  cases t with
  | nil => rfl
  | cons c t =>
    by_cases hc : c = '{'
    · subst hc
      rw [splitArgumentHere?, splitGroup?]
      cases closeGroups? 1 t <;> rfl
    · have hnone : splitGroup? (c :: t) = none := by
        unfold splitGroup?
        split
        · rename_i h
          exact absurd (List.cons.inj h).1 hc
        · rfl
      rw [hnone]
      split
      · rename_i blanks group rest h
        obtain ⟨⟨arg, rest'⟩, harg, heq⟩ := Option.map_eq_some_iff.1 h
        cases heq
        exact absurd (List.cons.inj (append_of_splitArgumentHere? harg).1).1 hc
      · rfl

theorem dropColumns_spell (h : Legible body) : dropColumns (spell body) = spell (withoutColumns body) := by
  have hread : Legible (body.dropWhile Sign.isBlank) :=
    ReadableWith.of_append_right (a := body.takeWhile Sign.isBlank) (by rwa [List.takeWhile_append_dropWhile])
  rw [dropColumns, nextGroup?_eq, trimStart_spell h, splitGroup?_spell hread, withoutColumns]
  cases group? (body.dropWhile Sign.isBlank) <;> rfl

/-- Without its columns the body is a nested end of itself. -/
theorem exists_withoutColumns (h : Nested body) : ∃ front, body = front ++ withoutColumns body ∧ Nested front := by
  rw [withoutColumns]
  have hblanks : Nested (body.takeWhile Sign.isBlank) :=
    Nested.of_blanks fun u hu => List.mem_takeWhile_imp hu
  have hsplit := List.takeWhile_append_dropWhile (p := Sign.isBlank) (l := body)
  split
  · rename_i g r hgroup
    rw [← hsplit] at h
    obtain ⟨hdrop, hg⟩ := (h.of_append hblanks).of_group? hgroup
    exact ⟨body.takeWhile Sign.isBlank ++ g, by rw [List.append_assoc, ← hdrop, hsplit], hblanks.append hg⟩
  · exact ⟨[], rfl, .nil⟩

theorem exists_tableSigns (name : List Char) (h : Nested body) :
    ∃ front, body = front ++ tableSigns name body ∧ Nested front := by
  rw [tableSigns]
  split
  · exact exists_withoutColumns h
  · exact ⟨[], rfl, .nil⟩

theorem spell_tableSigns (h : Legible body) : spell (tableSigns name body) =
    if name = "array".toList then dropColumns (spell body) else spell body := by
  rw [tableSigns, dropColumns_spell h, apply_ite spell]

theorem SuppliedWith.tableSigns (h : SuppliedWith Q body) : SuppliedWith Q (tableSigns name body) := by
  obtain ⟨front, hbody, hfront⟩ := exists_tableSigns name h.nested
  rw [hbody] at h
  exact h.of_append_right (h.nested.of_append hfront)

theorem ReadableWith.tableSigns (h : Legible body) (hnested : Nested body) : Legible (tableSigns name body) := by
  obtain ⟨front, hbody, -⟩ := exists_tableSigns name hnested
  rw [hbody] at h
  exact h.of_append_right

end MathMarkup.Tex
