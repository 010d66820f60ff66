import MathMarkup.Proofs.Normal.Lines

/-!
# Aligned blocks

Blocks are aligned when a walk over them meets line breaks only between rows: behind one space, and
before a space and an anchor. Being aligned is a matter of each block and the place before it.

Main theorems: `aligned_realign`, the line normalizer aligns; `realign_eq_self`, it keeps what is
aligned.
-/

namespace MathMarkup.Tex

open Text Sign Block

variable {bs x y r : List Block} {b : Block} {p q : Place}

/-- What stands before a block. -/
inductive Place where
  | start
  | solid
  /-- One space behind a solid block. -/
  | spaced
  /-- Other blanks. -/
  | blank
  /-- A line break. -/
  | broken
  /-- A line break and a space. -/
  | tabbed
deriving DecidableEq, Repr

/-- The place behind a block, where the block may stand. -/
def Place.next (p : Place) (b : Block) : Option Place :=
  match p with
  | start => if b.isGap then none else some solid
  | solid =>
    if b.isBreak then none
    else if b.head = .char ' ' then some spaced
    else if b.isBlank then some blank else some solid
  | spaced => if b.isBreak then some broken else if b.isBlank then some blank else some solid
  | blank => if b.isBreak then none else if b.isBlank then some blank else some solid
  | broken => if b.head = .char ' ' then some tabbed else none
  | tabbed => if b.head = .char '&' then some solid else none

/-- The place behind the blocks, where all of them may stand. -/
def walk (p : Place) : List Block → Option Place
  | [] => some p
  | b :: bs => (p.next b).bind fun p => walk p bs

/-- Line breaks stand between rows only. -/
def Aligned (bs : List Block) : Prop := bs = [] ∨ walk .start bs = some .solid

theorem walk_append (p : Place) (x y : List Block) : walk p (x ++ y) = (walk p x).bind fun p => walk p y := by
  induction x generalizing p with
  | nil => rfl
  | cons b x ih =>
    rw [List.cons_append, walk, walk, Option.bind_assoc]
    congr 1
    funext p
    exact ih p

theorem walk_concat_eq_some (h : walk p (x ++ [b]) = some q) : ∃ p', walk p x = some p' ∧ p'.next b = some q := by
  rw [walk_append, Option.bind_eq_some_iff] at h
  obtain ⟨p', hp', hq⟩ := h
  rw [walk, Option.bind_eq_some_iff] at hq
  obtain ⟨q', hq', hq⟩ := hq
  cases hq
  exact ⟨p', hp', hq'⟩

theorem isBlank_of_head (h : b.head = .char ' ') : b.isBlank = true := by
  rw [Block.isBlank, h]
  rfl

/-! ## The line normalizer aligns -/

/-- A row: blocks without line breaks, with no blank at its ends. -/
structure IsRow (r : List Block) : Prop where
  ne_nil : r ≠ []
  isBreak : ∀ b ∈ r, b.isBreak = false
  head : ∀ b ∈ r.head?, b.isBlank = false
  last : ∀ b ∈ r.getLast?, b.isBlank = false

/-- Inside a row, blocks other than line breaks may stand. -/
theorem walk_inside (hp : p = .solid ∨ p = .spaced ∨ p = .blank) (hne : r ≠ [])
    (hbreak : ∀ b ∈ r, b.isBreak = false) (hlast : ∀ b ∈ r.getLast?, b.isBlank = false) :
    walk p r = some .solid := by
  induction r generalizing p with
  | nil => exact absurd rfl hne
  | cons b r ih =>
    rw [List.forall_mem_cons] at hbreak
    cases r with
    | nil =>
      have hblank := hlast b rfl
      have hspace : b.head ≠ .char ' ' := fun h => by
        rw [isBlank_of_head h] at hblank
        cases hblank
      rcases hp with rfl | rfl | rfl <;> simp [walk, Place.next, hbreak.1, hblank, hspace]
    | cons b' r =>
      obtain ⟨q, hq, hnext⟩ : ∃ q, (q = .solid ∨ q = .spaced ∨ q = .blank) ∧ p.next b = some q := by
        rcases hp with rfl | rfl | rfl <;> simp only [Place.next, hbreak.1] <;> grind
      rw [walk, hnext]
      exact ih hq (List.cons_ne_nil b' r) hbreak.2 fun d hd => hlast d (by simpa using hd)

theorem IsRow.walk_start (h : IsRow r) : walk .start r = some .solid := by
  cases r with
  | nil => exact absurd rfl h.ne_nil
  | cons b r =>
    have hgap : b.isGap = false := by
      simp [isGap, h.isBreak b List.mem_cons_self, h.head b rfl]
    rw [walk, Place.next, hgap]
    cases r with
    | nil => rfl
    | cons b' r =>
      exact walk_inside (Or.inl rfl) (List.cons_ne_nil b' r)
        (fun d hd => h.isBreak d (List.mem_cons_of_mem b hd)) fun d hd => h.last d (by simpa using hd)

theorem IsRow.walk_anchored (h : IsRow r) : walk .solid (rowSeparator ++ anchoredBlocks r) = some .solid := by
  have hsep : walk .solid rowSeparator = some .tabbed := rfl
  rw [walk_append, hsep, Option.bind_some]
  unfold anchoredBlocks
  split
  · rename_i tail r'
    have hnext : Place.tabbed.next ⟨.char '&', tail⟩ = some .solid := rfl
    rw [walk, hnext, Option.bind_some]
    cases r' with
    | nil => rfl
    | cons b r' =>
      exact walk_inside (Or.inl rfl) (List.cons_ne_nil b r')
        (fun d hd => h.isBreak d (List.mem_cons_of_mem _ hd)) fun d hd => h.last d (by simpa using hd)
  · have hanchor : walk .tabbed [single (.char '&'), single (.char ' ')] = some .spaced := rfl
    have hrow := walk_inside (Or.inr (Or.inl rfl)) h.ne_nil h.isBreak h.last
    exact (walk_append .tabbed [single (.char '&'), single (.char ' ')] r).trans (by rw [hanchor]; exact hrow)

theorem isBreak_of_breakBlocks?_eq_none (h : breakBlocks? bs = none) : ∀ b ∈ bs, b.isBreak = false := by
  induction bs with
  | nil => simp
  | cons b bs ih =>
    rw [breakBlocks?] at h
    split at h
    · cases h
    · rename_i hb
      exact List.forall_mem_cons.2 ⟨by simpa using hb, ih (Option.map_eq_none_iff.1 h)⟩

theorem isBreak_of_mem_blockRows (hr : r ∈ blockRows bs) : ∀ b ∈ r, b.isBreak = false := by
  fun_induction blockRows bs with
  | case1 bs hnone =>
    obtain rfl := List.mem_singleton.1 hr
    exact isBreak_of_breakBlocks?_eq_none hnone
  | case2 bs row rest hsome ih =>
    obtain ⟨b, -, -, hall⟩ := eq_of_breakBlocks? hsome
    rcases List.mem_cons.1 hr with rfl | hr
    · exact hall
    · exact ih hr

theorem trimBlocksEnd_subset (bs : List Block) : trimBlocksEnd bs ⊆ bs := by
  obtain ⟨blanks, hbs, -⟩ := trimBlocksEnd_append bs
  intro b hb
  rw [hbs]
  exact List.mem_append_left blanks hb

theorem not_isBlank_of_trimBlocks_head (hb : b ∈ (trimBlocks bs).head?) : b.isBlank = false := by
  obtain ⟨blanks, hbs, -⟩ := trimBlocksEnd_append (bs.dropWhile Block.isBlank)
  have hhead : b ∈ (bs.dropWhile Block.isBlank).head? := by
    rw [hbs, List.head?_append]
    rw [trimBlocks] at hb
    rw [hb]
    rfl
  exact eq_false_of_mem_head?_dropWhile hhead

theorem isRow_of_mem_rowsOf (hr : r ∈ rowsOf bs) : IsRow r := by
  rw [rowsOf, List.mem_filter, List.mem_map] at hr
  obtain ⟨⟨row, hrow, rfl⟩, hne⟩ := hr
  refine ⟨by simpa using hne, fun b hb => ?_, fun b hb => not_isBlank_of_trimBlocks_head hb,
    fun b hb => not_isBlank_of_trimBlocksEnd hb⟩
  exact isBreak_of_mem_blockRows hrow b
    ((List.dropWhile_suffix Block.isBlank).subset (trimBlocksEnd_subset _ hb))

/-- **The line normalizer aligns.** -/
theorem aligned_realign (bs : List Block) : Aligned (realign bs) := by
  have hlater : ∀ rs : List (List Block), (∀ r ∈ rs, IsRow r) →
      walk .solid ((rs.map anchoredBlocks).flatMap fun r => rowSeparator ++ r) = some .solid := by
    intro rs hrs
    induction rs with
    | nil => rfl
    | cons r rs ih =>
      rw [List.forall_mem_cons] at hrs
      rw [List.map_cons, List.flatMap_cons, walk_append, hrs.1.walk_anchored, Option.bind_some, ih hrs.2]
  have hall : ∀ r ∈ rowsOf bs, IsRow r := fun r hr => isRow_of_mem_rowsOf hr
  rw [realign]
  cases hrows : rowsOf bs with
  | nil => exact Or.inl rfl
  | cons r rs =>
    rw [hrows, List.forall_mem_cons] at hall
    rw [anchorBlocks, joinBlocks]
    refine Or.inr ?_
    rw [walk_append, hall.1.walk_start, Option.bind_some, hlater rs hall.2]

/-! ## What is aligned stays -/

theorem isGap_of_anchor (hb : b.head = .char '&') : b.isGap = false := by
  rw [isGap, isBreak, Block.isBlank, hb]
  rfl

theorem next_eq_some_solid (h : p.next b = some .solid) : b.isGap = false := by
  rw [Place.next.eq_def] at h
  cases p with
  | start =>
    simp only at h
    split at h
    · cases h
    · rename_i hgap
      simpa using hgap
  | solid =>
    simp only at h
    split at h
    · cases h
    · split at h
      · cases h
      · split at h
        · cases h
        · rename_i hbreak _ hblank
          simp [isGap, hbreak, hblank]
  | spaced | blank =>
    simp only at h
    split at h
    · cases h
    · split at h
      · cases h
      · rename_i hbreak hblank
        simp [isGap, hbreak, hblank]
  | broken =>
    simp only at h
    split at h <;> cases h
  | tabbed =>
    simp only at h
    split at h
    · rename_i hanchor
      exact isGap_of_anchor hanchor
    · cases h

theorem next_eq_some_spaced (h : p.next b = some .spaced) : p = .solid ∧ b.head = .char ' ' := by
  rw [Place.next.eq_def] at h
  cases p with
  | solid =>
    simp only at h
    split at h
    · cases h
    · split at h
      · rename_i hspace
        exact ⟨rfl, hspace⟩
      · split at h <;> cases h
  | start | broken | tabbed =>
    simp only at h
    split at h <;> cases h
  | spaced | blank =>
    simp only at h
    split at h
    · cases h
    · split at h <;> cases h

/-- A line break may stand behind one space only. -/
theorem next_of_isBreak (hb : b.isBreak = true) (h : p.next b = some q) : p = .spaced ∧ q = .broken := by
  have hgap : b.isGap = true := by simp [isGap, hb]
  have hhead : ∀ c, b.head ≠ .char c := by
    intro c hc
    rw [isBreak, hc] at hb
    cases hb
  rw [Place.next.eq_def] at h
  cases p with
  | spaced =>
    simp only [hb, ↓reduceIte, Option.some.injEq] at h
    exact ⟨rfl, h.symm⟩
  | start => simp [hgap] at h
  | solid | blank => simp [hb] at h
  | broken | tabbed => simp [hhead] at h

/-- Behind a line break come a space and an anchor. -/
theorem walk_broken (h : walk .broken y = some .solid) : ∃ b c y', y = b :: c :: y' ∧ b.head = .char ' ' ∧
    c.head = .char '&' ∧ walk .start (c :: y') = some .solid := by
  cases y with
  | nil => cases h
  | cons b y =>
    rw [walk, Place.next] at h
    split at h
    · rename_i hb
      rw [Option.bind_some] at h
      cases y with
      | nil => cases h
      | cons c y =>
        rw [walk, Place.next] at h
        split at h
        · rename_i hc
          refine ⟨b, c, y, rfl, hb, hc, ?_⟩
          rw [walk, Place.next, isGap_of_anchor hc]
          exact h
        · cases h
    · cases h

theorem trimBlocks_of_walk (h : walk .start r = some .solid) (x : List Block) (hx : ∀ b ∈ x, b.isBlank = true) :
    trimBlocks (r ++ x) = r := by
  have hhead : (r ++ x).dropWhile Block.isBlank = r ++ x := by
    cases r with
    | nil => cases h
    | cons b r =>
      refine List.dropWhile_cons_of_neg fun hblank => ?_
      rw [walk, Option.bind_eq_some_iff] at h
      obtain ⟨p, hp, -⟩ := h
      simp [Place.next, isGap, hblank] at hp
  have hlast : r.reverse.dropWhile Block.isBlank = r.reverse := by
    rcases List.eq_nil_or_concat r with rfl | ⟨r', b, hr⟩
    · rfl
    · rw [List.concat_eq_append] at hr
      rw [hr] at h
      obtain ⟨p, -, hp⟩ := walk_concat_eq_some h
      have hgap := next_eq_some_solid hp
      rw [isGap, Bool.or_eq_false_iff] at hgap
      rw [hr, List.reverse_append, List.reverse_singleton, List.singleton_append,
        List.dropWhile_cons_of_neg (by simp [hgap.2])]
  rw [trimBlocks, hhead, trimBlocksEnd, List.reverse_append,
    List.dropWhile_append_of_pos fun b hb => hx b (List.mem_reverse.1 hb), hlast, List.reverse_reverse]

theorem Laid.eq_single_of_head {u : Sign} (h : Laid bs) (hb : b ∈ bs) (hhead : b.head = u) (hu : u.isWord = false) :
    b = single u := by
  have := h.tail_eq_nil b hb (by rw [hhead]; exact hu)
  cases b
  simp only at this hhead
  rw [this, hhead]
  rfl

theorem anchoredBlocks_of_head (h : b.head = .char '&') : anchoredBlocks (b :: x) = b :: x := by
  obtain ⟨u, tail⟩ := b
  simp only at h
  rw [h]
  rfl

/-- In front of a line break stands one space, and a row before it. -/
theorem walk_spaced (h : walk .start r = some .spaced) : ∃ first before, r = first ++ [before] ∧
    before.head = .char ' ' ∧ walk .start first = some .solid := by
  rcases List.eq_nil_or_concat r with rfl | ⟨first, before, hr⟩
  · cases h
  · rw [List.concat_eq_append] at hr
    rw [hr] at h
    obtain ⟨p, hp, hnext⟩ := walk_concat_eq_some h
    obtain ⟨rfl, hbefore⟩ := next_eq_some_spaced hnext
    exact ⟨first, before, hr, hbefore, hp⟩

theorem ne_nil_of_walk (h : walk .start r = some .solid) : r ≠ [] := by
  rintro rfl
  cases h

/-- The rows of aligned blocks are what stands between the separators. -/
theorem rowsOf_of_walk (hlaid : Laid bs) (h : walk .start bs = some .solid) :
    ∃ r rs, rowsOf bs = r :: rs ∧ bs = r ++ rs.flatMap (fun r => rowSeparator ++ r) ∧
      (∀ r ∈ rs, anchoredBlocks r = r) ∧ r.head? = bs.head? := by
  unfold rowsOf
  fun_induction blockRows bs with
  | case1 bs hnone =>
    have htrim := trimBlocks_of_walk h [] (by simp)
    rw [List.append_nil] at htrim
    exact ⟨bs, [], by simp [htrim, ne_nil_of_walk h], by simp, by simp, rfl⟩
  | case2 bs row rest hsome ih =>
    obtain ⟨b, hb, rfl, -⟩ := eq_of_breakBlocks? hsome
    rw [walk_append, Option.bind_eq_some_iff] at h
    obtain ⟨p, hrow, hrest⟩ := h
    rw [walk, Option.bind_eq_some_iff] at hrest
    obtain ⟨q, hnext, hrest⟩ := hrest
    obtain ⟨rfl, rfl⟩ := next_of_isBreak hb hnext
    obtain ⟨space, anchor, y, rfl, hspace, hanchor, hwalk⟩ := walk_broken hrest
    have hgap : space.isGap = true := by simp [isGap, isBlank_of_head hspace]
    have hdrop : (space :: anchor :: y).dropWhile Block.isGap = anchor :: y := by
      rw [List.dropWhile_cons_of_pos hgap, List.dropWhile_cons_of_neg (by simp [isGap_of_anchor hanchor])]
    rw [hdrop] at ih ⊢
    obtain ⟨r, rs, hrows, hy, hall, hhead⟩ := ih hlaid.of_append_right.of_cons.of_cons hwalk
    -- the row before the line break, and the space behind it
    obtain ⟨first, before, rfl, hbefore, hfirst⟩ := walk_spaced hrow
    have htrim := trimBlocks_of_walk hfirst [before] (by simp [isBlank_of_head hbefore])
    have hne : first ≠ [] := ne_nil_of_walk hfirst
    have hsep : [before, b, space] = rowSeparator := by
      rw [isBreak, beq_iff_eq] at hb
      rw [hlaid.eq_single_of_head (by simp) hbefore rfl, hlaid.eq_single_of_head (by simp) hb rfl,
        hlaid.eq_single_of_head (by simp) hspace rfl]
      rfl
    refine ⟨first, r :: rs, ?_, ?_, List.forall_mem_cons.2 ⟨?_, hall⟩, ?_⟩
    · rw [List.map_cons, htrim, List.filter_cons_of_pos (by simpa using hne), hrows]
    · rw [List.flatMap_cons, hy, ← hsep]
      simp
    · cases r with
      | nil => cases hhead
      | cons c r =>
        obtain rfl : c = anchor := by simpa using hhead
        exact anchoredBlocks_of_head hanchor
    · cases first with
      | nil => exact absurd rfl hne
      | cons c first => rfl

/-- **The line normalizer keeps what is aligned.** -/
theorem realign_eq_self (hlaid : Laid bs) (h : Aligned bs) : realign bs = bs := by
  rcases h with rfl | h
  · have hnil : rowsOf [] = [] := by
      rw [rowsOf, blockRows]
      rfl
    rw [realign, hnil]
    rfl
  · obtain ⟨r, rs, hrows, hbs, hall, -⟩ := rowsOf_of_walk hlaid h
    have hmap : rs.map anchoredBlocks = rs := by
      conv => rhs; rw [← List.map_id rs]
      exact List.map_congr_left fun r hr => hall r hr
    rw [realign, hrows, anchorBlocks, joinBlocks, hmap, ← hbs]

end MathMarkup.Tex
