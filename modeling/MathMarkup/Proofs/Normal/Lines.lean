import MathMarkup.Proofs.Normal.Protection
import MathMarkup.Proofs.Rows.Cells

/-!
# Rows of blocks

The rows of a protected text are rows of blocks: line breaks and blanks are blocks of their own, so
every cut of the line normalizer falls between blocks.

Main theorem `joinRows_guard`: what the line normalizer makes of the text of blocks is the text of
`realign`.
-/

namespace MathMarkup.Tex

open Text Sign

variable {us : List Sign} {bs x y : List Block} {b : Block} {n m : Nat} {s t : List Char} {colors : Bool}

namespace Block

/-- Is the block a line break? -/
def isBreak (b : Block) : Bool := b.head == .escaped '\\'

/-- Is the block a blank character? -/
def isBlank (b : Block) : Bool :=
  match b.head with
  | .char c => Text.isBlank c
  | _ => false

/-- A sign that takes nothing along. -/
def single (u : Sign) : Block := ⟨u, []⟩

end Block

open Block

/-- The text of the blocks with a token for each span. -/
def guard (n : Nat) (bs : List Block) : List Char := write (number n bs)

/-- Blocks that spell a readable text; only spans take signs along. -/
structure LaidWith (colors : Bool) (bs : List Block) : Prop where
  tail_eq_nil : ∀ b ∈ bs, b.head.isWord = false → b.tail = []
  readable : ReadableWith colors (signsOf bs)

/-- Blocks of signs that set no color. -/
abbrev Laid : List Block → Prop := LaidWith true

theorem Steady.tail_eq_nil (h : Steady bs) : ∀ b ∈ bs, b.head.isWord = false → b.tail = [] := by
  induction bs with
  | nil => simp
  | cons b bs ih =>
    refine List.forall_mem_cons.2 ⟨fun hb => ?_, ih h.2⟩
    have := h.1
    rw [b.head.split_of_isWord_eq_false hb, Prod.mk.injEq] at this
    exact this.1.symm

theorem laid_blocksOf (h : ReadableWith colors us) : LaidWith colors (blocksOf us) :=
  ⟨(steady_blocksOf us).tail_eq_nil, by rwa [signsOf_blocksOf]⟩

theorem LaidWith.of_append_left (h : LaidWith colors (x ++ y)) : LaidWith colors x := by
  have := h.readable
  rw [signsOf_append] at this
  exact ⟨fun b hb => h.tail_eq_nil b (List.mem_append_left y hb), this.of_append_left⟩

theorem LaidWith.of_append_right (h : LaidWith colors (x ++ y)) : LaidWith colors y := by
  have := h.readable
  rw [signsOf_append] at this
  exact ⟨fun b hb => h.tail_eq_nil b (List.mem_append_right x hb), this.of_append_right⟩

theorem LaidWith.of_cons (h : LaidWith colors (b :: bs)) : LaidWith colors bs := LaidWith.of_append_right (x := [b]) h

theorem LaidWith.eq_single (h : LaidWith colors (b :: bs)) (hb : b.head.isWord = false) : b = single b.head := by
  have := h.tail_eq_nil b List.mem_cons_self hb
  cases b
  simp only at this
  rw [this]
  rfl

@[simp] theorem guard_nil (n : Nat) : guard n [] = [] := rfl

theorem guard_cons_of_isWord (hb : b.head.isWord = true) :
    guard n (b :: bs) = placeholder n ++ guard (n + 1) bs := write_number_cons_of_isWord hb

theorem guard_cons (hb : b.head.isWord = false) : guard n (b :: bs) = spell b.signs ++ guard n bs :=
  write_number_cons hb

theorem guard_single (u : Sign) (hu : u.isWord = false) : guard n (single u :: bs) = u.text ++ guard n bs := by
  rw [guard_cons hu, Block.signs, spell_cons]
  simp [single]

theorem guard_append (x y : List Block) (n : Nat) :
    guard n (x ++ y) = guard n x ++ guard (n + (spansOf x).length) y := by
  induction x generalizing n with
  | nil => rfl
  | cons b x ih =>
    rw [List.cons_append, spansOf]
    by_cases hb : b.head.isWord = true
    · rw [guard_cons_of_isWord hb, guard_cons_of_isWord hb, ih, if_pos hb, List.length_cons, List.append_assoc,
        Nat.add_right_comm, Nat.add_assoc]
    · have hb : b.head.isWord = false := by simpa using hb
      rw [guard_cons hb, guard_cons hb, ih, if_neg (by simp [hb]), List.append_assoc]

/-! ## One block -/

/-- The text of one block, the span numbered `n`. -/
def Block.write (n : Nat) (b : Block) : List Char := guard n [b]

theorem Block.write_eq (b : Block) (n : Nat) :
    b.write n = if b.head.isWord then placeholder n else spell b.signs := by
  rw [Block.write]
  by_cases hb : b.head.isWord = true
  · rw [guard_cons_of_isWord hb, if_pos hb, guard_nil, List.append_nil]
  · rw [guard_cons (by simpa using hb), if_neg hb, guard_nil, List.append_nil]

theorem guard_cons_eq (b : Block) (bs : List Block) (n : Nat) :
    guard n (b :: bs) = b.write n ++ guard (n + (spansOf [b]).length) bs := guard_append [b] bs n

theorem Block.write_of_isBlank (h : LaidWith colors (b :: bs)) (hb : b.isBlank = true) :
    ∃ c, Text.isBlank c = true ∧ b = single (.char c) := by
  obtain ⟨u, tail⟩ := b
  cases u with
  | char c => exact ⟨c, hb, h.eq_single rfl⟩
  | escaped | slash | word | env => cases hb

theorem Block.eq_of_isBreak (h : LaidWith colors (b :: bs)) (hb : b.isBreak = true) : b = single (.escaped '\\') := by
  have hhead : b.head = .escaped '\\' := by simpa [isBreak] using hb
  rw [h.eq_single (by rw [hhead]; rfl), hhead]

/-- The characters of a token are no blanks and no backslashes. -/
theorem notMem_placeholder {c : Char} (hc : isTokenChar c = false) (n : Nat) : c ∉ placeholder n := by
  intro hmem
  rw [isTokenChar_of_mem_placeholder hmem] at hc
  cases hc

theorem not_isBlank_of_mem_placeholder {c : Char} (hc : c ∈ placeholder n) : Text.isBlank c = false := by
  refine Bool.eq_false_iff.2 fun hblank => ?_
  exact notMem_placeholder (isTokenChar_of_isBlank hblank) n hc

theorem Block.not_isBlank_of_head {c : Char} (hb : b.isBlank = false) (hc : c ∈ (b.write n).head?) :
    Text.isBlank c = false := by
  rw [Block.write_eq] at hc
  by_cases hword : b.head.isWord = true
  · rw [if_pos hword] at hc
    exact not_isBlank_of_mem_placeholder (List.mem_of_mem_head? hc)
  · rw [if_neg hword, Block.signs, spell_cons, List.head?_append] at hc
    obtain ⟨u, tail⟩ := b
    cases u with
    | char d =>
      obtain rfl : d = c := by simpa [text] using hc
      exact hb
    | escaped d | slash =>
      obtain rfl : '\\' = c := by simpa [text] using hc
      decide
    | word | env => simp [Sign.isWord] at hword

theorem Block.not_isBlank_of_getLast {c : Char} (h : LaidWith colors (b :: bs)) (hb : b.isBlank = false)
    (hc : c ∈ (b.write n).getLast?) : Text.isBlank c = false := by
  rw [Block.write_eq] at hc
  by_cases hword : b.head.isWord = true
  · rw [if_pos hword] at hc
    exact not_isBlank_of_mem_placeholder (List.mem_of_mem_getLast? hc)
  · have hfits := h.readable.2.1
    rw [if_neg hword, Block.signs, h.tail_eq_nil b List.mem_cons_self (by simpa using hword), spell_cons, spell_nil,
      List.append_nil] at hc
    obtain ⟨u, tail⟩ := b
    cases u with
    | char d =>
      obtain rfl : d = c := by simpa [text] using hc
      exact hb
    | escaped d =>
      obtain rfl : d = c := by simpa [text] using hc
      exact hfits.1
    | slash =>
      obtain rfl : '\\' = c := by simpa [text] using hc
      decide
    | word | env => simp [Sign.isWord] at hword

/-- A backslash at the start of protected blocks starts their text. -/
theorem head?_spell_of_guard (h : (guard n bs).head? = some '\\') : (spell (signsOf bs)).head? = some '\\' := by
  cases bs with
  | nil => cases h
  | cons b bs =>
    by_cases hword : b.head.isWord = true
    · rw [guard_cons_of_isWord hword, placeholder, List.cons_append, List.cons_append, List.head?_cons] at h
      exact absurd h (by decide)
    · rw [guard_cons (by simpa using hword), Block.signs, spell_cons, List.append_assoc,
        List.head?_append_of_ne_nil _ b.head.text_ne_nil] at h
      rw [signsOf_cons, Block.signs, List.cons_append, head?_spell_cons, h]

/-- In a block that is no line break none starts. -/
theorem Block.not_lineBreak_prefix (h : LaidWith colors (b :: bs)) (hb : b.isBreak = false) {x y : List Char}
    (hxy : b.write n = x ++ y) (hy : y ≠ []) : ¬ lineBreak <+: y ++ guard m bs := by
  intro hpre
  obtain ⟨t, ht⟩ := lineBreak_prefix_iff.1 hpre
  obtain ⟨d, y, rfl⟩ := List.exists_cons_of_ne_nil hy
  simp only [List.cons_append, List.cons.injEq] at ht
  obtain ⟨rfl, ht⟩ := ht
  rw [Block.write_eq] at hxy
  by_cases hword : b.head.isWord = true
  · rw [if_pos hword] at hxy
    exact notMem_placeholder (by decide) n (hxy ▸ List.mem_append_right x List.mem_cons_self)
  · have htail := h.tail_eq_nil b List.mem_cons_self (by simpa using hword)
    rw [if_neg hword, Block.signs, htail, spell_cons, spell_nil, List.append_nil] at hxy
    have hfits : b.head.FitsWith colors (spell (signsOf bs)) := by
      have := h.readable.2.1
      rwa [htail] at this
    obtain ⟨u, tail⟩ := b
    cases u with
    | char c =>
      cases x with
      | nil => exact hfits.1 (by simpa [text] using congrArg List.head? hxy)
      | cons e x => simp [text] at hxy
    | escaped c =>
      have hne : c ≠ '\\' := by
        rintro rfl
        cases hb
      cases x with
      | nil =>
        obtain rfl : y = [c] := by simpa [text] using hxy.symm
        exact hne (List.cons.inj ht).1
      | cons e x =>
        cases x with
        | nil => exact hne (by simpa [text] using congrArg (fun l => l.tail.head?) hxy)
        | cons e' x => simp [text] at hxy
    | slash =>
      cases x with
      | nil =>
        obtain rfl : y = [] := by simpa [text] using hxy.symm
        have hguard : (guard m bs).head? = some '\\' := by
          rw [← List.nil_append (guard m bs), ht]
          rfl
        have hhead := head?_spell_of_guard hguard
        exact absurd (hfits _ hhead) (by decide)
      | cons e x => simp [text] at hxy
    | word | env => simp [Sign.isWord] at hword

/-! ## Cutting and trimming -/

/-- The blocks before and after the first line break. -/
def breakBlocks? : List Block → Option (List Block × List Block)
  | [] => none
  | b :: bs => if b.isBreak then some ([], bs) else (breakBlocks? bs).map fun (x, y) => (b :: x, y)

theorem eq_of_breakBlocks? (h : breakBlocks? bs = some (x, y)) :
    ∃ b, b.isBreak = true ∧ bs = x ++ b :: y ∧ ∀ b ∈ x, b.isBreak = false := by
  induction bs generalizing x with
  | nil => cases h
  | cons b bs ih =>
    rw [breakBlocks?] at h
    split at h
    · rename_i hb
      simp only [Option.some.injEq, Prod.mk.injEq] at h
      obtain ⟨rfl, rfl⟩ := h
      exact ⟨b, hb, rfl, by simp⟩
    · rename_i hb
      simp only [Option.map_eq_some_iff, Prod.exists, Prod.mk.injEq] at h
      obtain ⟨x', y', h', rfl, rfl⟩ := h
      obtain ⟨d, hd, rfl, hall⟩ := ih h'
      exact ⟨d, hd, rfl, List.forall_mem_cons.2 ⟨by simpa using hb, hall⟩⟩

theorem breakOn?_guard (h : LaidWith colors bs) (n : Nat) : breakOn? lineBreak (guard n bs) =
    (breakBlocks? bs).map fun (x, y) => (guard n x, guard (n + (spansOf x).length) y) := by
  induction bs generalizing n with
  | nil => rfl
  | cons b bs ih =>
    by_cases hb : b.isBreak = true
    · rw [breakBlocks?, if_pos hb, Block.eq_of_isBreak h hb, guard_single _ rfl, Option.map_some]
      exact (breakOn?_eq_some_iff (by simp [lineBreak])).2 ⟨rfl, not_infix_dropLast (by simp [lineBreak])⟩
    · have hb : b.isBreak = false := by simpa using hb
      rw [guard_cons_eq, breakOn?_append fun x y hxy hy => Block.not_lineBreak_prefix h hb hxy hy,
        ih h.of_cons, breakBlocks?, if_neg (by simp [hb])]
      cases breakBlocks? bs with
      | none => rfl
      | some p =>
        have hlen : (spansOf (b :: p.1)).length = (spansOf [b]).length + (spansOf p.1).length := by
          rw [← List.length_append, ← spansOf_append]
          rfl
        simp only [Option.map_some, hlen, guard_cons_eq b p.1, Nat.add_assoc]

theorem Block.write_ne_nil (b : Block) (n : Nat) : b.write n ≠ [] := by
  rw [Block.write_eq]
  split
  · simp [placeholder]
  · simp [Block.signs, b.head.text_ne_nil]

/-- Blanks at the start are blanks of the text. -/
theorem trimStart_guard (h : LaidWith colors bs) (n : Nat) :
    trimStart (guard n bs) = guard n (bs.dropWhile Block.isBlank) := by
  induction bs with
  | nil => rfl
  | cons b bs ih =>
    by_cases hb : b.isBlank = true
    · obtain ⟨c, hc, hsingle⟩ := Block.write_of_isBlank h hb
      rw [List.dropWhile_cons_of_pos hb, ← ih h.of_cons, hsingle, guard_single _ rfl]
      refine trimStart_append_of_isBlank fun d hd => ?_
      obtain rfl := List.mem_singleton.1 hd
      exact hc
    · rw [List.dropWhile_cons_of_neg hb, guard_cons_eq]
      refine trimStart_eq_self fun c hc => ?_
      rw [List.head?_append_of_ne_nil _ (b.write_ne_nil n)] at hc
      exact Block.not_isBlank_of_head (by simpa using hb) hc

theorem afterLineBreaks_eq_self (h : ¬ lineBreak <+: s) : afterLineBreaks s = s := by
  unfold afterLineBreaks
  split
  · exact absurd (lineBreak_prefix_iff.2 ⟨_, rfl⟩) h
  · rfl

/-- Is the block dropped between two rows? -/
def Block.isGap (b : Block) : Bool := b.isBreak || b.isBlank

theorem afterLineBreaks_guard (h : LaidWith colors bs) (n : Nat) :
    afterLineBreaks (trimStart (guard n bs)) = guard n (bs.dropWhile isGap) := by
  induction bs with
  | nil => exact afterLineBreaks_eq_self (by simp [lineBreak, trimStart])
  | cons b bs ih =>
    have ih := ih h.of_cons
    by_cases hblank : b.isBlank = true
    · have hgap : b.isGap = true := by simp [isGap, hblank]
      rw [trimStart_guard h, List.dropWhile_cons_of_pos hblank, ← trimStart_guard h.of_cons, ih,
        List.dropWhile_cons_of_pos hgap]
    · rw [trimStart_guard h, List.dropWhile_cons_of_neg hblank]
      by_cases hbreak : b.isBreak = true
      · have hgap : b.isGap = true := by simp [isGap, hbreak]
        rw [List.dropWhile_cons_of_pos hgap, ← ih, Block.eq_of_isBreak h hbreak, guard_single _ rfl]
        simp only [text, List.cons_append, List.nil_append]
        rw [afterLineBreaks]
      · have hgap : ¬ b.isGap = true := by simp [isGap, hblank, hbreak]
        rw [List.dropWhile_cons_of_neg hgap, guard_cons_eq]
        refine afterLineBreaks_eq_self ?_
        exact Block.not_lineBreak_prefix h (by simpa using hbreak) (List.nil_append _).symm (b.write_ne_nil n)

theorem isBlank_of_mem_guard (h : LaidWith colors bs) (hbs : ∀ b ∈ bs, b.isBlank = true) {c : Char}
    (hc : c ∈ guard n bs) : Text.isBlank c = true := by
  induction bs with
  | nil => cases hc
  | cons b bs ih =>
    rw [List.forall_mem_cons] at hbs
    obtain ⟨d, hd, hsingle⟩ := Block.write_of_isBlank h hbs.1
    rw [hsingle, guard_single _ rfl, text, List.singleton_append, List.mem_cons] at hc
    rcases hc with rfl | hc
    · exact hd
    · exact ih h.of_cons hbs.2 hc

/-- The blocks without the blanks at their end. -/
def trimBlocksEnd (bs : List Block) : List Block := (bs.reverse.dropWhile Block.isBlank).reverse

theorem trimBlocksEnd_append (bs : List Block) :
    ∃ blanks, bs = trimBlocksEnd bs ++ blanks ∧ ∀ b ∈ blanks, b.isBlank = true := by
  refine ⟨(bs.reverse.takeWhile Block.isBlank).reverse, ?_, fun b hb => ?_⟩
  · rw [trimBlocksEnd, ← List.reverse_append, List.takeWhile_append_dropWhile, List.reverse_reverse]
  · exact List.mem_takeWhile_imp (List.mem_reverse.1 hb)

theorem not_isBlank_of_trimBlocksEnd (hb : b ∈ (trimBlocksEnd bs).getLast?) : b.isBlank = false := by
  rw [trimBlocksEnd, List.getLast?_reverse] at hb
  exact eq_false_of_mem_head?_dropWhile hb

theorem trimEnd_guard (h : LaidWith colors bs) (n : Nat) : trimEnd (guard n bs) = guard n (trimBlocksEnd bs) := by
  obtain ⟨blanks, hbs, hblanks⟩ := trimBlocksEnd_append bs
  have hlast : ∀ b ∈ (trimBlocksEnd bs).getLast?, b.isBlank = false := fun b hb => not_isBlank_of_trimBlocksEnd hb
  rw [hbs] at h
  conv => lhs; rw [hbs]
  rw [guard_append, trimEnd_append_of_isBlank fun c hc => isBlank_of_mem_guard h.of_append_right hblanks hc]
  -- the last block that stays ends with no blank
  refine trimEnd_eq_self fun c hc => ?_
  rcases List.eq_nil_or_concat (trimBlocksEnd bs) with hnil | ⟨core, b, hcore⟩
  · rw [hnil] at hc
    cases hc
  · rw [List.concat_eq_append] at hcore
    rw [hcore, List.append_assoc] at h
    rw [hcore, guard_append, ← Block.write, List.getLast?_append_of_ne_nil _ (b.write_ne_nil _)] at hc
    exact Block.not_isBlank_of_getLast h.of_append_right (hlast b (by simp [hcore])) hc

/-- The blocks without the blanks at both ends. -/
def trimBlocks (bs : List Block) : List Block := trimBlocksEnd (bs.dropWhile Block.isBlank)

theorem LaidWith.dropWhile (h : LaidWith colors bs) (p : Block → Bool) : LaidWith colors (bs.dropWhile p) := by
  rw [← List.takeWhile_append_dropWhile (p := p) (l := bs)] at h
  exact h.of_append_right

theorem trim_guard (h : LaidWith colors bs) (n : Nat) : trim (guard n bs) = guard n (trimBlocks bs) := by
  rw [trim, trimStart_guard h, trimEnd_guard (h.dropWhile _)]
  rfl

/-! ## Rows -/

/-- The blocks between runs of line breaks. -/
def blockRows (bs : List Block) : List (List Block) :=
  match _h : breakBlocks? bs with
  | none => [bs]
  | some (row, rest) => row :: blockRows (rest.dropWhile Block.isGap)
termination_by bs.length
decreasing_by
  obtain ⟨b, -, rfl, -⟩ := eq_of_breakBlocks? _h
  have := (List.dropWhile_suffix (l := rest) Block.isGap).length_le
  simp only [List.length_append, List.length_cons]
  omega

/-- The texts of rows, with their spans numbered through. -/
def writeRows (n : Nat) : List (List Block) → List (List Char)
  | [] => []
  | r :: rs => guard n r :: writeRows (n + (spansOf r).length) rs

theorem breakRows_guard (h : LaidWith colors bs) (n : Nat) : breakRows (guard n bs) = writeRows n (blockRows bs) := by
  fun_induction blockRows bs generalizing n with
  | case1 bs hnone =>
    have hbreak : breakOn? lineBreak (guard n bs) = none := by rw [breakOn?_guard h, hnone, Option.map_none]
    rw [breakRows_of_none hbreak]
    rfl
  | case2 bs row rest hsome ih =>
    obtain ⟨b, -, rfl, -⟩ := eq_of_breakBlocks? hsome
    have hrest := h.of_append_right.of_cons
    have hbreak := breakOn?_guard h n
    rw [hsome, Option.map_some] at hbreak
    rw [breakRows_of_some hbreak, afterLineBreaks_guard hrest, ih (hrest.dropWhile _), writeRows]

theorem LaidWith.of_mem_blockRows (h : LaidWith colors bs) {r : List Block} (hr : r ∈ blockRows bs) :
    LaidWith colors r := by
  fun_induction blockRows bs with
  | case1 bs hnone =>
    obtain rfl := List.mem_singleton.1 hr
    exact h
  | case2 bs row rest hsome ih =>
    obtain ⟨b, -, rfl, -⟩ := eq_of_breakBlocks? hsome
    rcases List.mem_cons.1 hr with rfl | hr
    · exact h.of_append_left
    · exact ih (h.of_append_right.of_cons.dropWhile _) hr

/-- The rows, trimmed, without the empty ones. -/
def rowsOf (bs : List Block) : List (List Block) := ((blockRows bs).map trimBlocks).filter fun r => !r.isEmpty

theorem spansOf_eq_nil (h : ∀ b ∈ bs, b.isBlank = true) : spansOf bs = [] := by
  induction bs with
  | nil => rfl
  | cons b bs ih =>
    rw [List.forall_mem_cons] at h
    obtain ⟨u, tail⟩ := b
    cases u with
    | char => exact ih h.2
    | escaped | slash | word | env => cases h.1

theorem spansOf_trimBlocks (bs : List Block) : spansOf (trimBlocks bs) = spansOf bs := by
  obtain ⟨blanks, hbs, hblanks⟩ := trimBlocksEnd_append (bs.dropWhile Block.isBlank)
  conv => rhs; rw [← List.takeWhile_append_dropWhile (p := Block.isBlank) (l := bs), hbs]
  rw [spansOf_append, spansOf_append, spansOf_eq_nil hblanks,
    spansOf_eq_nil fun b hb => List.mem_takeWhile_imp hb, List.nil_append, List.append_nil]
  rfl

theorem guard_eq_nil : guard n bs = [] ↔ bs = [] := by
  cases bs with
  | nil => simp
  | cons b bs => simp [guard_cons_eq, b.write_ne_nil]

theorem filter_trim_writeRows {rs : List (List Block)} (h : ∀ r ∈ rs, LaidWith colors r) (n : Nat) :
    ((writeRows n rs).map trim).filter (fun row => !row.isEmpty) =
      writeRows n ((rs.map trimBlocks).filter fun r => !r.isEmpty) := by
  induction rs generalizing n with
  | nil => rfl
  | cons r rs ih =>
    rw [List.forall_mem_cons] at h
    rw [writeRows, List.map_cons, List.map_cons, trim_guard h.1, ← spansOf_trimBlocks r]
    by_cases hr : trimBlocks r = []
    · rw [hr, List.filter_cons_of_neg (by simp), List.filter_cons_of_neg (by simp), ih h.2]
      rfl
    · rw [List.filter_cons_of_pos (by simpa [guard_eq_nil] using hr), List.filter_cons_of_pos (by simpa using hr),
        ih h.2, writeRows]

theorem splitRows_guard (h : LaidWith colors bs) (n : Nat) :
    splitRows (collapseLineBreaks (guard n bs)) = writeRows n (rowsOf bs) := by
  rw [splitRows, splitOn_collapseLineBreaks, breakRows_guard h]
  exact filter_trim_writeRows (fun r hr => h.of_mem_blockRows hr) n

/-! ## Joining -/

/-- What stands between two rows. -/
def rowSeparator : List Block := [single (.char ' '), single (.escaped '\\'), single (.char ' ')]

/-- A row with its anchor. -/
def anchoredBlocks : List Block → List Block
  | ⟨.char '&', tail⟩ :: r => ⟨.char '&', tail⟩ :: r
  | r => single (.char '&') :: single (.char ' ') :: r

def anchorBlocks : List (List Block) → List (List Block)
  | [] => []
  | r :: rs => r :: rs.map anchoredBlocks

def joinBlocks : List (List Block) → List Block
  | [] => []
  | r :: rs => r ++ rs.flatMap fun r => rowSeparator ++ r

/-- The blocks that the line normalizer makes of the blocks. -/
def realign (bs : List Block) : List Block := joinBlocks (anchorBlocks (rowsOf bs))

theorem anchored_of_ne {row : List Char} (h : row.head? ≠ some '&') : anchored row = '&' :: ' ' :: row := by
  unfold anchored
  split
  · exact absurd rfl h
  · rfl

theorem anchored_guard (r : List Block) (n : Nat) : anchored (guard n r) = guard n (anchoredBlocks r) := by
  unfold anchoredBlocks
  split
  · rw [guard_cons rfl]
    rfl
  · rename_i hne
    rw [guard_single _ rfl, guard_single _ rfl, anchored_of_ne]
    · rfl
    · intro hhead
      cases r with
      | nil => cases hhead
      | cons b r =>
        obtain ⟨u, tail⟩ := b
        rw [guard_cons_eq, List.head?_append_of_ne_nil _ (Block.write_ne_nil _ n), Block.write_eq] at hhead
        cases u with
        | char c =>
          obtain rfl : c = '&' := by simpa [Sign.isWord, Block.signs, text] using hhead
          exact hne tail r rfl
        | escaped | slash => simp [Sign.isWord, Block.signs, text] at hhead
        | word | env =>
          simp only [Sign.isWord, ↓reduceIte] at hhead
          exact notMem_placeholder (by decide) n (List.mem_of_mem_head? hhead)

theorem spansOf_anchoredBlocks (r : List Block) : spansOf (anchoredBlocks r) = spansOf r := by
  unfold anchoredBlocks
  split <;> rfl

theorem anchorRows_writeRows (rs : List (List Block)) (n : Nat) :
    anchorRows (writeRows n rs) = writeRows n (anchorBlocks rs) := by
  have hmap : ∀ (rs : List (List Block)) n,
      (writeRows n rs).map anchored = writeRows n (rs.map anchoredBlocks) := by
    intro rs
    induction rs with
    | nil => exact fun n => rfl
    | cons r rs ih =>
      intro n
      rw [writeRows, List.map_cons, List.map_cons, writeRows, anchored_guard, ih, spansOf_anchoredBlocks]
  cases rs with
  | nil => rfl
  | cons r rs => rw [writeRows, anchorRows, hmap, anchorBlocks, writeRows]

theorem joinRows_writeRows (rs : List (List Block)) (n : Nat) :
    joinRows (writeRows n rs) = guard n (joinBlocks rs) := by
  have hmap : ∀ (rs : List (List Block)) n,
      ((writeRows n rs).flatMap fun r => [' ', '\\', '\\', ' '] ++ r) =
        guard n (rs.flatMap fun r => rowSeparator ++ r) := by
    intro rs
    induction rs with
    | nil => exact fun n => rfl
    | cons r rs ih =>
      intro n
      rw [writeRows, List.flatMap_cons, List.flatMap_cons, ih, guard_append, guard_append, spansOf_append]
      rfl
  cases rs with
  | nil => rfl
  | cons r rs => rw [writeRows, joinRows_cons, hmap, joinBlocks, guard_append]

/-- **The line normalizer on blocks**: what it joins is the text of the realigned blocks. -/
theorem joinRows_guard (h : LaidWith colors bs) (n : Nat) :
    joinRows (anchorRows (splitRows (collapseLineBreaks (guard n bs)))) = guard n (realign bs) := by
  rw [splitRows_guard h, anchorRows_writeRows, joinRows_writeRows]
  rfl

end MathMarkup.Tex
