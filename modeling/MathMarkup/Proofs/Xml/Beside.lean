import MathMarkup.Proofs.Text.Search
import MathMarkup.Proofs.Xml.Lines
import MathMarkup.Proofs.Xml.Readers

/-!
# Reading two texts side by side

Two texts with the same start go on with different tags (`Beside`). As long as a reader does not come past
that place in the one text (`Before`), it does the same in the other. So what stands before a root element is
read alike, whatever the root holds.

Main statement: `Beside.readProlog`.
-/

namespace MathMarkup.Xml

open Text

variable {x y : List Char} {c c' d : Cursor} {word : String}

/-- Both texts are empty, or both go on with a tag whose name starts with the same letter. -/
inductive Meets : List Char → List Char → Prop
  | empty : Meets [] []
  | tag (s t : List Char) : Meets ('<' :: 'm' :: s) ('<' :: 'm' :: t)

/-- The cursors stand behind each other's text in the same way, the one in front of `x` and the other in front
of `y`. -/
structure Beside (x y : List Char) (c d : Cursor) : Prop where
  meets : Meets x y
  rest : ∃ v, c.rest = v ++ x ∧ d.rest = v ++ y

/-- The cursor has not come past the place where `x` starts. -/
def Before (x : List Char) (c : Cursor) : Prop := x.length ≤ c.rest.length

theorem Cursor.Reaches.before (h : c.Reaches c') (hc : Before x c') : Before x c :=
  Nat.le_trans hc h.rest.length_le

/-! ## What comes next -/

theorem Meets.head? (h : Meets x y) : x.head? = y.head? := by
  cases h <;> rfl

theorem head?_append_eq (h : Meets x y) (v : List Char) : (v ++ x).head? = (v ++ y).head? := by
  cases v with
  | nil => exact h.head?
  | cons => rfl

/-- Is there no place in the word where it may go on as such a tag does? -/
def isForeign : List Char → Bool
  | [] => true
  | c :: s => (c != '<' || s.head?.any (· != 'm')) && isForeign s

theorem starts_append_eq (h : Meets x y) (hword : isForeign word.toList = true) (v : List Char) :
    Cursor.starts word (v ++ x) = Cursor.starts word (v ++ y) := by
  unfold Cursor.starts
  generalize word.toList = w at hword ⊢
  induction w generalizing v with
  | nil => rfl
  | cons a w ih =>
    rw [isForeign, Bool.and_eq_true] at hword
    cases v with
    | nil =>
      cases h with
      | empty => rfl
      | tag s t =>
        -- the word differs from the tag in one of its first two characters
        by_cases ha : a = '<'
        · cases w with
          | nil => simp [ha] at hword
          | cons b w =>
            have hb : b ≠ 'm' := by simpa [ha] using hword.1
            simp [after?, ha, hb]
        · simp [after?, ha]
    | cons b v =>
      by_cases ha : a = b
      · simpa [after?, ha] using ih v hword.2
      · simp [after?, ha]

/-- A run of characters that does not come past the place is the same in both texts. -/
theorem takeWhile_append_eq (h : Meets x y) {p : Char → Bool} {v : List Char}
    (hlen : x.length ≤ ((v ++ x).dropWhile p).length) : (v ++ y).takeWhile p = (v ++ x).takeWhile p := by
  cases h with
  | empty => rfl
  | tag s t =>
    rw [List.takeWhile_append, List.takeWhile_append]
    split
    · rename_i hall
      have hp : p '<' = false := by
        rw [← Bool.not_eq_true]
        intro hp
        have hsum := congrArg List.length (List.takeWhile_append_dropWhile (p := p) (l := v ++ '<' :: 'm' :: s))
        rw [List.takeWhile_append, if_pos hall, List.takeWhile_cons_of_pos hp] at hsum
        simp only [List.length_append, List.length_cons] at hsum hlen
        omega
      rw [List.takeWhile_cons_of_neg (Bool.eq_false_iff.1 hp), List.takeWhile_cons_of_neg (Bool.eq_false_iff.1 hp)]
    · rfl

namespace Beside

theorem head? (h : Beside x y c d) : d.rest.head? = c.rest.head? := by
  obtain ⟨v, hc, hd⟩ := h.rest
  rw [hc, hd, head?_append_eq h.meets]

theorem isEmpty (h : Beside x y c d) : d.rest.isEmpty = c.rest.isEmpty := by
  have hhead := h.head?
  cases hc : c.rest with
  | nil => rw [List.head?_eq_none_iff.1 (hhead.trans (by rw [hc]; rfl))]
  | cons a s =>
    obtain ⟨t, ht⟩ := List.head?_eq_some_iff.1 (hhead.trans (by rw [hc]; rfl))
    rw [ht]
    rfl

theorem atSpace (h : Beside x y c d) : d.atSpace = c.atSpace := by
  rw [Cursor.atSpace, Cursor.atSpace, h.head?]

theorem sees (h : Beside x y c d) (hword : isForeign word.toList = true) : d.sees word = c.sees word := by
  obtain ⟨v, hc, hd⟩ := h.rest
  have hstarts := starts_append_eq h.meets hword v
  rw [← hc, ← hd] at hstarts
  exact hstarts.symm

/-! ## Steps -/

theorem advance (h : Beside x y c d) {n : Nat} (hc : Before x (c.advance n)) :
    Beside x y (c.advance n) (d.advance n) := by
  obtain ⟨v, hcv, hdv⟩ := h.rest
  refine ⟨h.meets, v.drop n, ?_⟩
  rw [Before, Cursor.advance, hcv] at hc
  rw [Cursor.advance, Cursor.advance, hcv, hdv, List.drop_append, List.drop_append]
  cases h.meets with
  | empty => simp
  | tag s t =>
    have hn : n - v.length = 0 := by
      simp only [List.length_drop, List.length_append, List.length_cons] at hc
      omega
    rw [hn]
    exact ⟨rfl, rfl⟩

theorem span (h : Beside x y c d) {p : Char → Bool} (hc : Before x (c.span p).2) :
    (d.span p).1 = (c.span p).1 ∧ Beside x y (c.span p).2 (d.span p).2 := by
  have hword : d.rest.takeWhile p = c.rest.takeWhile p := by
    obtain ⟨v, hcv, hdv⟩ := h.rest
    rw [Before, Cursor.span, Cursor.advance, drop_length_takeWhile, hcv] at hc
    rw [hcv, hdv, takeWhile_append_eq h.meets hc]
  refine ⟨hword, ?_⟩
  rw [Cursor.span, Cursor.span, hword]
  exact h.advance hc

theorem skipSpace (h : Beside x y c d) (hc : Before x c.skipSpace) : Beside x y c.skipSpace d.skipSpace :=
  (h.span hc).2

theorem expect (h : Beside x y c d) {wanted : Char} (hread : c.expect wanted = .ok c') (hc : Before x c') :
    ∃ d', d.expect wanted = .ok d' ∧ Beside x y c' d' := by
  obtain ⟨hhead, rfl⟩ := Cursor.expect_eq_ok.1 hread
  exact ⟨_, Cursor.expect_eq_ok.2 ⟨h.head?.trans hhead, rfl⟩, h.advance hc⟩

theorem expectWord (h : Beside x y c d) (hword : isForeign word.toList = true) (hread : c.expectWord word = .ok c')
    (hc : Before x c') : ∃ d', d.expectWord word = .ok d' ∧ Beside x y c' d' := by
  obtain ⟨hsees, rfl⟩ := Cursor.expectWord_eq_ok.1 hread
  exact ⟨_, Cursor.expectWord_eq_ok.2 ⟨(h.sees hword).trans hsees, rfl⟩, h.advance hc⟩

theorem expectQuote (h : Beside x y c d) {quote : Char} (hread : c.expectQuote = .ok (quote, c')) (hc : Before x c') :
    ∃ d', d.expectQuote = .ok (quote, d') ∧ Beside x y c' d' := by
  obtain ⟨hquote, hhead, rfl⟩ := Cursor.expectQuote_eq_ok.1 hread
  exact ⟨_, Cursor.expectQuote_eq_ok.2 ⟨hquote, h.head?.trans hhead, rfl⟩, h.advance hc⟩

theorem qname (h : Beside x y c d) {name : QName} (hread : c.qname = .ok (name, c')) (hc : Before x c') :
    ∃ d', d.qname = .ok (name, d') ∧ Beside x y c' d' := by
  obtain ⟨hname, rfl⟩ := Cursor.qname_eq_ok.1 hread
  obtain ⟨hword, hbehind⟩ := h.span hc
  exact ⟨_, Cursor.qname_eq_ok.2 ⟨hword ▸ hname, rfl⟩, hbehind⟩

theorem name (h : Beside x y c d) {name : List Char} (hread : c.name = .ok (name, c')) (hc : Before x c') :
    ∃ d', d.name = .ok (name, d') ∧ Beside x y c' d' := by
  obtain ⟨⟨a, rest, hrest, ha, rfl⟩, rfl⟩ := Cursor.name_eq_ok.1 hread
  refine ⟨_, Cursor.name_eq_ok.2 ⟨?_, rfl⟩, h.advance hc⟩
  obtain ⟨v, hcv, hdv⟩ := h.rest
  have hv : ∃ v', v = a :: v' ∧ rest = v' ++ x := by
    cases v with
    | nil =>
      rw [hcv, List.nil_append] at hrest
      cases h.meets with
      | empty => cases hrest
      | tag s t =>
        cases hrest
        exact absurd ha (by decide)
    | cons b v =>
      rw [hcv] at hrest
      obtain ⟨rfl, rfl⟩ := List.cons.inj hrest
      exact ⟨v, rfl, rfl⟩
  obtain ⟨v, rfl, rfl⟩ := hv
  refine ⟨a, v ++ y, hdv, ha, ?_⟩
  rw [takeWhile_append_eq h.meets]
  rwa [Before, Cursor.advance, hrest, List.length_cons, List.drop_succ_cons, drop_length_takeWhile] at hc

/-- A run of admitted characters, up to a place that looks alike in both texts. -/
theorem admitted (h : Beside x y c d) {stop : List Char → Bool} (hstop : ∀ v, stop (v ++ x) = stop (v ++ y))
    {text : List Char} (hread : c.admitted stop = .ok (text, c')) (hc : Before x c') :
    ∃ d', d.admitted stop = .ok (text, d') ∧ Beside x y c' d' := by
  obtain ⟨v, hcv, hdv⟩ := h.rest
  unfold Cursor.admitted at hread ⊢
  rw [hcv] at hread
  rw [hdv]
  generalize c.position = p at hread
  generalize d.position = q
  clear hcv hdv
  induction v generalizing p q text with
  | nil =>
    have hmeets := h.meets
    cases hmeets with
    | empty =>
      cases hread
      exact ⟨_, rfl, h.meets, [], rfl, rfl⟩
    | tag s t =>
      have hstart := hstop []
      rw [List.nil_append] at hread hstart ⊢
      rw [Cursor.admittedFrom, if_neg (by decide)] at hread ⊢
      rw [List.nil_append] at hstart
      by_cases hs : stop ('<' :: 'm' :: s) = true
      · rw [if_pos hs] at hread
        rw [← hstart, if_pos hs]
        cases hread
        exact ⟨_, rfl, h.meets, [], rfl, rfl⟩
      · -- the tag would be part of the run
        rw [if_neg hs] at hread
        obtain ⟨⟨text', c₁⟩, hread', heq⟩ := map_eq_ok.1 hread
        cases heq
        have hlen := ((Cursor.yields_admittedFrom stop _ _).of_eq_ok hread').rest.length_le
        rw [Before, List.length_cons] at hc
        exact absurd (Nat.lt_of_lt_of_le hc hlen) (Nat.lt_irrefl _)
  | cons a v ih =>
    have hsame := hstop (a :: v)
    rw [List.cons_append, Cursor.admittedFrom] at hread ⊢
    rw [List.cons_append, List.cons_append] at hsame
    split at hread
    · cases hread
    · rename_i ha
      rw [if_neg ha, ← hsame]
      split at hread
      · rename_i hs
        rw [if_pos hs]
        cases hread
        exact ⟨_, rfl, h.meets, a :: v, rfl, rfl⟩
      · rename_i hs
        rw [if_neg hs]
        obtain ⟨⟨text', c₁⟩, hread', heq⟩ := map_eq_ok.1 hread
        cases heq
        obtain ⟨d', hd', hbeside⟩ := ih _ hread' (q.next a)
        exact ⟨d', by rw [hd']; rfl, hbeside⟩

/-! ## In front of the root -/

theorem readComment (h : Beside x y c d) (hread : readComment c = .ok c') (hc : Before x c') :
    ∃ d', readComment d = .ok d' ∧ Beside x y c' d' := by
  obtain ⟨text, c₁, htext, hend, hhyphens⟩ := readComment_eq_ok.1 hread
  have hc₁ := ((c₁.yields_expectWord _).of_eq_ok hend).before hc
  have hc₀ := ((Cursor.yields_admitted _ _).of_eq_ok htext).before hc₁
  obtain ⟨d₁, hd₁, h₁⟩ := (h.advance hc₀).admitted (starts_append_eq h.meets (by decide)) htext hc₁
  obtain ⟨d', hd', h'⟩ := h₁.expectWord (by decide) hend hc
  exact ⟨d', readComment_eq_ok.2 ⟨text, d₁, hd₁, hd', hhyphens⟩, h'⟩

theorem readInstruction (h : Beside x y c d) (hread : readInstruction c = .ok c') (hc : Before x c') :
    ∃ d', readInstruction d = .ok d' ∧ Beside x y c' d' := by
  obtain ⟨hsees, name, c₁, text, c₂, hname, htext, hend⟩ := readInstruction_eq_ok.1 hread
  have hc₂ := ((c₂.yields_expectWord _).of_eq_ok hend).before hc
  have hspace := ((Cursor.yields_admitted _ _).of_eq_ok htext).before hc₂
  have hc₁ := c₁.reaches_skipSpace.before hspace
  have hc₀ := ((Cursor.yields_name _).of_eq_ok hname).before hc₁
  obtain ⟨d₁, hd₁, h₁⟩ := (h.advance hc₀).name hname hc₁
  obtain ⟨d₂, hd₂, h₂⟩ := (h₁.skipSpace hspace).admitted (starts_append_eq h.meets (by decide)) htext hc₂
  obtain ⟨d', hd', h'⟩ := h₂.expectWord (by decide) hend hc
  exact ⟨d', readInstruction_eq_ok.2 ⟨(h.sees (by decide)).trans hsees, name, d₁, text, d₂, hd₁, hd₂, hd'⟩, h'⟩

theorem readAttribute (h : Beside x y c d) {name : QName} {raw : List Char} {start : Position}
    (hread : readAttribute c = .ok (name, raw, start, c')) (hc : Before x c') :
    ∃ start' d', readAttribute d = .ok (name, raw, start', d') ∧ Beside x y c' d' := by
  obtain ⟨c₁, c₂, quote, c₃, c₄, hname, hequals, hquote, -, hraw, hend⟩ := readAttribute_eq_ok.1 hread
  have hc₄ := ((c₄.yields_expect _).of_eq_ok hend).before hc
  have hc₃ := ((c₃.yields_admitted _).of_eq_ok hraw).before hc₄
  have hs₂ := ((Cursor.yields_expectQuote _).of_eq_ok hquote).before hc₃
  have hc₂ := c₂.reaches_skipSpace.before hs₂
  have hs₁ := ((Cursor.yields_expect _ _).of_eq_ok hequals).before hc₂
  have hc₁ := c₁.reaches_skipSpace.before hs₁
  obtain ⟨d₁, hd₁, h₁⟩ := h.qname hname hc₁
  obtain ⟨d₂, hd₂, h₂⟩ := (h₁.skipSpace hs₁).expect hequals hc₂
  obtain ⟨d₃, hd₃, h₃⟩ := (h₂.skipSpace hs₂).expectQuote hquote hc₃
  have hstop : ∀ v, (decide ((v ++ x).head? = some quote) || decide ((v ++ x).head? = some '<')) =
      (decide ((v ++ y).head? = some quote) || decide ((v ++ y).head? = some '<')) := fun v => by
    rw [head?_append_eq h.meets]
  obtain ⟨d₄, hd₄, h₄⟩ := h₃.admitted hstop hraw hc₄
  obtain ⟨d', hd', h'⟩ := h₄.expect hend hc
  exact ⟨_, d', readAttribute_eq_ok.2 ⟨d₁, d₂, quote, d₃, d₄, hd₁, hd₂, hd₃, rfl, hd₄, hd'⟩, h'⟩

theorem length_lt (h : Beside x y c d) {d' : Cursor} (h' : Beside x y c' d') (hless : c'.rest.length < c.rest.length) :
    d'.rest.length < d.rest.length := by
  obtain ⟨v, hc, hd⟩ := h.rest
  obtain ⟨v', hc', hd'⟩ := h'.rest
  rw [hc, hc', List.length_append, List.length_append] at hless
  rw [hd, hd', List.length_append, List.length_append]
  omega

theorem skipMisc (h : Beside x y c d) (hread : skipMisc c = .ok c') (hc : Before x c') :
    ∃ d', skipMisc d = .ok d' ∧ Beside x y c' d' := by
  induction hlen : c.rest.length using Nat.strongRecOn generalizing c d with
  | ind len ih =>
    subst hlen
    have hmisc := skipMisc_eq_ok.1 hread
    have hspace : Before x c.skipSpace := by
      split at hmisc
      · obtain ⟨next, hnext, -, hrest⟩ := hmisc
        exact (((yields_readComment _).of_eq_ok hnext).trans ((yields_skipMisc _).of_eq_ok hrest)).before hc
      · split at hmisc
        · obtain ⟨next, hnext, -, hrest⟩ := hmisc
          exact (((yields_readInstruction _).of_eq_ok hnext).trans ((yields_skipMisc _).of_eq_ok hrest)).before hc
        · exact hmisc ▸ hc
    have hhere := h.skipSpace hspace
    have hforeign : isForeign "<!--".toList = true ∧ isForeign "<?".toList = true := by decide
    rw [← hhere.sees hforeign.1, ← hhere.sees hforeign.2] at hmisc
    split at hmisc
    · rename_i hcomment
      obtain ⟨next, hnext, hless, hrest⟩ := hmisc
      obtain ⟨e, he, hbeside⟩ := hhere.readComment hnext (((yields_skipMisc _).of_eq_ok hrest).before hc)
      obtain ⟨d', hd', h'⟩ := ih _ hless hbeside hrest rfl
      refine ⟨d', skipMisc_eq_ok.2 ?_, h'⟩
      rw [if_pos hcomment]
      exact ⟨e, he, h.length_lt hbeside hless, hd'⟩
    · rename_i hcomment
      split at hmisc
      · rename_i hinstruction
        obtain ⟨next, hnext, hless, hrest⟩ := hmisc
        obtain ⟨e, he, hbeside⟩ := hhere.readInstruction hnext (((yields_skipMisc _).of_eq_ok hrest).before hc)
        obtain ⟨d', hd', h'⟩ := ih _ hless hbeside hrest rfl
        refine ⟨d', skipMisc_eq_ok.2 ?_, h'⟩
        rw [if_neg hcomment, if_pos hinstruction]
        exact ⟨e, he, h.length_lt hbeside hless, hd'⟩
      · rename_i hinstruction
        refine ⟨d.skipSpace, skipMisc_eq_ok.2 ?_, hmisc ▸ hhere⟩
        rw [if_neg hcomment, if_neg hinstruction]

theorem declarationSpace (h : Beside x y c d) (hread : declarationSpace c = .ok c') (hc : Before x c') :
    ∃ d', declarationSpace d = .ok d' ∧ Beside x y c' d' := by
  have hspace := declarationSpace_eq_ok.1 hread
  have hforeign : isForeign "?>".toList = true := by decide
  rw [← h.isEmpty, ← h.atSpace, ← h.sees hforeign] at hspace
  split at hspace
  · rename_i hend
    exact ⟨d, declarationSpace_eq_ok.2 (by rw [if_pos hend]), hspace ▸ h⟩
  · rename_i hend
    split at hspace
    · rename_i hblank
      subst hspace
      exact ⟨d.skipSpace, declarationSpace_eq_ok.2 (by rw [if_neg hend, if_pos hblank]), h.skipSpace hc⟩
    · rename_i hblank
      refine ⟨d, declarationSpace_eq_ok.2 ?_, hspace.2 ▸ h⟩
      rw [if_neg hend, if_neg hblank]
      exact ⟨hspace.1, rfl⟩

theorem declarationPart (h : Beside x y c d) (hword : isForeign word.toList = true)
    (hread : declarationPart word c = .ok c') (hc : Before x c') :
    ∃ d', declarationPart word d = .ok d' ∧ Beside x y c' d' := by
  have hpart := declarationPart_eq_ok.1 hread
  by_cases hsees : c.sees word = true
  · rw [if_pos hsees] at hpart
    obtain ⟨name, raw, start, hpart⟩ := hpart
    obtain ⟨start', d', hd', h'⟩ := h.readAttribute hpart hc
    refine ⟨d', declarationPart_eq_ok.2 ?_, h'⟩
    rw [h.sees hword, if_pos hsees]
    exact ⟨name, raw, start', hd'⟩
  · rw [if_neg hsees] at hpart
    subst hpart
    refine ⟨d, declarationPart_eq_ok.2 ?_, h⟩
    rw [h.sees hword, if_neg hsees]

theorem readDeclaration (h : Beside x y c d) (hread : readDeclaration c = .ok c') (hc : Before x c') :
    ∃ d', readDeclaration d = .ok d' ∧ Beside x y c' d' := by
  obtain ⟨c₁, c₂, c₃, c₄, c₅, hfirst, hversion, hpart, hsecond, hencoding, hstandalone, hend⟩ :=
    readDeclaration_eq_ok.1 hread
  have hs₅ := ((Cursor.yields_expectWord _ _).of_eq_ok hend).before hc
  have hc₅ := c₅.reaches_skipSpace.before hs₅
  have hc₄ := ((yields_declarationPart _ _).of_eq_ok hstandalone).before hc₅
  have hc₃ : Before x c₃ := by
    split at hencoding
    · obtain ⟨e, he, hspace⟩ := hencoding
      exact (((yields_declarationPart _ _).of_eq_ok he).trans ((yields_declarationSpace _).of_eq_ok hspace)).before hc₄
    · exact hencoding ▸ hc₄
  have hc₂ := ((yields_declarationSpace _).of_eq_ok hsecond).before hc₃
  have hc₁ := ((yields_declarationPart _ _).of_eq_ok hpart).before hc₂
  have hc₀ := ((yields_declarationSpace _).of_eq_ok hfirst).before hc₁
  obtain ⟨d₁, hd₁, h₁⟩ := (h.advance hc₀).declarationSpace hfirst hc₁
  obtain ⟨d₂, hd₂, h₂⟩ := h₁.declarationPart (by decide) hpart hc₂
  obtain ⟨d₃, hd₃, h₃⟩ := h₂.declarationSpace hsecond hc₃
  obtain ⟨d₄, hd₄, h₄⟩ : ∃ d₄, (if d₃.sees "encoding" then
      ∃ e, Xml.declarationPart "encoding" d₃ = .ok e ∧ Xml.declarationSpace e = .ok d₄ else d₃ = d₄) ∧
      Beside x y c₄ d₄ := by
    rw [h₃.sees (by decide)]
    split at hencoding
    · rename_i hsees
      obtain ⟨e, he, hspace⟩ := hencoding
      obtain ⟨f, hf, hbeside⟩ :=
        h₃.declarationPart (by decide) he (((yields_declarationSpace _).of_eq_ok hspace).before hc₄)
      obtain ⟨d₄, hd₄, h₄⟩ := hbeside.declarationSpace hspace hc₄
      exact ⟨d₄, by rw [if_pos hsees]; exact ⟨f, hf, hd₄⟩, h₄⟩
    · rename_i hsees
      exact ⟨d₃, by rw [if_neg hsees], hencoding ▸ h₃⟩
  obtain ⟨d₅, hd₅, h₅⟩ := h₄.declarationPart (by decide) hstandalone hc₅
  obtain ⟨d', hd', h'⟩ := (h₅.skipSpace hs₅).expectWord (by decide) hend hc
  exact ⟨d', readDeclaration_eq_ok.2 ⟨d₁, d₂, d₃, d₄, d₅, hd₁, (h₁.sees (by decide)).trans hversion, hd₂, hd₃, hd₄,
    hd₅, hd'⟩, h'⟩

/-- **What stands before the root is read alike** in both texts. -/
theorem readProlog (h : Beside x y c d) (hread : readProlog c = .ok c') (hc : Before x c') :
    ∃ d', readProlog d = .ok d' ∧ Beside x y c' d' := by
  obtain ⟨c₀, hmark, c₁, hdeclaration, hmisc, hdoctype⟩ := readProlog_eq_ok.1 hread
  have hc₁ := ((yields_skipMisc _).of_eq_ok hmisc).before hc
  have hc₀ : Before x c₀ := by
    split at hdeclaration
    · exact ((yields_readDeclaration _).of_eq_ok hdeclaration).before hc₁
    · exact hdeclaration ▸ hc₁
  obtain ⟨d₀, hd₀, h₀⟩ : ∃ d₀, (if d.sees "\ufeff" then d.advance 1 else d) = d₀ ∧ Beside x y c₀ d₀ := by
    rw [h.sees (by decide)]
    split at hmark
    · rename_i hsees
      subst hmark
      exact ⟨_, if_pos hsees, h.advance hc₀⟩
    · rename_i hsees
      exact ⟨_, if_neg hsees, hmark ▸ h⟩
  obtain ⟨d₁, hd₁, h₁⟩ : ∃ d₁, (if d₀.sees "<?xml " then Xml.readDeclaration d₀ = .ok d₁ else d₀ = d₁) ∧
      Beside x y c₁ d₁ := by
    rw [h₀.sees (by decide)]
    split at hdeclaration
    · rename_i hsees
      obtain ⟨d₁, hd₁, h₁⟩ := h₀.readDeclaration hdeclaration hc₁
      exact ⟨d₁, by rwa [if_pos hsees], h₁⟩
    · rename_i hsees
      exact ⟨d₀, by rw [if_neg hsees], hdeclaration ▸ h₀⟩
  obtain ⟨d', hd', h'⟩ := h₁.skipMisc hmisc hc
  exact ⟨d', readProlog_eq_ok.2 ⟨d₀, hd₀, d₁, hd₁, hd', (h'.sees (by decide)).trans hdoctype⟩, h'⟩

end Beside

end MathMarkup.Xml
