import MathMarkup.Proofs.Normal.Lexing

/-!
# How characters are read

A character is read as it stands, behind a backslash, or in a comment: `Mode.after` is the mode that a
text leaves behind, character by character. It tells whether the last token is a comment
(`after_eq_comment_iff`), and in front of which backslashes a text can be cut without changing a token
(`tokensFrom_append_slash`).
-/

namespace MathMarkup.Tex

open Text

/-- How the next character is read. -/
inductive Mode where
  | plain
  /-- Behind a backslash. -/
  | escaped
  /-- Behind a percent sign, up to the end of the line. -/
  | comment
deriving DecidableEq, Repr

namespace Mode

def next : Mode → Char → Mode
  | plain, c => if c = '\\' then escaped else if c = '%' then comment else plain
  | escaped, _ => plain
  | comment, c => if c = '\n' ∨ c = '\r' then plain else comment

/-- The mode that a text leaves behind. -/
def after (m : Mode) (s : List Char) : Mode := s.foldl next m

/-- Nothing of the text is read as a comment. -/
def Silent : Mode → List Char → Prop
  | m, [] => m ≠ comment
  | m, c :: s => m ≠ comment ∧ (m.next c).Silent s

end Mode

variable {m : Mode} {kind : TokenKind} {offset k : Nat} {c : Char} {s t name : List Char}

instance Mode.decidableSilent : (m : Mode) → (s : List Char) → Decidable (m.Silent s)
  | m, [] => inferInstanceAs (Decidable (m ≠ .comment))
  | m, c :: s =>
    have := decidableSilent (m.next c) s
    inferInstanceAs (Decidable (m ≠ .comment ∧ (m.next c).Silent s))

@[simp] theorem after_nil (m : Mode) : m.after [] = m := rfl

@[simp] theorem after_cons (m : Mode) (c : Char) (s : List Char) : m.after (c :: s) = (m.next c).after s := rfl

theorem after_append (m : Mode) (s t : List Char) : m.after (s ++ t) = (m.after s).after t := List.foldl_append

theorem next_eq_plain (hslash : c ≠ '\\') (hpercent : c ≠ '%') (hm : m ≠ .comment) : m.next c = .plain := by
  cases m with
  | plain => rw [Mode.next, if_neg hslash, if_neg hpercent]
  | escaped => rfl
  | comment => exact absurd rfl hm

theorem next_eq_escaped (h : m.next c = .escaped) : c = '\\' := by
  cases m with
  | plain =>
    rw [Mode.next] at h
    split at h
    · assumption
    · split at h <;> cases h
  | escaped => cases h
  | comment =>
    rw [Mode.next] at h
    split at h <;> cases h

theorem after_of_plain (hs : ∀ c ∈ s, c ≠ '\\' ∧ c ≠ '%') : Mode.plain.after s = .plain := by
  induction s with
  | nil => rfl
  | cons c s ih =>
    obtain ⟨hc, hs⟩ := List.forall_mem_cons.1 hs
    rw [after_cons, next_eq_plain hc.1 hc.2 Mode.noConfusion, ih hs]

theorem plain_of_isBlank (hs : ∀ c ∈ s, isBlank c = true) : ∀ c ∈ s, c ≠ '\\' ∧ c ≠ '%' := by
  intro c hc
  obtain ⟨hslash, hpercent, -⟩ := not_isSpecial_iff.1 (not_isSpecial_of_isBlank (hs c hc))
  exact ⟨hslash, hpercent⟩

/-- A character that does not end its line. -/
def isInLine (c : Char) : Bool := c != '\n' && c != '\r'

theorem after_comment (hs : ∀ c ∈ s, isInLine c = true) : Mode.comment.after s = .comment := by
  induction s with
  | nil => rfl
  | cons c s ih =>
    obtain ⟨hc, hs⟩ := List.forall_mem_cons.1 hs
    rw [after_cons, Mode.next, if_neg (by simpa [isInLine, not_or] using hc), ih hs]

/-- What ends a comment is read as in plain text. -/
theorem after_comment_cons (hc : isInLine c = false) (s : List Char) :
    Mode.comment.after (c :: s) = Mode.plain.after (c :: s) := by
  simp only [isInLine, Bool.and_eq_false_iff, bne_eq_false_iff_eq] at hc
  rcases hc with rfl | rfl <;> rfl

/-- A comment lasts to the end of its line. -/
theorem comment_cases (s : List Char) : (∀ c ∈ s, isInLine c = true) ∨
    ∃ x c y, s = x ++ c :: y ∧ (∀ d ∈ x, isInLine d = true) ∧ isInLine c = false := by
  have hs : s.takeWhile isInLine ++ s.dropWhile isInLine = s := List.takeWhile_append_dropWhile
  have hline : ∀ c ∈ s.takeWhile isInLine, isInLine c = true := fun c hc =>
    List.mem_takeWhile_imp hc
  cases hrest : s.dropWhile isInLine with
  | nil =>
    rw [hrest, List.append_nil] at hs
    exact Or.inl (hs ▸ hline)
  | cons c y =>
    rw [hrest] at hs
    exact Or.inr ⟨s.takeWhile isInLine, c, y, hs.symm, hline, eq_false_of_mem_head?_dropWhile (by rw [hrest]; rfl)⟩

/-! ## Texts without comments -/

theorem Mode.Silent.ne_comment (h : m.Silent s) : m ≠ .comment := by
  cases s with
  | nil => exact h
  | cons c s => exact h.1

theorem silent_append : m.Silent (s ++ t) ↔ m.Silent s ∧ (m.after s).Silent t := by
  induction s generalizing m with
  | nil => exact ⟨fun h => ⟨h.ne_comment, h⟩, And.right⟩
  | cons c s ih => exact (and_congr_right fun _ => ih).trans and_assoc.symm

theorem Mode.Silent.after_ne_comment (h : m.Silent s) : m.after s ≠ .comment := by
  rw [← List.append_nil s] at h
  exact (silent_append.1 h).2

/-- Only a backslash leaves an escape behind. -/
theorem Mode.Silent.after_eq_plain (h : m.Silent s) (hs : ∃ c ∈ s.getLast?, c ≠ '\\') : m.after s = .plain := by
  obtain ⟨c, hc, hslash⟩ := hs
  obtain ⟨t, rfl⟩ := List.getLast?_eq_some_iff.1 hc
  have hne := h.after_ne_comment
  rw [after_append] at hne ⊢
  cases hlast : (m.after t).after [c] with
  | plain => rfl
  | escaped => exact absurd (next_eq_escaped hlast) hslash
  | comment => exact absurd hlast hne

theorem silent_of_plain (hs : ∀ c ∈ s, c ≠ '\\' ∧ c ≠ '%') (hm : m ≠ .comment) : m.Silent s := by
  induction s generalizing m with
  | nil => exact hm
  | cons c s ih =>
    obtain ⟨hc, hs⟩ := List.forall_mem_cons.1 hs
    refine ⟨hm, ih hs ?_⟩
    rw [next_eq_plain hc.1 hc.2 hm]
    exact Mode.noConfusion

/-- A name behind a backslash is read the same in plain text and behind another backslash. -/
theorem silent_name (hne : name ≠ []) (hletters : ∀ c ∈ name, isCommandLetter c = true) (hm : m ≠ .comment) :
    m.Silent ('\\' :: name) := by
  obtain ⟨c, name, rfl⟩ := List.exists_cons_of_ne_nil hne
  obtain ⟨hc, hname⟩ := List.forall_mem_cons.1 hletters
  have hplain : ∀ c, isCommandLetter c = true → c ≠ '\\' ∧ c ≠ '%' := fun c hc => by
    constructor <;> (rintro rfl; cases hc)
  have hslash : m.next '\\' ≠ .comment := by
    cases m with
    | plain => exact Mode.noConfusion
    | escaped => exact Mode.noConfusion
    | comment => exact absurd rfl hm
  exact ⟨hm, silent_of_plain (fun d hd => hplain d (hletters d hd)) hslash⟩

theorem after_name (hne : name ≠ []) (hletters : ∀ c ∈ name, isCommandLetter c = true) (hm : m ≠ .comment) :
    m.after ('\\' :: name) = .plain := by
  refine (silent_name hne hletters hm).after_eq_plain ⟨name.getLast hne, ?_, ?_⟩
  · rw [List.getLast?_cons_of_ne_nil hne]
    exact List.getLast?_eq_some_getLast hne
  · intro hslash
    have hlast := hletters _ (List.getLast_mem hne)
    rw [hslash] at hlast
    cases hlast

/-! ## One token -/

theorem munch_slash_cases (h : munch '\\' s = (kind, k)) :
    kind ≠ .comment ∧ ((s = [] ∧ k = 0) ∨ (∃ d t, s = d :: t ∧ isCommandLetter d = false ∧ k = 1) ∨
      ∃ name t, s = name ++ t ∧ IsWordBefore name t ∧ k = name.length) := by
  rw [munch, if_pos rfl] at h
  cases s with
  | nil =>
    obtain ⟨rfl, rfl⟩ := Prod.mk.inj h
    exact ⟨by decide, Or.inl ⟨rfl, rfl⟩⟩
  | cons d s =>
    rw [afterBackslash] at h
    by_cases hslash : d = '\\'
    · rw [if_pos hslash] at h
      obtain ⟨rfl, rfl⟩ := Prod.mk.inj h
      exact ⟨by decide, Or.inr (Or.inl ⟨d, s, rfl, by rw [hslash]; rfl, rfl⟩)⟩
    · rw [if_neg hslash] at h
      by_cases hletter : isCommandLetter d = true
      · rw [if_pos hletter] at h
        obtain ⟨rfl, rfl⟩ := Prod.mk.inj h
        obtain ⟨name, rest, hs, hname⟩ := exists_word hletter s
        refine ⟨by decide, Or.inr (Or.inr ⟨name, rest, hs, hname, ?_⟩)⟩
        rw [hs, (takeWhile_append_of_head hname.letters hname.behind).1]
      · rw [if_neg hletter] at h
        obtain ⟨rfl, rfl⟩ := Prod.mk.inj h
        exact ⟨by decide, Or.inr (Or.inl ⟨d, s, rfl, Bool.eq_false_iff.2 hletter, rfl⟩)⟩

/-- A word command is a backslash and a word. -/
theorem exists_word_of_munch {kind : TokenKind} {k : Nat} (hm : munch c s = (kind, k))
    (hword : isWordCommand kind (c :: s.take k) = true) :
    ∃ name rest, c = '\\' ∧ s = name ++ rest ∧ IsWordBefore name rest ∧ k = name.length := by
  simp only [isWordCommand, Bool.and_eq_true, beq_iff_eq, decide_eq_true_eq] at hword
  obtain ⟨⟨rfl, hlength⟩, hletters⟩ := hword
  obtain rfl := eq_slash_of_munch hm
  rcases (munch_slash_cases hm).2 with ⟨rfl, rfl⟩ | ⟨d, t, rfl, hd, rfl⟩ | ⟨name, t, rfl, hname, rfl⟩
  · exact absurd hlength (by simp)
  · rw [List.tail_cons, List.take_succ_cons, List.all_cons, hd, Bool.false_and] at hletters
    cases hletters
  · exact ⟨name, t, rfl, rfl, hname, rfl⟩

theorem munch_comment_iff (h : munch c s = (kind, k)) : kind = .comment ↔ c = '%' := by
  constructor
  · rintro rfl
    by_cases hslash : c = '\\'
    · subst hslash
      exact absurd rfl (munch_slash_cases h).1
    · rw [munch, if_neg hslash] at h
      split at h
      · assumption
      · split at h
        · rename_i kind hkind
          obtain ⟨rfl, -⟩ := Prod.mk.inj h
          revert hkind
          unfold TokenKind.ofChar?
          split <;> simp
        · split at h <;> cases h
  · rintro rfl
    exact (congrArg Prod.fst h).symm

/-- A token that is no comment is read in plain text, and leaves it unless it ends the text. -/
theorem silent_token (h : munch c s = (kind, k)) (hkind : kind ≠ .comment) :
    Mode.plain.Silent (c :: s.take k) ∧ (s.drop k ≠ [] → Mode.plain.after (c :: s.take k) = .plain) := by
  by_cases hslash : c = '\\'
  · subst hslash
    rcases (munch_slash_cases h).2 with ⟨rfl, rfl⟩ | ⟨d, t, rfl, -, rfl⟩ | ⟨name, t, rfl, hname, rfl⟩
    · exact ⟨⟨Mode.noConfusion, Mode.noConfusion⟩, fun hne => absurd rfl hne⟩
    · exact ⟨⟨Mode.noConfusion, Mode.noConfusion, Mode.noConfusion⟩, fun _ => rfl⟩
    · rw [List.take_left]
      exact ⟨silent_name hname.ne_nil hname.letters Mode.noConfusion,
        fun _ => after_name hname.ne_nil hname.letters Mode.noConfusion⟩
  · have hchars := munch_chars h hslash hkind
    exact ⟨silent_of_plain hchars Mode.noConfusion, fun _ => after_of_plain hchars⟩

/-- A text without comments starts with another token, and goes on without comments. -/
theorem Mode.Silent.munch (h : Mode.plain.Silent (c :: s)) (hm : munch c s = (kind, k)) :
    kind ≠ .comment ∧ Mode.plain.Silent (s.drop k) := by
  have hkind : kind ≠ .comment := by
    intro hkind
    obtain rfl := (munch_comment_iff hm).1 hkind
    exact h.2.ne_comment rfl
  refine ⟨hkind, ?_⟩
  by_cases hnil : s.drop k = []
  · rw [hnil]
    exact Mode.noConfusion
  · have hs : c :: s = c :: s.take k ++ s.drop k := by simp
    rw [hs, silent_append, (silent_token hm hkind).2 hnil] at h
    exact h.2

theorem munch_percent (s : List Char) : munch '%' s = (.comment, (s.takeWhile isInLine).length) := rfl

/-- A comment leaves a comment, unless the next character ends it. -/
theorem after_comment_token (h : munch '%' s = (kind, k)) :
    Mode.plain.after ('%' :: s.take k) = .comment ∧ ∀ c ∈ (s.drop k).head?, isInLine c = false := by
  obtain ⟨-, rfl⟩ := Prod.mk.inj ((munch_percent s).symm.trans h)
  rw [take_length_takeWhile, drop_length_takeWhile]
  exact ⟨after_comment fun c hc => List.mem_takeWhile_imp hc, fun c hc => eq_false_of_mem_head?_dropWhile hc⟩

/-- The tokens behind the first one are read in plain text. -/
theorem after_drop (h : munch c s = (kind, k)) (hrest : s.drop k ≠ []) :
    Mode.plain.after (c :: s) = Mode.plain.after (s.drop k) := by
  have hs : c :: s = c :: s.take k ++ s.drop k := by simp
  rw [hs, after_append]
  by_cases hkind : kind = .comment
  · obtain rfl := (munch_comment_iff h).1 hkind
    obtain ⟨hcomment, hend⟩ := after_comment_token h
    obtain ⟨e, rest, hrest⟩ := List.exists_cons_of_ne_nil hrest
    rw [hcomment, hrest, after_comment_cons (hend e (by rw [hrest]; rfl))]
  · rw [(silent_token h hkind).2 hrest]

/-! ## The tokens of a text -/

/-- **A comment is open** behind a text when its last token is one. -/
theorem after_eq_comment_iff (offset : Nat) (s : List Char) :
    Mode.plain.after s = .comment ↔ ∃ t ∈ (tokensFrom offset s).getLast?, t.kind = .comment := by
  fun_induction tokensFrom offset s with
  | case1 => simp
  | case2 offset c s kind k hm text ih =>
    by_cases hrest : s.drop k = []
    · have hs : c :: s = text := by
        rw [← List.append_nil text, ← hrest]
        simp [text]
      rw [hrest, tokensFrom, hs]
      simp only [List.getLast?_singleton, Option.mem_def, Option.some.injEq, exists_eq_left']
      constructor
      · exact fun hcomment => Decidable.byContradiction fun hkind =>
          (silent_token hm hkind).1.after_ne_comment hcomment
      · intro hkind
        obtain rfl := (munch_comment_iff hm).1 hkind
        exact (after_comment_token hm).1
    · have hne : tokensFrom (offset + byteLength text) (s.drop k) ≠ [] := by
        obtain ⟨d, rest, hdrop⟩ := List.exists_cons_of_ne_nil hrest
        rw [hdrop, tokensFrom]
        exact List.cons_ne_nil _ _
      rw [after_drop hm hrest, ih, List.getLast?_cons_of_ne_nil hne]

/-- A text without comment tokens is read without comments. -/
theorem silent_of_tokensFrom (h : ∀ t ∈ tokensFrom offset s, t.kind ≠ .comment) : Mode.plain.Silent s := by
  fun_induction tokensFrom offset s with
  | case1 => exact Mode.noConfusion
  | case2 offset c s kind k hm text ih =>
    obtain ⟨hkind, hrest⟩ := List.forall_mem_cons.1 h
    obtain ⟨hsilent, hplain⟩ := silent_token hm hkind
    have hs : c :: s = c :: s.take k ++ s.drop k := by simp
    rw [hs, silent_append]
    refine ⟨hsilent, ?_⟩
    by_cases hnil : s.drop k = []
    · rw [hnil]
      exact hsilent.after_ne_comment
    · rw [hplain hnil]
      exact ih hrest

/-- A run that a backslash ends does not go on behind a text. -/
theorem takeWhile_append_slash {p : Char → Bool} (hp : p '\\' = false) (s y : List Char) :
    (s ++ '\\' :: y).takeWhile p = s.takeWhile p := by
  rw [List.takeWhile_append]
  split
  · rename_i hall
    rw [List.takeWhile_cons_of_neg (by simp [hp]), List.append_nil,
      (List.takeWhile_prefix p).eq_of_length hall]
  · rfl

/-- A backslash that is read in plain text ends the first token in front of it. -/
theorem munch_append_slash (h : Mode.plain.after (c :: s) = .plain) (y : List Char) :
    munch c (s ++ '\\' :: y) = munch c s := by
  by_cases hslash : c = '\\'
  · subst hslash
    cases s with
    | nil => cases h
    | cons d s =>
      have hrun : (d :: s ++ '\\' :: y).takeWhile isCommandLetter = (d :: s).takeWhile isCommandLetter :=
        takeWhile_append_slash rfl _ y
      rw [munch, munch, if_pos rfl, if_pos rfl, List.cons_append, afterBackslash, afterBackslash,
        ← List.cons_append, hrun]
  by_cases hpercent : c = '%'
  · subst hpercent
    rw [munch_percent, munch_percent]
    rcases comment_cases s with hs | ⟨x, d, z, rfl, hx, hd⟩
    · -- a comment that lasts to the end of the text is still open there
      have hcomment : Mode.comment.after s = .plain := h
      rw [after_comment hs] at hcomment
      cases hcomment
    · have hend : ∀ t, ∀ c ∈ (d :: t).head?, isInLine c = false := fun t c hc => Option.some.inj hc ▸ hd
      rw [List.append_assoc, (takeWhile_append_of_head hx (hend z)).1, List.cons_append,
        (takeWhile_append_of_head hx (hend _)).1]
  have hblank : (s ++ '\\' :: y).takeWhile isBlank = s.takeWhile isBlank := takeWhile_append_slash (by decide) s y
  have htext : (s ++ '\\' :: y).takeWhile (fun n => !isSpecial n && !isBlank n) =
      s.takeWhile fun n => !isSpecial n && !isBlank n := takeWhile_append_slash (by decide) s y
  simp only [munch, hslash, hpercent, ↓reduceIte, hblank, htext]

theorem munch_le_length (h : munch c s = (kind, k)) : k ≤ s.length := by
  by_cases hslash : c = '\\'
  · subst hslash
    rcases (munch_slash_cases h).2 with ⟨-, rfl⟩ | ⟨d, t, rfl, -, rfl⟩ | ⟨name, t, rfl, -, rfl⟩
    · exact Nat.zero_le _
    · simp
    · simp
  · rw [munch, if_neg hslash] at h
    split at h
    · rw [← (Prod.mk.inj h).2]
      exact (List.takeWhile_prefix _).length_le
    · split at h
      · rw [← (Prod.mk.inj h).2]
        exact Nat.zero_le _
      · split at h
        · rw [← (Prod.mk.inj h).2]
          exact (List.takeWhile_prefix _).length_le
        · rw [← (Prod.mk.inj h).2]
          exact (List.takeWhile_prefix _).length_le

/-- A text can be cut where the first token ends by itself, at each place that `P` goes on to. -/
theorem tokensFrom_append {P : List Char → Prop} {y : List Char}
    (hmunch : ∀ c s, P (c :: s) → munch c (s ++ y) = munch c s)
    (hdrop : ∀ c s kind k, P (c :: s) → munch c s = (kind, k) → s.drop k ≠ [] → P (s.drop k))
    (h : s ≠ [] → P s) (offset : Nat) :
    tokensFrom offset (s ++ y) = tokensFrom offset s ++ tokensFrom (offset + byteLength s) y := by
  fun_induction tokensFrom offset s with
  | case1 offset => rfl
  | case2 offset c s kind k hm text ih =>
    have hP := h (List.cons_ne_nil _ _)
    have hfirst : munch c (s ++ y) = (kind, k) := by rw [hmunch c s hP, hm]
    have hle := munch_le_length hm
    have hbytes : offset + byteLength (c :: s) = offset + byteLength text + byteLength (s.drop k) := by
      conv => lhs; rw [← List.take_append_drop k s, ← List.cons_append, byteLength_append]
      rw [Nat.add_assoc]
    rw [List.cons_append, tokensFrom_cons hfirst, List.take_append_of_le_length hle,
      List.drop_append_of_le_length hle, ih (hdrop c s kind k hP hm), hbytes]
    rfl

/-- **In front of a backslash that is read in plain text** no token is cut. -/
theorem tokensFrom_append_slash (h : Mode.plain.after s = .plain) (offset : Nat) (y : List Char) :
    tokensFrom offset (s ++ '\\' :: y) = tokensFrom offset s ++ tokensFrom (offset + byteLength s) ('\\' :: y) := by
  refine tokensFrom_append (P := fun s => Mode.plain.after s = .plain) ?_ ?_ (fun _ => h) offset
  · exact fun c s hs => munch_append_slash hs y
  · intro c s kind k hs hm hrest
    rw [← after_drop hm hrest, hs]

/-- A run that ends inside a text does not go on behind it. -/
theorem takeWhile_append_of_mem {p : Char → Bool} (hc : c ∈ s) (hp : p c = false) (y : List Char) :
    (s ++ y).takeWhile p = s.takeWhile p := by
  rw [List.takeWhile_append]
  split
  · rename_i hall
    have hself : s.takeWhile p = s := (List.takeWhile_prefix p).eq_of_length hall
    have htrue := List.mem_takeWhile_imp (hself.symm ▸ hc)
    rw [hp] at htrue
    cases htrue
  · rfl

/-- A brace ends every token that is no comment. -/
theorem munch_append_close (hpercent : c ≠ '%') (hlast : (c :: s).getLast? = some '}') (y : List Char) :
    munch c (s ++ y) = munch c s := by
  cases s with
  | nil =>
    obtain rfl := Option.some.inj hlast
    rfl
  | cons d s =>
    have hmem : '}' ∈ d :: s := by
      rw [List.getLast?_cons_cons] at hlast
      exact List.mem_of_getLast? hlast
    by_cases hslash : c = '\\'
    · subst hslash
      have hrun : (d :: s ++ y).takeWhile isCommandLetter = (d :: s).takeWhile isCommandLetter :=
        takeWhile_append_of_mem hmem rfl y
      rw [munch, munch, if_pos rfl, if_pos rfl, List.cons_append, afterBackslash, afterBackslash,
        ← List.cons_append, hrun]
    have hblank : (d :: s ++ y).takeWhile isBlank = (d :: s).takeWhile isBlank :=
      takeWhile_append_of_mem hmem (by decide) y
    have htext : (d :: s ++ y).takeWhile (fun n => !isSpecial n && !isBlank n) =
        (d :: s).takeWhile fun n => !isSpecial n && !isBlank n := takeWhile_append_of_mem hmem (by decide) y
    simp only [munch, hslash, hpercent, ↓reduceIte, hblank, htext]

/-- **Behind a brace** of a text without comments no token is cut. -/
theorem tokensFrom_append_close (h : Mode.plain.Silent s) (hlast : ∀ c ∈ s.getLast?, c = '}') (offset : Nat)
    (y : List Char) :
    tokensFrom offset (s ++ y) = tokensFrom offset s ++ tokensFrom (offset + byteLength s) y := by
  refine tokensFrom_append (P := fun s => Mode.plain.Silent s ∧ s.getLast? = some '}') ?_ ?_ ?_ offset
  · rintro c s ⟨hs, hclose⟩
    refine munch_append_close ?_ hclose y
    rintro rfl
    exact hs.2.ne_comment rfl
  · rintro c s kind k ⟨hs, hclose⟩ hm hrest
    have hcut : c :: s = c :: s.take k ++ s.drop k := by simp
    rw [hcut, List.getLast?_append_of_ne_nil _ hrest] at hclose
    exact ⟨(hs.munch hm).2, hclose⟩
  · intro hne
    have hsome := List.getLast?_eq_some_getLast hne
    exact ⟨h, by rw [hsome, hlast _ hsome]⟩

end MathMarkup.Tex
