import MathMarkup.Proofs.Normal.Protection
import MathMarkup.Proofs.Text.Tokens

/-!
# Readable texts from tokens

A text without placeholder characters, comments and colors, in which `\begin{` and `\end{` are
commands with a plain name behind them, is readable (`Orderly.exists_readable`): its signs are made token
by token.
-/

namespace MathMarkup.Tex

open Text Sign

variable {us : List Sign} {c : Char} {offset : Nat} {s t w : List Char}

/-- The texts that normalizing twice is about. -/
structure Orderly (s : List Char) : Prop where
  /-- No placeholder character occurs. -/
  unmarked : hasMark s = false
  /-- No color is set. -/
  uncolored : ¬ "\\color".toList <:+: s
  /-- No comment is among the tokens. -/
  uncommented : ∀ t ∈ tokens s, t.kind ≠ .comment
  /-- Where an environment opens or closes, a command token starts. -/
  command : ∀ a word b, word = "\\begin\x7b".toList ∨ word = "\\end\x7b".toList → s = a ++ word ++ b →
    ∃ t ∈ tokens s, t.kind = .command ∧ t.offset = byteLength a
  /-- Its name holds no brace and no backslash. -/
  named : ∀ a word b, word = "\\begin\x7b".toList ∨ word = "\\end\x7b".toList → s = a ++ word ++ b →
    ∃ name rest, b = name ++ '}' :: rest ∧ ∀ c ∈ name, c ≠ '{' ∧ c ≠ '}' ∧ c ≠ '\\'

/-- It is enough to look at each place of a text. -/
theorem Orderly.of_drop (hunmarked : hasMark s = false) (huncolored : contains "\\color".toList s = false)
    (huncommented : ∀ t ∈ tokens s, t.kind ≠ .comment)
    (hplaces : ∀ word ∈ ["\\begin\x7b".toList, "\\end\x7b".toList], ∀ n ≤ s.length, ∀ b ∈ after? word (s.drop n),
      (∃ t ∈ tokens s, t.kind = .command ∧ t.offset = byteLength (s.take n)) ∧
        (b.dropWhile fun c => c ≠ '{' ∧ c ≠ '}' ∧ c ≠ '\\').head? = some '}') : Orderly s := by
  have hplace : ∀ a word b, word = "\\begin\x7b".toList ∨ word = "\\end\x7b".toList → s = a ++ word ++ b →
      (∃ t ∈ tokens s, t.kind = .command ∧ t.offset = byteLength a) ∧
        (b.dropWhile fun c => c ≠ '{' ∧ c ≠ '}' ∧ c ≠ '\\').head? = some '}' := by
    intro a word b hword hs
    have hdrop : s.drop a.length = word ++ b := by rw [hs, List.append_assoc, List.drop_left]
    have htake : s.take a.length = a := by rw [hs, List.append_assoc, List.take_left]
    have hlength : a.length ≤ s.length := by
      rw [hs, List.append_assoc, List.length_append]
      exact Nat.le_add_right _ _
    have hfound := hplaces word (by simpa using hword) a.length hlength b (by rw [hdrop, after?_append]; rfl)
    rwa [htake] at hfound
  refine ⟨hunmarked, ?_, huncommented, fun a word b hword hs => (hplace a word b hword hs).1, ?_⟩
  · rw [← contains_iff, huncolored]
    exact Bool.false_ne_true
  · intro a word b hword hs
    obtain ⟨rest, hrest⟩ := List.head?_eq_some_iff.1 (hplace a word b hword hs).2
    refine ⟨b.takeWhile fun c => c ≠ '{' ∧ c ≠ '}' ∧ c ≠ '\\', rest, ?_, fun c hc => ?_⟩
    · rw [← hrest, List.takeWhile_append_dropWhile]
    · simpa using List.mem_takeWhile_imp hc

/-- The same for a text whose tokens start at a byte. -/
structure OrderlyFrom (offset : Nat) (s : List Char) : Prop where
  unmarked : hasMark s = false
  uncolored : ∀ a b, s ≠ a ++ '\\' :: (['c', 'o', 'l', 'o', 'r', '{'] ++ b)
  uncommented : ∀ t ∈ tokensFrom offset s, t.kind ≠ .comment
  command : ∀ w ∈ reserved, ∀ a b, s = a ++ '\\' :: (w ++ b) →
    ∃ t ∈ tokensFrom offset s, t.offset = offset + byteLength a
  named : ∀ w ∈ reserved, ∀ a b, s = a ++ '\\' :: (w ++ b) →
    ∃ name rest, b = name ++ '}' :: rest ∧ ∀ c ∈ name, c ≠ '{' ∧ c ≠ '}' ∧ c ≠ '\\'

theorem Orderly.from_zero (h : Orderly s) : OrderlyFrom 0 s := by
  have hcolor : ∀ a b, s ≠ a ++ '\\' :: (['c', 'o', 'l', 'o', 'r', '{'] ++ b) := by
    rintro a b rfl
    exact h.uncolored ⟨a, '{' :: b, by simp⟩
  -- a reserved word is no color, so it opens or closes an environment
  have hword : ∀ w ∈ reserved, ∀ a b, s = a ++ '\\' :: (w ++ b) →
      ('\\' :: w = "\\begin\x7b".toList ∨ '\\' :: w = "\\end\x7b".toList) ∧ s = a ++ '\\' :: w ++ b := by
    intro w hw a b hs
    simp only [reserved, List.mem_cons, List.not_mem_nil, or_false] at hw
    rcases hw with rfl | rfl | rfl
    · exact ⟨Or.inl rfl, by simpa using hs⟩
    · exact ⟨Or.inr rfl, by simpa using hs⟩
    · exact absurd hs (hcolor a b)
  refine ⟨h.unmarked, hcolor, h.uncommented, fun w hw a b hs => ?_, fun w hw a b hs => ?_⟩
  · obtain ⟨hw, hs⟩ := hword w hw a b hs
    obtain ⟨t, ht, -, hoffset⟩ := h.command a _ b hw hs
    exact ⟨t, ht, by rw [hoffset, Nat.zero_add]⟩
  · obtain ⟨hw, hs⟩ := hword w hw a b hs
    exact h.named a _ b hw hs

/-! ## The first token -/

/-- What holds of a text holds behind its first token. -/
theorem OrderlyFrom.drop {kind : TokenKind} {k : Nat} (h : OrderlyFrom offset (c :: s))
    (hm : munch c s = (kind, k)) :
    OrderlyFrom (offset + byteLength (c :: s.take k)) (s.drop k) := by
  have hs : c :: s = c :: s.take k ++ s.drop k := by simp
  have htokens : tokensFrom offset (c :: s) = ⟨kind, c :: s.take k, offset⟩ ::
      tokensFrom (offset + byteLength (c :: s.take k)) (s.drop k) := tokensFrom_cons hm
  refine ⟨?_, ?_, ?_, fun w hw a b hab => ?_, fun w hw a b hab => ?_⟩
  · have := h.unmarked
    rw [hs, hasMark_append, Bool.or_eq_false_iff] at this
    exact this.2
  · intro a b hab
    refine h.uncolored (c :: s.take k ++ a) b ?_
    rw [List.append_assoc, ← hab]
    exact hs
  · intro t ht
    exact h.uncommented t (by rw [htokens]; exact List.mem_cons_of_mem _ ht)
  · obtain ⟨t, ht, hoffset⟩ := h.command w hw (c :: s.take k ++ a) b (by rw [List.append_assoc, ← hab]; exact hs)
    have hpos := byteLength_cons_pos c (s.take k)
    rw [htokens, List.mem_cons] at ht
    rw [byteLength_append] at hoffset
    rcases ht with rfl | ht
    · simp only at hoffset
      omega
    · exact ⟨t, ht, by omega⟩
  · exact h.named w hw (c :: s.take k ++ a) b (by rw [List.append_assoc, ← hab]; exact hs)

/-! ## Signs -/

theorem Readable.chars (h : Readable us) (hs : ∀ c ∈ s, c ≠ '\\' ∧ c ≠ '%') (hmark : hasMark s = false) :
    Readable (s.map .char ++ us) := by
  induction s with
  | nil => exact h
  | cons c s ih =>
    rw [List.forall_mem_cons] at hs
    have hsplit : hasMark ([c] ++ s) = false := hmark
    rw [hasMark_append, Bool.or_eq_false_iff] at hsplit
    exact ⟨hsplit.1, hs.1, ih hs.2 hsplit.2⟩

/-- A token that starts with no backslash is a run of plain characters, or a comment. -/
theorem munch_chars {kind : TokenKind} {k : Nat} (hm : munch c s = (kind, k)) (hc : c ≠ '\\')
    (hkind : kind ≠ .comment) : ∀ d ∈ c :: s.take k, d ≠ '\\' ∧ d ≠ '%' := by
  have hpercent : c ≠ '%' := by
    rintro rfl
    rw [munch, if_neg hc, if_pos rfl, Prod.mk.injEq] at hm
    exact hkind hm.1.symm
  rcases munch_cases hc hpercent with ⟨one, -, hmunch⟩ | ⟨-, p, run, -, hfirst, hrun⟩
  · obtain ⟨-, rfl⟩ := Prod.mk.inj ((hmunch s).symm.trans hm)
    simpa using ⟨hc, hpercent⟩
  · obtain ⟨-, rfl⟩ := Prod.mk.inj (((hrun c hfirst).2 s).symm.trans hm)
    rw [take_length_takeWhile]
    refine List.forall_mem_cons.2 ⟨⟨hc, hpercent⟩, fun d hd => ?_⟩
    have hchar := (hrun d (List.mem_takeWhile_imp hd)).1
    obtain ⟨hslash, hpercent, -⟩ := not_isSpecial_iff.1 hchar
    exact ⟨hslash, hpercent⟩

theorem Readable.of_chars (h : Readable (s.map .char ++ us)) : ∀ c ∈ s, c ≠ '\\' ∧ c ≠ '%' := by
  induction s with
  | nil => simp
  | cons c s ih => exact List.forall_mem_cons.2 ⟨h.2.1, ih h.2.2⟩

/-- The signs of a word: the word alone, or the whole word of an environment. -/
theorem OrderlyFrom.readable_word {name : List Char} (h : OrderlyFrom offset ('\\' :: (name ++ s)))
    (hname : IsWordBefore name s) (hus : Readable us) (hspell : spell us = s) :
    ∃ vs, Readable vs ∧ spell vs = '\\' :: (name ++ s) := by
  have hunmarked := h.unmarked
  by_cases hres : ∃ w ∈ reserved, w <+: name ++ s
  · obtain ⟨w, hw, q, hq⟩ := hres
    obtain ⟨envName, rest, rfl, henv⟩ := h.named w hw [] q (by rw [hq]; rfl)
    obtain ⟨opening, rfl⟩ : ∃ opening, w = envWord opening ++ ['{'] := by
      simp only [reserved, List.mem_cons, List.not_mem_nil, or_false] at hw
      rcases hw with rfl | rfl | rfl
      · exact ⟨true, rfl⟩
      · exact ⟨false, rfl⟩
      · exact absurd (by rw [hq]; rfl) (h.uncolored [] _)
    -- the letters in front of the brace are the name of the word
    have hnil : ∀ r : List Char, ('{' :: r).takeWhile isCommandLetter = [] := fun r =>
      List.takeWhile_cons_of_neg (by decide)
    have hfirst := congrArg (List.takeWhile isCommandLetter) hq
    have hs : s.takeWhile isCommandLetter = [] := by
      cases s with
      | nil => rfl
      | cons d s => exact List.takeWhile_cons_of_neg (by simp [hname.behind d rfl])
    rw [List.append_assoc, List.takeWhile_append_of_pos (isWordBefore_envWord opening []).letters,
      List.singleton_append, hnil, List.takeWhile_append_of_pos hname.letters, hs, List.append_nil,
      List.append_nil] at hfirst
    subst hfirst
    rw [List.append_assoc, List.append_cancel_left_eq, List.singleton_append] at hq
    have hslash : '\\' ∉ '{' :: (envName ++ ['}']) := by
      simp only [List.mem_cons, List.mem_append, List.not_mem_nil, or_false, not_or]
      exact ⟨by decide, fun hmem => (henv _ hmem).2.2 rfl, by decide⟩
    obtain ⟨us', rfl, hus'⟩ := hus.chars_append (t := '{' :: (envName ++ ['}'])) (s := rest)
      (by rw [hspell, ← hq]; simp) hslash
    have hplain := hus.of_chars
    have htext : '\\' :: (envWord opening ++ s) = (env opening envName).text ++ rest := by
      rw [text_env_append, ← hq]
      rfl
    rw [htext, hasMark_append, Bool.or_eq_false_iff] at hunmarked
    refine ⟨.env opening envName :: us', ⟨hunmarked.1, fun c hc => ?_, hus.of_append_right⟩, ?_⟩
    · exact ⟨(henv c hc).1, (henv c hc).2.1, (henv c hc).2.2, (hplain c (by simp [hc])).2⟩
    · rw [spell_cons, hus', htext]
  · rw [← List.cons_append, hasMark_append, Bool.or_eq_false_iff] at hunmarked
    refine ⟨.word name :: us, ⟨hunmarked.1, ⟨hname.ne_nil, hname.letters, ?_, fun hw hbrace => hres ⟨_, hw, ?_⟩⟩, hus⟩, ?_⟩
    · rw [hspell]
      exact hname.behind
    · rw [hspell] at hbrace
      obtain ⟨r, rfl⟩ := List.head?_eq_some_iff.1 hbrace
      exact ⟨r, by simp⟩
    · rw [spell_cons, hspell]
      rfl

/-- No reserved word stands behind a line break: it would start inside a token. -/
theorem OrderlyFrom.not_prefix_of_lineBreak (h : OrderlyFrom offset ('\\' :: '\\' :: s))
    (hw : w ∈ reserved) : ¬ w <+: s := by
  rintro ⟨q, rfl⟩
  obtain ⟨t, ht, hoffset⟩ := h.command w hw ['\\'] q rfl
  have hm : munch '\\' ('\\' :: (w ++ q)) = (.lineBreak, 1) := by simp [munch, afterBackslash]
  have hone : byteLength ['\\'] = 1 := by decide
  have htwo : byteLength ('\\' :: ('\\' :: (w ++ q)).take 1) = 2 := by
    rw [List.take_succ_cons, List.take_zero]
    decide
  rw [hone] at hoffset
  rw [tokensFrom_cons hm, List.mem_cons] at ht
  rcases ht with rfl | ht
  · simp at hoffset
  · have hbehind := offset_le_of_mem_tokensFrom ht
    rw [htwo] at hbehind
    omega

/-- The signs of a token that starts with a backslash. -/
theorem OrderlyFrom.readable_slash {kind : TokenKind} {k : Nat} (h : OrderlyFrom offset ('\\' :: s))
    (hm : munch '\\' s = (kind, k)) (hus : Readable us) (hspell : spell us = s.drop k) :
    ∃ vs, Readable vs ∧ spell vs = '\\' :: s := by
  cases s with
  | nil => exact ⟨[.slash], ⟨rfl, by simp [FitsWith], trivial⟩, rfl⟩
  | cons d s =>
    have hunmarked : hasMark (['\\', d] ++ s) = false := h.unmarked
    rw [hasMark_append, Bool.or_eq_false_iff] at hunmarked
    rw [munch, if_pos rfl, afterBackslash] at hm
    by_cases hslash : d = '\\'
    · subst hslash
      rw [if_pos rfl, Prod.mk.injEq] at hm
      obtain ⟨-, rfl⟩ := hm
      have hspell : spell us = s := hspell
      refine ⟨.escaped '\\' :: us, ⟨hunmarked.1, ⟨by decide, by decide, ?_⟩, hus⟩, by simp [text, hspell]⟩
      intro _ w hw
      rw [hspell]
      exact h.not_prefix_of_lineBreak hw
    · rw [if_neg hslash] at hm
      by_cases hletter : isCommandLetter d = true
      · rw [if_pos hletter, Prod.mk.injEq] at hm
        obtain ⟨-, rfl⟩ := hm
        obtain ⟨name, rest, hs, hname⟩ := exists_word hletter s
        rw [hs, (takeWhile_append_of_head hname.letters hname.behind).1, List.drop_left] at hspell
        rw [hs] at h ⊢
        exact h.readable_word hname hus hspell
      · rw [if_neg hletter, Prod.mk.injEq] at hm
        obtain ⟨-, rfl⟩ := hm
        have hspell : spell us = s := hspell
        by_cases hblank : isBlank d = true
        · have hnot := not_isSpecial_iff.1 (not_isSpecial_of_isBlank hblank)
          have hmark : hasMark ([d] ++ []) = false := by
            have := hunmarked.1
            rw [← List.singleton_append, hasMark_append, Bool.or_eq_false_iff] at this
            exact this.2
          exact ⟨.slash :: .char d :: us, ⟨rfl, by simpa [FitsWith, text] using hblank, hmark,
            ⟨hnot.1, hnot.2.1⟩, hus⟩, by simp [text, hspell]⟩
        · refine ⟨.escaped d :: us, ⟨hunmarked.1, ⟨by simpa using hblank, by simpa using hletter, ?_⟩, hus⟩, ?_⟩
          · exact fun heq => absurd heq hslash
          · simp [text, hspell]

theorem OrderlyFrom.exists_readable (h : OrderlyFrom offset s) : ∃ us, Readable us ∧ spell us = s := by
  fun_induction tokensFrom offset s with
  | case1 => exact ⟨[], trivial, rfl⟩
  | case2 offset c s kind k hm text ih =>
    obtain ⟨us, hus, hspell⟩ := ih (h.drop hm)
    by_cases hc : c = '\\'
    · subst hc
      exact h.readable_slash hm hus hspell
    · have hkind : kind ≠ .comment := h.uncommented ⟨kind, text, offset⟩ (by
        rw [tokensFrom_cons hm]
        exact List.mem_cons_self)
      have hs : text ++ s.drop k = c :: s := by simp [text]
      have hunmarked := h.unmarked
      rw [← hs, hasMark_append, Bool.or_eq_false_iff] at hunmarked
      refine ⟨text.map .char ++ us, hus.chars (munch_chars hm hc hkind) hunmarked.1, ?_⟩
      rw [spell_append, spell_chars, hspell, hs]

/-- **An orderly text is readable.** -/
theorem Orderly.exists_readable (h : Orderly s) : ∃ us, Readable us ∧ spell us = s :=
  h.from_zero.exists_readable

end MathMarkup.Tex
