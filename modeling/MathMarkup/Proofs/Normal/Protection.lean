import MathMarkup.Proofs.Normal.Spans

/-!
# Protecting a readable text

`protectFrom` walks over tokens, a sign list over signs. A token that is a run of characters can be left
at any of them (`protectFrom_run`), so the walk passes a sign at a time, be it covered
(`protectFrom_covered`) or not.

Main theorem `protectFrom_spell`: protecting a readable text writes its blocks, with the spans numbered
in order. With the spans in place of the tokens the blocks spell the text again (`expand_number`).
-/

namespace MathMarkup.Tex

open Text Sign Placeholders

variable {us vs a b : List Sign} {u : Sign} {c : Char} {n m : Nat} {s t name : List Char}
  {colors : Bool}

/-- A walk that writes `s` first. -/
def writeFirst (s : List Char) (p : List (List Char) × List Char) : List (List Char) × List Char :=
  (p.1, s ++ p.2)

@[simp] theorem writeFirst_nil (p : List (List Char) × List Char) : writeFirst [] p = p := rfl

theorem writeFirst_writeFirst (s t : List Char) (p : List (List Char) × List Char) :
    writeFirst s (writeFirst t p) = writeFirst (s ++ t) p := by simp [writeFirst]

theorem protectFrom_of_munch {kind : TokenKind} {k : Nat} (h : munch c s = (kind, k))
    (hword : isWordCommand kind (c :: s.take k) = false) (m : Nat) :
    protectFrom n m (c :: s) =
      writeFirst ((c :: s.take k).drop m) (protectFrom n (m - (k + 1)) (s.drop k)) := by
  rw [protectFrom, h]
  by_cases hm : 0 < m
  · simp only [hm, ↓reduceIte]
    rfl
  · obtain rfl : m = 0 := by omega
    simp only [hm, ↓reduceIte, hword, Bool.false_eq_true, Nat.zero_sub]
    rfl

/-- A token whose first character is covered is passed, with what of it is not covered written. -/
theorem protectFrom_succ {kind : TokenKind} {k : Nat} (h : munch c s = (kind, k)) (m : Nat) :
    protectFrom n (m + 1) (c :: s) = writeFirst ((s.take k).drop m) (protectFrom n (m - k) (s.drop k)) := by
  rw [protectFrom, h]
  simp only [Nat.zero_lt_succ, ↓reduceIte, List.drop_succ_cons, Nat.add_sub_add_right]
  rfl

/-! ## Runs of characters -/

/-- In a token that is a run of characters the walk can go on from each of them. -/
theorem protectFrom_run {p : Char → Bool} {kind : TokenKind} (hkind : (kind == .command) = false)
    (hrun : ∀ c s, p c = true → munch c s = (kind, (s.takeWhile p).length)) (s : List Char) (m : Nat) :
    protectFrom n m s =
      writeFirst ((s.takeWhile p).drop m) (protectFrom n (m - (s.takeWhile p).length) (s.dropWhile p)) := by
  cases s with
  | nil => simp
  | cons c s =>
    by_cases hc : p c = true
    · have hword : ∀ token, isWordCommand kind token = false := fun token => by simp [isWordCommand, hkind]
      rw [protectFrom_of_munch (hrun c s hc) (hword _), take_length_takeWhile, drop_length_takeWhile,
        List.takeWhile_cons_of_pos hc, List.dropWhile_cons_of_pos hc, List.length_cons]
    · rw [List.takeWhile_cons_of_neg hc, List.dropWhile_cons_of_neg hc]
      simp

theorem not_isSpecial_iff : isSpecial c = false ↔ c ≠ '\\' ∧ c ≠ '%' ∧ TokenKind.ofChar? c = none := by
  constructor
  · intro h
    refine ⟨?_, ?_, ?_⟩
    · rintro rfl
      cases h
    · rintro rfl
      cases h
    · unfold TokenKind.ofChar?
      split <;> first | rfl | cases h
  · rintro ⟨hslash, hpercent, hnone⟩
    unfold isSpecial
    split <;> first | rfl | (exfalso; revert hslash hpercent hnone; decide)

theorem not_isSpecial_of_isBlank (h : isBlank c = true) : isSpecial c = false := by
  unfold isSpecial
  split <;> first | rfl | (exfalso; revert h; decide)

theorem munch_blank (hc : isBlank c = true) (s : List Char) :
    munch c s = (.whitespace, (s.takeWhile isBlank).length) := by
  obtain ⟨hslash, hpercent, hnone⟩ := not_isSpecial_iff.1 (not_isSpecial_of_isBlank hc)
  rw [munch, if_neg hslash, if_neg hpercent, hnone]
  simp [hc]

/-- A character of a text token. -/
def isTextChar (c : Char) : Bool := !isSpecial c && !isBlank c

theorem munch_text (hc : isTextChar c = true) (s : List Char) :
    munch c s = (.text, (s.takeWhile isTextChar).length) := by
  simp only [isTextChar, Bool.and_eq_true, Bool.not_eq_true'] at hc
  obtain ⟨hslash, hpercent, hnone⟩ := not_isSpecial_iff.1 hc.1
  rw [munch, if_neg hslash, if_neg hpercent, hnone]
  simp only [hc.2, Bool.false_eq_true, ↓reduceIte]
  rfl

/-- A character is a token of its own, or it starts a run of blanks or a run of text that any other character of
the run would start as well. -/
theorem munch_cases (hslash : c ≠ '\\') (hpercent : c ≠ '%') :
    (∃ kind, TokenKind.ofChar? c = some kind ∧ ∀ s, munch c s = (kind, 0)) ∨
      TokenKind.ofChar? c = none ∧ ∃ (p : Char → Bool) (kind : TokenKind), (kind = .whitespace ∨ kind = .text) ∧
        p c = true ∧ ∀ d, p d = true → isSpecial d = false ∧ ∀ s, munch d s = (kind, (s.takeWhile p).length) := by
  cases hkind : TokenKind.ofChar? c with
  | some kind =>
    left
    exact ⟨kind, rfl, fun s => by rw [munch, if_neg hslash, if_neg hpercent, hkind]⟩
  | none =>
    right
    refine ⟨rfl, ?_⟩
    by_cases hblank : isBlank c = true
    · exact ⟨isBlank, .whitespace, .inl rfl, hblank, fun d hd => ⟨not_isSpecial_of_isBlank hd, munch_blank hd⟩⟩
    · have hspecial := not_isSpecial_iff.2 ⟨hslash, hpercent, hkind⟩
      refine ⟨isTextChar, .text, .inr rfl, by simp [isTextChar, hspecial, hblank], fun d hd => ⟨?_, munch_text hd⟩⟩
      simp only [isTextChar, Bool.and_eq_true, Bool.not_eq_true'] at hd
      exact hd.1

/-- Characters are passed one at a time. -/
theorem protectFrom_char (hslash : c ≠ '\\') (hpercent : c ≠ '%') (s : List Char) :
    protectFrom n 0 (c :: s) = writeFirst [c] (protectFrom n 0 s) ∧
      ∀ m, protectFrom n (m + 1) (c :: s) = protectFrom n m s := by
  rcases munch_cases hslash hpercent with ⟨kind, -, hmunch⟩ | ⟨-, p, kind, hkind, hc, hrun⟩
  · have hword : isWordCommand kind (c :: s.take 0) = false := by simp [isWordCommand]
    have hall := fun m => protectFrom_of_munch (n := n) (hmunch s) hword m
    refine ⟨by simpa using hall 0, fun m => by simpa using hall (m + 1)⟩
  · -- a run that `c` is part of
    have hkind : (kind == .command) = false := by rcases hkind with rfl | rfl <;> rfl
    have hmunch := fun d s hd => (hrun d hd).2 s
    have hall := fun m => protectFrom_run (n := n) hkind hmunch (c :: s) m
    rw [List.takeWhile_cons_of_pos hc, List.dropWhile_cons_of_pos hc] at hall
    refine ⟨?_, fun m => ?_⟩
    · rw [hall, protectFrom_run hkind hmunch s, writeFirst_writeFirst]
      simp
    · rw [hall, protectFrom_run hkind hmunch s, List.length_cons, Nat.add_sub_add_right]
      rfl

/-- Covered characters are passed over. -/
theorem protectFrom_chars (hs : ∀ c ∈ s, c ≠ '\\' ∧ c ≠ '%') (t : List Char) (m : Nat) :
    protectFrom n (s.length + m) (s ++ t) = protectFrom n m t := by
  induction s with
  | nil => simp
  | cons c s ih =>
    rw [List.forall_mem_cons] at hs
    rw [List.length_cons, Nat.add_right_comm, List.cons_append, (protectFrom_char hs.1.1 hs.1.2 _).2, ih hs.2]

/-! ## One sign -/

theorem protectFrom_escaped (hc : isCommandLetter c = false) (s : List Char) (m : Nat) :
    protectFrom n m ('\\' :: c :: s) =
      writeFirst (['\\', c].drop m) (protectFrom n (m - 2) s) := by
  obtain ⟨kind, hmunch⟩ : ∃ kind, munch '\\' (c :: s) = (kind, 1) := by
    by_cases hslash : c = '\\'
    · exact ⟨.lineBreak, by simp [munch, afterBackslash, hslash]⟩
    · exact ⟨.command, by simp [munch, afterBackslash, hslash, hc]⟩
  exact protectFrom_of_munch hmunch (by simp [isWordCommand, hc]) m

theorem munch_word (hne : name ≠ []) (hletters : ∀ c ∈ name, isCommandLetter c = true)
    (hs : ∀ c ∈ s.head?, isCommandLetter c = false) : munch '\\' (name ++ s) = (.command, name.length) := by
  obtain ⟨c, name, rfl⟩ := List.exists_cons_of_ne_nil hne
  have hslash : c ≠ '\\' := (isPlain_of_isCommandLetter (hletters c List.mem_cons_self)).1
  have htake : (c :: name ++ s).takeWhile isCommandLetter = c :: name :=
    (takeWhile_append_of_head hletters hs).1
  rw [munch, if_pos rfl, List.cons_append, afterBackslash, if_neg hslash,
    if_pos (hletters c List.mem_cons_self), ← List.cons_append, htake]

/-- A backslash before a blank is passed like a character of its own. -/
theorem protectFrom_slash (hs : ∀ c ∈ s.head?, isBlank c = true) :
    protectFrom n 0 ('\\' :: s) = writeFirst ['\\'] (protectFrom n 0 s) ∧
      ∀ m, protectFrom n (m + 1) ('\\' :: s) = protectFrom n m s := by
  cases s with
  | nil =>
    have hmunch : munch '\\' [] = (.text, 0) := rfl
    have hall := fun m => protectFrom_of_munch (n := n) hmunch rfl m
    exact ⟨by simpa using hall 0, fun m => by simpa using hall (m + 1)⟩
  | cons b t =>
    have hblank := hs b rfl
    have hletter : isCommandLetter b = false := by
      refine Bool.eq_false_iff.2 fun hletter => ?_
      rw [isBlank_eq_false_of_isCommandLetter hletter] at hblank
      cases hblank
    obtain ⟨hslash, hpercent, -⟩ := not_isSpecial_iff.1 (not_isSpecial_of_isBlank hblank)
    obtain ⟨hzero, hsucc⟩ := protectFrom_char (n := n) hslash hpercent t
    have hall := fun m => protectFrom_escaped (n := n) hletter t m
    refine ⟨?_, fun m => ?_⟩
    · rw [hall, hzero, writeFirst_writeFirst]
      rfl
    · rw [hall]
      cases m with
      | zero => exact hzero.symm
      | succ m => simpa using (hsucc m).symm

/-- A word as the tokens have it: letters, and behind them no letter. -/
structure IsWordBefore (name s : List Char) : Prop where
  ne_nil : name ≠ []
  letters : ∀ c ∈ name, isCommandLetter c = true
  behind : ∀ c ∈ s.head?, isCommandLetter c = false

/-- A text that starts with a letter starts with a word. -/
theorem exists_word (hc : isCommandLetter c = true) (s : List Char) :
    ∃ name rest, c :: s = name ++ rest ∧ IsWordBefore name rest := by
  refine ⟨_, (c :: s).dropWhile isCommandLetter, List.takeWhile_append_dropWhile.symm, ?_,
    fun d hd => List.mem_takeWhile_imp hd, fun d hd => eq_false_of_mem_head?_dropWhile hd⟩
  rw [List.takeWhile_cons_of_pos hc]
  exact List.cons_ne_nil _ _

theorem IsWordBefore.isWordCommand (h : IsWordBefore name s) : isWordCommand .command ('\\' :: name) = true := by
  have := List.length_pos_iff.2 h.ne_nil
  simp only [Tex.isWordCommand, List.length_cons, List.tail_cons, Bool.and_eq_true, beq_self_eq_true,
    decide_eq_true_eq, true_and]
  exact ⟨by omega, List.all_eq_true.2 h.letters⟩

theorem protectFrom_word (h : IsWordBefore name s) : protectFrom n 0 ('\\' :: name ++ s) =
    (('\\' :: name ++ commandTail ('\\' :: name) s) ::
        (protectFrom (n + 1) (commandTail ('\\' :: name) s).length s).1,
      placeholder n ++ (protectFrom (n + 1) (commandTail ('\\' :: name) s).length s).2) := by
  rw [List.cons_append, protectFrom, munch_word h.ne_nil h.letters h.behind]
  simp [h.isWordCommand]

theorem protectFrom_word_covered (h : IsWordBefore name s) (m : Nat) :
    protectFrom n (name.length + 1 + m) ('\\' :: name ++ s) = protectFrom n m s := by
  rw [Nat.add_right_comm, List.cons_append, protectFrom_succ (munch_word h.ne_nil h.letters h.behind), List.take_left,
    List.drop_left, List.drop_eq_nil_of_le (Nat.le_add_right _ _), Nat.add_sub_cancel_left, writeFirst_nil]

/-- The word that the name of an environment stands behind. -/
def envWord (opening : Bool) : List Char := if opening then ['b', 'e', 'g', 'i', 'n'] else ['e', 'n', 'd']

theorem isWordBefore_envWord (opening : Bool) (s : List Char) : IsWordBefore (envWord opening) ('{' :: s) := by
  refine ⟨by cases opening <;> decide, ?_, by rintro c ⟨⟩; rfl⟩
  cases opening <;> exact List.all_eq_true.1 (by decide)

theorem text_env_append (opening : Bool) (name t : List Char) :
    (env opening name).text ++ t = '\\' :: envWord opening ++ '{' :: (name ++ '}' :: t) := by
  cases opening <;> simp [text, beginOf, endOf, envWord]

theorem braces_of_fits {opening : Bool} (h : (env opening name).FitsWith colors s) :
    ∀ c ∈ '{' :: (name ++ ['}']), c ≠ '\\' ∧ c ≠ '%' := by
  intro c hc
  rw [List.mem_cons, List.mem_append, List.mem_singleton] at hc
  rcases hc with rfl | hc | rfl
  · decide
  · exact (h c hc).2.2
  · decide

/-- A covered sign is passed over. -/
theorem protectFrom_covered (h : ReadableWith colors (u :: us)) (m : Nat) :
    protectFrom n (u.text.length + m) (spell (u :: us)) = protectFrom n m (spell us) := by
  obtain ⟨-, hfits, hrest⟩ := h
  rw [spell_cons]
  cases u with
  | char c =>
    refine protectFrom_chars (fun d hd => ?_) _ m
    obtain rfl := List.mem_singleton.1 hd
    exact hfits
  | escaped c =>
    have hdrop : ['\\', c].drop (2 + m) = [] := List.drop_eq_nil_of_le (by simp)
    have := protectFrom_escaped (n := n) hfits.2.1 (spell us) (2 + m)
    rwa [hdrop, writeFirst_nil, Nat.add_sub_cancel_left] at this
  | slash =>
    rw [text, List.length_singleton, Nat.add_comm]
    exact (protectFrom_slash hfits).2 m
  | word name =>
    have hbefore : IsWordBefore name (spell us) := ⟨hfits.1, hfits.2.1, hfits.2.2.1⟩
    exact protectFrom_word_covered hbefore m
  | env opening name =>
    have hlen : (env opening name).text.length + m =
        (envWord opening).length + 1 + (('{' :: (name ++ ['}'])).length + m) := by
      have := congrArg List.length (text_env_append opening name [])
      simp only [List.length_append, List.length_cons, List.length_nil] at *
      omega
    have hchars := protectFrom_chars (n := n) (braces_of_fits hfits) (spell us) m
    rw [text_env_append, hlen, protectFrom_word_covered (isWordBefore_envWord opening _), ← hchars]
    simp

theorem protectFrom_covered_append (h : ReadableWith colors (a ++ b)) :
    protectFrom n (spell a).length (spell (a ++ b)) = protectFrom n 0 (spell b) := by
  induction a with
  | nil => rfl
  | cons u a ih =>
    rw [List.cons_append] at h ⊢
    rw [spell_cons u a, List.length_append, protectFrom_covered h, ih h.2.2]

/-! ## Blocks -/

/-- The items of the blocks: a token for each span, numbered from `n`. -/
def number (n : Nat) : List Block → List Item
  | [] => []
  | b :: bs =>
    if b.head.isWord then .token n :: number (n + 1) bs
    else (spell b.signs).map .char ++ number n bs

/-- The spans among the blocks. -/
def spansOf : List Block → List (List Char)
  | [] => []
  | b :: bs => if b.head.isWord then spell b.signs :: spansOf bs else spansOf bs

theorem spansOf_append (x y : List Block) : spansOf (x ++ y) = spansOf x ++ spansOf y := by
  induction x with
  | nil => rfl
  | cons b x ih =>
    rw [List.cons_append, spansOf, spansOf, ih]
    split <;> rfl

theorem number_cons_of_isWord {b : Block} {bs : List Block} (hb : b.head.isWord = true) :
    number n (b :: bs) = .token n :: number (n + 1) bs := by rw [number, if_pos hb]

theorem number_cons {b : Block} {bs : List Block} (hb : b.head.isWord = false) :
    number n (b :: bs) = (spell b.signs).map .char ++ number n bs := by
  rw [number, if_neg (by rw [hb]; decide)]

theorem write_number_cons {b : Block} {bs : List Block} (hb : b.head.isWord = false) :
    write (number n (b :: bs)) = spell b.signs ++ write (number n bs) := by
  rw [number_cons hb, write_append, write_chars]

theorem write_number_cons_of_isWord {b : Block} {bs : List Block} (hb : b.head.isWord = true) :
    write (number n (b :: bs)) = placeholder n ++ write (number (n + 1) bs) := by
  rw [number_cons_of_isWord hb]
  rfl

/-- A sign that starts a span is a word before the rest of the span. -/
theorem protectFrom_isWord (h : ReadableWith colors (u :: us)) (hu : u.isWord = true) :
    protectFrom n 0 (spell (u :: us)) =
      (spell (u :: (u.split us).1) :: (protectFrom (n + 1) 0 (spell (u.split us).2)).1,
        placeholder n ++ (protectFrom (n + 1) 0 (spell (u.split us).2)).2) := by
  have hus := u.split_append us
  have hcovered : protectFrom (n + 1) (spell (u.split us).1).length (spell us) =
      protectFrom (n + 1) 0 (spell (u.split us).2) := by
    have := protectFrom_covered_append (n := n + 1) (hus.symm ▸ h.2.2)
    rwa [hus] at this
  cases u with
  | char | escaped | slash => cases hu
  | word name =>
    have hbefore : IsWordBefore name (spell us) := ⟨h.2.1.1, h.2.1.2.1, h.2.1.2.2.1⟩
    rw [spell_cons, text, protectFrom_word hbefore, commandTail_word h, hcovered]
    rfl
  | env opening name =>
    have hword : '\\' :: envWord opening = if opening then beginCommand else ['\\', 'e', 'n', 'd'] := by
      cases opening <;> rfl
    have hskip := protectFrom_chars (n := n + 1) (braces_of_fits h.2.1) (spell us)
      (spell ((env opening name).split us).1).length
    have hlen : ('{' :: (name ++ '}' :: spell ((env opening name).split us).1)).length =
        ('{' :: (name ++ ['}'])).length + (spell ((env opening name).split us).1).length := by
      simp only [List.length_cons, List.length_append, List.length_nil]
      omega
    have htext : '{' :: (name ++ ['}']) ++ spell us = '{' :: (name ++ '}' :: spell us) := by simp
    rw [htext, hcovered] at hskip
    rw [spell_cons, text_env_append, protectFrom_word (isWordBefore_envWord opening _), hword,
      commandTail_env h, hlen, hskip, spell_cons, text_env_append, ← hword]

theorem protectFrom_of_isWord_eq_false (h : ReadableWith colors (u :: us)) (hu : u.isWord = false) :
    protectFrom n 0 (spell (u :: us)) = writeFirst u.text (protectFrom n 0 (spell us)) := by
  rw [spell_cons]
  cases u with
  | char c => exact (protectFrom_char h.2.1.1 h.2.1.2 _).1
  | escaped c => exact protectFrom_escaped h.2.1.2.1 _ 0
  | slash => exact (protectFrom_slash h.2.1).1
  | word | env => cases hu

/-- **Protecting a readable text** writes its blocks: the spans in order, and a token for each. -/
theorem protectFrom_spell (h : ReadableWith colors us) (n : Nat) :
    protectFrom n 0 (spell us) = (spansOf (blocksOf us), write (number n (blocksOf us))) := by
  fun_induction blocksOf us generalizing n with
  | case1 => simp [protectFrom, spansOf, number, write]
  | case2 u us ih =>
    have hrest : ReadableWith colors (u.split us).2 := by
      have := h.2.2
      rw [← u.split_append us] at this
      exact this.of_append_right
    have ih := ih hrest
    by_cases hu : u.isWord = true
    · rw [protectFrom_isWord h hu, ih, spansOf, if_pos hu, write_number_cons_of_isWord hu]
      rfl
    · have hu : u.isWord = false := by simpa using hu
      have hsplit := u.split_of_isWord_eq_false hu us
      rw [hsplit] at ih ⊢
      rw [protectFrom_of_isWord_eq_false h hu, ih, spansOf, write_number_cons hu, if_neg (by simp [hu])]
      simp [writeFirst, Block.signs]

/-- With the spans in place of the tokens, the blocks spell their text; other spans do not matter. -/
theorem expand_number_append (bs : List Block) (before after : List (List Char)) (hn : before.length = n) :
    expand (before ++ (spansOf bs ++ after)) (number n bs) = spell (signsOf bs) := by
  induction bs generalizing before n with
  | nil => rfl
  | cons b bs ih =>
    rw [signsOf_cons, spell_append]
    by_cases hb : b.head.isWord = true
    · have ih := ih (n := n + 1) (before ++ [spell b.signs]) (by simp [hn])
      have htoken : Item.render (before ++ (spell b.signs :: spansOf bs ++ after))
          (before ++ (spell b.signs :: spansOf bs ++ after)).length (.token n) = spell b.signs := by
        simp [Item.render, ← hn]
      rw [spansOf, if_pos hb, number_cons_of_isWord hb, expand, renderItems_cons, htoken, ← expand, ← ih]
      simp
    · rw [spansOf, if_neg hb, number_cons (by simpa using hb), expand_append, expand_chars,
        ih before hn]

theorem expand_number (bs : List Block) (before : List (List Char)) (hn : before.length = n) :
    expand (before ++ spansOf bs) (number n bs) = spell (signsOf bs) := by
  have := expand_number_append bs before [] hn
  rwa [List.append_nil] at this

end MathMarkup.Tex
