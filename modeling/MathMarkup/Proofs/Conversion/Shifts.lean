import MathMarkup.Proofs.Normal.Modes
import MathMarkup.Tex.Transliteration

/-!
# Commands without math shifts

Dropping the math shifts of a text without comments leaves no shift behind, but it may move a letter to the
end of a command name: the name ends at the shift, and it goes on when the shift is gone. This is the only
way in which a command changes (`tokens_dropShifts`).
-/

namespace MathMarkup.Tex

open Text

variable {c : Char} {s t name rest : List Char} {kind : TokenKind} {offset k : Nat}

/-! ## Along a text without comments -/

/-- Induction along a text without comments: a backslash goes with the name or the character behind it. Behind
a name one may go on at any later place that is not in a comment. -/
@[elab_as_elim]
theorem silent_induction {motive : List Char → Prop} (nil : motive []) (slash : motive ['\\'])
    (word : ∀ name rest, IsWordBefore name rest → Mode.plain.Silent rest →
      (∀ t, t <:+ rest → Mode.plain.Silent t → motive t) → motive ('\\' :: name ++ rest))
    (escaped : ∀ c rest, isCommandLetter c = false → motive rest → motive ('\\' :: c :: rest))
    (char : ∀ c rest, c ≠ '\\' → c ≠ '%' → motive rest → motive (c :: rest)) :
    ∀ s, Mode.plain.Silent s → motive s := by
  intro s
  induction hlength : s.length using Nat.strongRecOn generalizing s with
  | ind n ih =>
    subst hlength
    intro h
    cases s with
    | nil => exact nil
    | cons c s =>
      by_cases hc : c = '\\'
      · subst hc
        cases s with
        | nil => exact slash
        | cons d s =>
          by_cases hd : isCommandLetter d = true
          · obtain ⟨name, rest, hs, hname⟩ := exists_word hd s
            rw [hs] at h ih ⊢
            rw [← List.cons_append, silent_append, after_name hname.ne_nil hname.letters Mode.noConfusion] at h
            refine word name rest hname h.2 fun t ht htail => ih _ ?_ t rfl htail
            have := ht.length_le
            simp only [List.length_append, List.length_cons]
            omega
          · exact escaped d s (Bool.eq_false_iff.2 hd) (ih _ (by simp only [List.length_cons]; omega) s rfl h.2.2)
      · have hpercent : c ≠ '%' := by
          rintro rfl
          exact absurd rfl h.2.ne_comment
        have hnext : Mode.plain.next c = .plain := next_eq_plain hc hpercent Mode.noConfusion
        exact char c s hc hpercent (ih _ (by simp) s rfl (hnext ▸ h.2))

/-! ## Tokens of one kind -/

/-- The texts of the tokens of one kind, in order. -/
def tokenTexts (kind : TokenKind) (s : List Char) : List (List Char) :=
  ((tokens s).filter fun t => t.kind == kind).map Token.text

/-- Where the text starts does not matter. -/
theorem texts_tokensFrom (offset : Nat) (s : List Char) :
    ((tokensFrom offset s).filter fun t => t.kind == kind).map Token.text = tokenTexts kind s := by
  have hany : ∀ m, ((tokensFrom offset s).filter fun t => t.kind == kind).map Token.text =
      ((tokensFrom m s).filter fun t => t.kind == kind).map Token.text := by
    fun_induction tokensFrom offset s with
    | case1 => exact fun m => by rw [tokensFrom]
    | case2 offset c s found k hm text ih =>
      intro m
      rw [tokensFrom_cons hm, List.filter_cons, List.filter_cons]
      split
      · rw [List.map_cons, List.map_cons, ih]
      · exact ih _
  exact hany 0

theorem tokenTexts_nil : tokenTexts kind [] = [] := by simp [tokenTexts, tokens, tokensFrom]

theorem tokenTexts_munch {found : TokenKind} (h : munch c s = (found, k)) :
    tokenTexts kind (c :: s) =
      (if found = kind then [c :: s.take k] else []) ++ tokenTexts kind (s.drop k) := by
  rw [tokenTexts, tokens, tokensFrom_cons h, List.filter_cons]
  split
  · rename_i hfound
    rw [if_pos (by simpa using hfound), List.map_cons, texts_tokensFrom]
    rfl
  · rename_i hfound
    rw [if_neg (by simpa using hfound), texts_tokensFrom]
    rfl

/-- A run of characters that makes one token of another kind. -/
theorem tokenTexts_run {p : Char → Bool} {found : TokenKind} (hkind : found ≠ kind)
    (hrun : ∀ c s, p c = true → munch c s = (found, (s.takeWhile p).length)) (s : List Char) :
    tokenTexts kind s = tokenTexts kind (s.dropWhile p) := by
  cases s with
  | nil => rfl
  | cons c s =>
    by_cases hc : p c = true
    · rw [tokenTexts_munch (hrun c s hc), if_neg hkind, List.dropWhile_cons_of_pos hc, drop_length_takeWhile]
      rfl
    · rw [List.dropWhile_cons_of_neg hc]

/-- Kinds of tokens that do not grow with the characters around them. -/
def TokenKind.IsFirm (kind : TokenKind) : Prop := kind ≠ .text ∧ kind ≠ .whitespace

theorem tokenTexts_char (hkind : kind.IsFirm) (hslash : c ≠ '\\') (hpercent : c ≠ '%') (s : List Char) :
    tokenTexts kind (c :: s) = (if TokenKind.ofChar? c = some kind then [[c]] else []) ++ tokenTexts kind s := by
  rcases munch_cases hslash hpercent with ⟨found, hone, hmunch⟩ | ⟨hnone, p, found, hfound, hc, hrun⟩
  · rw [hone, tokenTexts_munch (hmunch s)]
    simp
  · have hne : found ≠ kind := by
      rcases hfound with rfl | rfl
      · exact hkind.2.symm
      · exact hkind.1.symm
    have hmunch := fun d s hd => (hrun d hd).2 s
    rw [hnone, if_neg (by simp), List.nil_append, tokenTexts_run hne hmunch (c :: s), tokenTexts_run hne hmunch s,
      List.dropWhile_cons_of_pos hc]

theorem tokenTexts_slash (hkind : kind.IsFirm) : tokenTexts kind ['\\'] = [] := by
  have hmunch : munch '\\' [] = (.text, 0) := rfl
  rw [tokenTexts_munch hmunch, if_neg hkind.1.symm]
  exact tokenTexts_nil

theorem tokenTexts_word (h : IsWordBefore name rest) :
    tokenTexts kind ('\\' :: name ++ rest) =
      (if .command = kind then ['\\' :: name] else []) ++ tokenTexts kind rest := by
  rw [List.cons_append, tokenTexts_munch (munch_word h.ne_nil h.letters h.behind)]
  simp

theorem tokenTexts_escaped (hc : isCommandLetter c = false) (s : List Char) :
    tokenTexts kind ('\\' :: c :: s) =
      (if (if c = '\\' then TokenKind.lineBreak else .command) = kind then [['\\', c]] else []) ++
        tokenTexts kind s := by
  have hmunch : munch '\\' (c :: s) = (if c = '\\' then TokenKind.lineBreak else .command, 1) := by
    rw [munch, if_pos rfl, afterBackslash, hc]
    split <;> rfl
  rw [tokenTexts_munch hmunch]
  simp

theorem ofChar?_ne_command (c : Char) : TokenKind.ofChar? c ≠ some .command := by
  unfold TokenKind.ofChar?
  split <;> simp

theorem ofChar?_eq_dollar_iff : TokenKind.ofChar? c = some .dollar ↔ c = '$' := by
  constructor
  · unfold TokenKind.ofChar?
    split <;> simp
  · rintro rfl
    rfl

theorem tokenTexts_letters (hkind : kind.IsFirm) (hs : ∀ c ∈ s, isCommandLetter c = true) (t : List Char) :
    tokenTexts kind (s ++ t) = tokenTexts kind t := by
  induction s with
  | nil => rfl
  | cons c s ih =>
    obtain ⟨hc, hs⟩ := List.forall_mem_cons.1 hs
    have hnone : TokenKind.ofChar? c = none := by
      unfold TokenKind.ofChar?
      split <;> first | rfl | cases hc
    have hplain : c ≠ '\\' ∧ c ≠ '%' := by constructor <;> (rintro rfl; cases hc)
    rw [List.cons_append, tokenTexts_char hkind hplain.1 hplain.2, hnone, ih hs]
    rfl

/-- A name behind a backslash takes the letters behind it as well. -/
theorem tokenTexts_name (hkind : kind.IsFirm) (hne : name ≠ []) (hletters : ∀ c ∈ name, isCommandLetter c = true)
    (t : List Char) :
    tokenTexts kind ('\\' :: name ++ t) =
      (if .command = kind then ['\\' :: (name ++ t.takeWhile isCommandLetter)] else []) ++ tokenTexts kind t := by
  have hmore : ∀ c ∈ t.takeWhile isCommandLetter, isCommandLetter c = true := fun c hc =>
    List.mem_takeWhile_imp hc
  have hword : IsWordBefore (name ++ t.takeWhile isCommandLetter) (t.dropWhile isCommandLetter) := by
    exact ⟨by simp [hne], fun c hc => (List.mem_append.1 hc).elim (hletters c) (hmore c),
      fun c hc => eq_false_of_mem_head?_dropWhile hc⟩
  have hall : t.takeWhile isCommandLetter ++ t.dropWhile isCommandLetter = t := List.takeWhile_append_dropWhile
  have hsplit : '\\' :: name ++ t =
      '\\' :: (name ++ t.takeWhile isCommandLetter) ++ t.dropWhile isCommandLetter := by simp [hall]
  have hrest := tokenTexts_letters hkind hmore (t.dropWhile isCommandLetter)
  rw [hall] at hrest
  rw [hsplit, tokenTexts_word hword, hrest]

/-! ## Dropping math shifts -/

theorem dropShifts_shift (s : List Char) : dropShifts false ('$' :: s) = dropShifts false s := by
  rw [dropShifts, if_pos ⟨rfl, rfl⟩]

theorem dropShifts_char (hshift : c ≠ '$') (hslash : c ≠ '\\') (s : List Char) :
    dropShifts false (c :: s) = c :: dropShifts false s := by
  rw [dropShifts, if_neg fun h => hshift h.1, beq_eq_false_iff_ne.2 hslash, Bool.false_and]

/-- What stands behind a backslash is kept. -/
theorem dropShifts_escaped (c : Char) (s : List Char) :
    dropShifts false ('\\' :: c :: s) = '\\' :: c :: dropShifts false s := by
  rw [dropShifts, if_neg (by decide), dropShifts, if_neg (by simp)]
  simp

theorem dropShifts_word (h : IsWordBefore name rest) :
    dropShifts false ('\\' :: name ++ rest) = '\\' :: name ++ dropShifts false rest := by
  have hletters : ∀ name : List Char, (∀ c ∈ name, isCommandLetter c = true) →
      dropShifts false (name ++ rest) = name ++ dropShifts false rest := by
    intro name hname
    induction name with
    | nil => rfl
    | cons c name ih =>
      obtain ⟨hc, hname⟩ := List.forall_mem_cons.1 hname
      have hplain : c ≠ '$' ∧ c ≠ '\\' := by constructor <;> (rintro rfl; cases hc)
      rw [List.cons_append, dropShifts_char hplain.1 hplain.2, ih hname, List.cons_append]
  obtain ⟨c, name, rfl⟩ := List.exists_cons_of_ne_nil h.ne_nil
  rw [List.cons_append, List.cons_append, dropShifts_escaped, hletters name (List.forall_mem_cons.1 h.letters).2]
  rfl

/-- One or more math shifts and then a letter. -/
def ShiftsBeforeLetter (s : List Char) : Prop :=
  ∃ shifts c t, s = shifts ++ c :: t ∧ shifts ≠ [] ∧ (∀ d ∈ shifts, d = '$') ∧ isCommandLetter c = true

/-- Somewhere a command name, behind a backslash that is not escaped, is followed by one or more math shifts
and then a letter. -/
def JoinsCommand (s : List Char) : Prop :=
  ∃ a name rest, s = a ++ ('\\' :: name ++ rest) ∧ Mode.plain.after a = .plain ∧ IsWordBefore name rest ∧
    ShiftsBeforeLetter rest

theorem not_joinsCommand_nil : ¬ JoinsCommand [] := by
  rintro ⟨a, name, rest, h, -⟩
  simp at h

theorem not_joinsCommand_slash : ¬ JoinsCommand ['\\'] := by
  rintro ⟨a, name, rest, h, -, hname, -⟩
  have hlength := congrArg List.length h
  have hpos := List.length_pos_iff.2 hname.ne_nil
  simp only [List.length_append, List.length_cons, List.length_nil] at hlength
  omega

theorem joinsCommand_char_iff (hslash : c ≠ '\\') (hpercent : c ≠ '%') :
    JoinsCommand (c :: s) ↔ JoinsCommand s := by
  have hnext : Mode.plain.next c = .plain := next_eq_plain hslash hpercent Mode.noConfusion
  constructor
  · rintro ⟨a, name, rest, h, ha, hrest⟩
    cases a with
    | nil => exact absurd (List.cons.inj h).1 hslash
    | cons d a =>
      obtain ⟨rfl, rfl⟩ := List.cons.inj h
      rw [after_cons, hnext] at ha
      exact ⟨a, name, rest, rfl, ha, hrest⟩
  · rintro ⟨a, name, rest, rfl, ha, hrest⟩
    exact ⟨c :: a, name, rest, rfl, by rw [after_cons, hnext, ha], hrest⟩

theorem joinsCommand_escaped_iff (hc : isCommandLetter c = false) :
    JoinsCommand ('\\' :: c :: s) ↔ JoinsCommand s := by
  constructor
  · rintro ⟨a, name, rest, h, ha, hname, hrest⟩
    match a with
    | [] =>
      obtain ⟨d, name, rfl⟩ := List.exists_cons_of_ne_nil hname.ne_nil
      obtain rfl := (List.cons.inj (List.cons.inj h).2).1
      exact absurd (hname.letters c List.mem_cons_self) (by simp [hc])
    | [d] =>
      obtain ⟨rfl, -⟩ := List.cons.inj h
      cases ha
    | d :: e :: a =>
      obtain ⟨rfl, hs⟩ := List.cons.inj h
      obtain ⟨rfl, rfl⟩ := List.cons.inj hs
      exact ⟨a, name, rest, rfl, ha, hname, hrest⟩
  · rintro ⟨a, name, rest, rfl, ha, hrest⟩
    exact ⟨'\\' :: c :: a, name, rest, rfl, ha, hrest⟩

theorem joinsCommand_word_iff (hname : IsWordBefore name rest) :
    JoinsCommand ('\\' :: name ++ rest) ↔ ShiftsBeforeLetter rest ∨ JoinsCommand rest := by
  have hafter : Mode.plain.after ('\\' :: name) = .plain :=
    after_name hname.ne_nil hname.letters Mode.noConfusion
  constructor
  · rintro ⟨a, word, behind, h, ha, hword, hbehind⟩
    cases a with
    | nil =>
      have hs : name ++ rest = word ++ behind := (List.cons.inj h).2
      have hrest := (takeWhile_append_of_head hname.letters hname.behind).2
      rw [hs, (takeWhile_append_of_head hword.letters hword.behind).2] at hrest
      exact Or.inl (hrest ▸ hbehind)
    | cons d a =>
      obtain ⟨rfl, hs⟩ := List.cons.inj h
      rcases List.append_eq_append_iff.1 hs with ⟨x, rfl, rfl⟩ | ⟨x, rfl, hx⟩
      · refine Or.inr ⟨x, word, behind, rfl, ?_, hword, hbehind⟩
        rwa [← List.cons_append, after_append, hafter] at ha
      · cases x with
        | nil => exact Or.inr ⟨[], word, behind, hx.symm, rfl, hword, hbehind⟩
        | cons e x =>
          obtain ⟨rfl, -⟩ := List.cons.inj hx
          exact absurd (hname.letters '\\' (by simp)) (by decide)
  · rintro (hrest | ⟨a, word, behind, rfl, ha, hword⟩)
    · exact ⟨[], name, rest, rfl, rfl, hname, hrest⟩
    · refine ⟨'\\' :: name ++ a, word, behind, by simp, ?_, hword⟩
      rw [after_append, hafter, ha]

theorem head?_dropShifts (s : List Char) : (dropShifts false s).head? = (s.dropWhile (· == '$')).head? := by
  induction s with
  | nil => rfl
  | cons c s ih =>
    by_cases hc : c = '$'
    · rw [hc, dropShifts_shift, ih]
      rfl
    · rw [dropShifts, if_neg fun h => hc h.1, List.dropWhile_cons_of_neg (by simpa using hc)]
      rfl

/-- Behind a command name, a letter comes first when the shifts are dropped if there were shifts before it. -/
theorem takeWhile_dropShifts_iff (hs : ∀ c ∈ s.head?, isCommandLetter c = false) :
    (dropShifts false s).takeWhile isCommandLetter = [] ↔ ¬ ShiftsBeforeLetter s := by
  have hletter : (dropShifts false s).takeWhile isCommandLetter = [] ↔
      ∀ c ∈ (dropShifts false s).head?, isCommandLetter c = false := by
    cases dropShifts false s with
    | nil => simp
    | cons c t => cases hc : isCommandLetter c <;> simp [hc]
  rw [hletter, head?_dropShifts]
  constructor
  · rintro h ⟨shifts, c, t, rfl, -, hshifts, hc⟩
    have hcut : (shifts ++ c :: t).dropWhile (· == '$') = c :: t := by
      refine (takeWhile_append_of_head (fun d hd => by simp [hshifts d hd]) fun d hd => ?_).2
      obtain rfl := Option.some.inj hd
      exact beq_eq_false_iff_ne.2 (by rintro rfl; cases hc)
    have := h c (by rw [hcut]; rfl)
    rw [hc] at this
    cases this
  · intro h c hc
    refine Bool.eq_false_iff.2 fun hletter => h ?_
    obtain ⟨t, ht⟩ := List.head?_eq_some_iff.1 hc
    have hall : s.takeWhile (· == '$') ++ s.dropWhile (· == '$') = s := List.takeWhile_append_dropWhile
    refine ⟨s.takeWhile (· == '$'), c, t, by rw [← ht, hall], fun hnil => ?_, fun d hd => ?_, hletter⟩
    · rw [hnil, ht, List.nil_append] at hall
      have := hs c (by rw [← hall]; rfl)
      rw [hletter] at this
      cases this
    · simpa using List.mem_takeWhile_imp hd

/-- **Dropping math shifts.** In a text without comments no math shift is left, and the commands stay as they
are exactly if none of them is followed by math shifts and then a letter. -/
theorem tokens_dropShifts (hs : ∀ t ∈ tokens s, t.kind ≠ .comment) :
    tokenTexts .dollar (dropShifts false s) = [] ∧
      (tokenTexts .command (dropShifts false s) = tokenTexts .command s ↔ ¬ JoinsCommand s) := by
  have hdollar : TokenKind.dollar.IsFirm := ⟨by decide, by decide⟩
  have hcommand : TokenKind.command.IsFirm := ⟨by decide, by decide⟩
  refine silent_induction ?nil ?slash ?word ?escaped ?char s (silent_of_tokensFrom hs)
  case nil => exact ⟨tokenTexts_nil, iff_of_true rfl not_joinsCommand_nil⟩
  case slash => exact ⟨tokenTexts_slash hdollar, iff_of_true rfl not_joinsCommand_slash⟩
  case escaped =>
    rintro c s hc ⟨hnone, hsame⟩
    rw [dropShifts_escaped, joinsCommand_escaped_iff hc, tokenTexts_escaped hc, tokenTexts_escaped hc,
      tokenTexts_escaped hc, List.append_cancel_left_eq, hsame, hnone]
    refine ⟨?_, Iff.rfl⟩
    split <;> rfl
  case word =>
    intro name s hname hsilent ih
    obtain ⟨hnone, hsame⟩ := ih s List.suffix_rfl hsilent
    rw [dropShifts_word hname, joinsCommand_word_iff hname, tokenTexts_name hdollar hname.ne_nil hname.letters,
      tokenTexts_name hcommand hname.ne_nil hname.letters, tokenTexts_word hname, not_or, ← hsame,
      ← takeWhile_dropShifts_iff hname.behind]
    refine ⟨hnone, ?_⟩
    simp
  case char =>
    rintro c s hslash hpercent ⟨hnone, hsame⟩
    rw [joinsCommand_char_iff hslash hpercent, tokenTexts_char hcommand hslash hpercent,
      if_neg (ofChar?_ne_command c), List.nil_append]
    by_cases hc : c = '$'
    · rw [hc, dropShifts_shift]
      exact ⟨hnone, hsame⟩
    · rw [dropShifts_char hc hslash, tokenTexts_char hdollar hslash hpercent, tokenTexts_char hcommand hslash hpercent,
        if_neg (ofChar?_ne_command c), if_neg (mt ofChar?_eq_dollar_iff.1 hc)]
      exact ⟨hnone, hsame⟩

/-- Shifts around commands and letters, escaped ones, and one behind a line break. -/
theorem tokens_dropShifts_mixed :
    let s := "$\\alpha$ x$y \\$z\\\\$n\\beta$\\gamma$$".toList
    (∀ t ∈ tokens s, t.kind ≠ .comment) ∧ tokenTexts .dollar (dropShifts false s) = [] ∧ ¬ JoinsCommand s := by
  intro s
  have hs : ∀ t ∈ tokens s, t.kind ≠ .comment := by decide +kernel
  obtain ⟨hnone, hsame⟩ := tokens_dropShifts hs
  exact ⟨hs, hnone, hsame.1 (by decide +kernel)⟩

/-- A letter behind a shift is joined to the name before it, and the command becomes an unknown one. -/
theorem tokens_dropShifts_joined :
    let s := "\\alpha$x$".toList
    (∀ t ∈ tokens s, t.kind ≠ .comment) ∧ tokenTexts .command s = ["\\alpha".toList] ∧
      tokenTexts .command (dropShifts false s) = ["\\alphax".toList] ∧
      (transliterate s).diagnostics = [Remark.toDiagnostic (.unknownCommand "alphax".toList)] := by
  decide +kernel

end MathMarkup.Tex
