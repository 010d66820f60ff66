import MathMarkup.Proofs.Conversion.Unknown
import MathMarkup.Proofs.Conversion.Validity

/-!
# Conversion shows every character once

A script takes the atom before it along and changes the order of symbols, but not which there are
(`perm_attachScript`). So each piece adds to what is shown so far what it shows itself
(`accounts_placeAll`), and the markup of a text of unknown commands shows its characters, each as often
as it stands there.

Main theorem: `symbols_of_transliterate`.
-/

namespace MathMarkup.Tex

open MathML Markup Text Xml

variable {a b s body : List Char} {ps : List Piece} {cs ds : List Char} {c d : Converted} {p q : Progress} {m n : Nat}

/-! ## Atoms -/

/-- A scripted atom shows its base, its subscript and its superscript. -/
theorem Atom.symbols_scripted (base : List Markup) (sub sup : Option (List Markup)) :
    allSymbols (Atom.scripted base sub sup).markup =
      allSymbols base ++ (allSymbols (sub.getD []) ++ allSymbols (sup.getD [])) := by
  cases sub <;> cases sup <;> simp [Atom.markup, node, symbols_element, isSymbolElement]

theorem Atom.symbols_withScript (base : List Markup) (sub : Bool) (operand : List Markup) :
    allSymbols (Atom.withScript base sub operand).markup = allSymbols base ++ allSymbols operand := by
  cases sub <;> simp [Atom.withScript, Atom.symbols_scripted]

/-- A subscript behind a superscript is shown in front of it. -/
theorem Atom.perm_addScript (sub : Bool) (operand : List Markup) (a : Atom) :
    (allSymbols (a.addScript sub operand).markup).Perm (allSymbols a.markup ++ allSymbols operand) := by
  unfold Atom.addScript
  split
  · rw [Atom.symbols_scripted, Atom.symbols_scripted, List.append_assoc]
    exact List.perm_append_comm.append_left _
  · rw [Atom.symbols_scripted, Atom.symbols_scripted, List.append_assoc, List.append_assoc]
    exact .refl _
  · rw [Atom.symbols_withScript]

theorem perm_attachScript (sub : Bool) (operand : List Markup) (atoms : List Atom) :
    (allSymbols ((attachScript sub operand atoms).reverse.flatMap Atom.markup)).Perm
      (allSymbols (atoms.reverse.flatMap Atom.markup) ++ allSymbols operand) := by
  cases atoms with
  | nil => simp [attachScript, Atom.symbols_withScript]
  | cons a atoms =>
    simp only [attachScript, List.reverse_cons, List.flatMap_append, List.flatMap_singleton, allSymbols_append,
      List.append_assoc]
    exact (a.perm_addScript sub operand).append_left _

/-! ## Pieces -/

/-- The markup shows these characters in some order, and the remarks tell of this many unknown commands. -/
structure Accounts (c : Converted) (cs : List Char) (n : Nat) : Prop where
  shown : (allSymbols c.markup).flatten.Perm cs
  legible : ∀ s ∈ allSymbols c.markup, IsLegible s
  remarks : c.remarks.countP (·.category == .undefinedCommand) = n

/-- What is placed behind other markup. -/
theorem Accounts.append (hc : Accounts c cs n) (hd : Accounts d ds m) :
    Accounts ⟨c.markup ++ d.markup, c.remarks ++ d.remarks⟩ (cs ++ ds) (n + m) where
  shown := by
    rw [allSymbols_append, List.flatten_append]
    exact hc.shown.append hd.shown
  legible := by
    rw [allSymbols_append]
    exact List.forall_mem_append.2 ⟨hc.legible, hd.legible⟩
  remarks := by rw [List.countP_append, hc.remarks, hd.remarks]

/-- Only the symbols and the remarks matter. -/
theorem Accounts.of_perm (hc : Accounts c cs n) (hperm : (allSymbols d.markup).Perm (allSymbols c.markup))
    (hremarks : d.remarks = c.remarks) : Accounts d cs n where
  shown := hperm.flatten.trans hc.shown
  legible := fun s hs => hc.legible s (hperm.subset hs)
  remarks := hremarks ▸ hc.remarks

theorem Progress.finish_push (p : Progress) (m : Markup) (remarks : List Remark) :
    (p.push m remarks).finish = ⟨p.finish.markup ++ [m], p.finish.remarks ++ remarks⟩ := by
  simp [Progress.finish, Progress.push, Atom.markup]

/-- Placing a piece adds to what is shown. -/
theorem accounts_place {f : List Char → Option Converted}
    (hf : ∀ a c, OnlyUnknown a → f a = some c → Accounts c (shownText a) (commandCount a)) {piece : Piece}
    (hpiece : piece.Shows ds m) (hp : Accounts p.finish cs n) (h : place f p piece = some q) :
    Accounts q.finish (cs ++ ds) (n + m) := by
  cases hpiece with
  | @remark r hr =>
    cases h
    have hadd : Accounts ⟨[], [r]⟩ [] 0 := ⟨by simp, by simp, by simp [hr]⟩
    exact (hp.append hadd).of_perm (by simp [Progress.finish]) rfl
  | unknown name =>
    cases h
    have hadd : Accounts ⟨[], [.unknownCommand name]⟩ [] 1 := ⟨by simp, by simp, rfl⟩
    exact (hp.append hadd).of_perm (by simp [Progress.finish]) rfl
  | @symbol m s hm hs =>
    cases h
    have hadd : Accounts ⟨[m], []⟩ ds 0 := ⟨by simp [hm], by simpa [hm] using hs, rfl⟩
    rw [Progress.finish_push]
    exact hp.append hadd
  | @row a ha =>
    simp only [place, Option.bind_eq_bind, Option.pure_def, Option.bind_eq_some_iff, Option.some.injEq] at h
    obtain ⟨c, hc, rfl⟩ := h
    rw [Progress.finish_push]
    exact (hp.append (hf a c ha hc)).of_perm (by simp) rfl
  | @script sub a ha =>
    simp only [place, Option.bind_eq_bind, Option.pure_def, Option.bind_eq_some_iff, Option.some.injEq] at h
    obtain ⟨c, hc, rfl⟩ := h
    refine (hp.append (hf a c ha hc)).of_perm ?_ rfl
    rw [allSymbols_append]
    exact perm_attachScript sub c.markup p.atoms

theorem accounts_placeAll {f : List Char → Option Converted}
    (hf : ∀ a c, OnlyUnknown a → f a = some c → Accounts c (shownText a) (commandCount a))
    (hps : AllShow ps ds m) (hp : Accounts p.finish cs n) (h : placeAll f p ps = some q) :
    Accounts q.finish (cs ++ ds) (n + m) := by
  induction hps generalizing p cs n with
  | nil =>
    cases h
    rwa [List.append_nil, Nat.add_zero]
  | cons hpiece _ ih =>
    simp only [placeAll, Option.bind_eq_bind, Option.bind_eq_some_iff] at h
    obtain ⟨p', hplace, h⟩ := h
    rw [← List.append_assoc, ← Nat.add_assoc]
    exact ih (accounts_place hf hpiece hp hplace) h

/-- **The markup of a text of unknown commands** shows its characters, and there is a remark for each of
its commands. -/
theorem accounts_convert {fuel : Nat} (hs : OnlyUnknown s) (h : convert fuel s = some c) :
    Accounts c (shownText s) (commandCount s) := by
  induction fuel generalizing s c with
  | zero => cases h
  | succ fuel ih =>
    rw [convert, Option.map_eq_some_iff] at h
    obtain ⟨q, hplace, rfl⟩ := h
    have hempty : Accounts (Progress.finish ⟨[], []⟩) [] 0 := ⟨.refl _, by simp [Progress.finish], rfl⟩
    simpa using accounts_placeAll (fun a c ha hc => ih ha hc) (allShow_pieces hs) hempty hplace

/-! ## The bare expression -/

theorem shownText_of_isBlank (h : ∀ c ∈ a, isBlank c = true) : shownText a = [] :=
  shownText_eq_nil fun c hc => isShown_of_isBlank (h c hc)

theorem slash_notMem_of_isBlank (h : ∀ c ∈ a, isBlank c = true) : '\\' ∉ a := fun hmem =>
  absurd (h _ hmem) (by decide)

/-- Blanks at the ends show nothing and hold no commands. -/
theorem OnlyUnknown.trim (h : OnlyUnknown s) :
    OnlyUnknown (trim s) ∧ shownText (trim s) = shownText s ∧ commandCount (trim s) = commandCount s := by
  obtain ⟨a, b, hs, ha, hb⟩ := append_trim s
  generalize Text.trim s = t at hs ⊢
  subst hs
  rw [List.append_assoc] at h ⊢
  rw [shownText_append, shownText_append, shownText_of_isBlank ha, shownText_of_isBlank hb, List.append_nil,
    List.nil_append, commandCount_append_of_notMem (slash_notMem_of_isBlank ha)]
  cases b with
  | nil => simpa using h.of_append
  | cons x b =>
    have hx : isCommandLetter x = false := Bool.eq_false_iff.2 fun hletter => by
      have hblank := hb x List.mem_cons_self
      rw [isBlank_eq_false_of_isCommandLetter hletter] at hblank
      cases hblank
    obtain ⟨ht, hcount⟩ := h.of_append.append_cons hx
    rw [hcount, commandCount_eq_zero (slash_notMem_of_isBlank hb), Nat.add_zero]
    exact ⟨ht, rfl, rfl⟩

theorem OnlyUnknown.dollar_notMem (h : OnlyUnknown s) : '$' ∉ s := by
  induction s with
  | nil => simp
  | cons c s ih => exact List.not_mem_cons_of_ne_of_not_mem (Ne.symm h.2.1) (ih h.2.2.2)

theorem dropShifts_eq_self {escaped : Bool} (h : '$' ∉ s) : dropShifts escaped s = s := by
  induction s generalizing escaped with
  | nil => rfl
  | cons c s ih =>
    rw [List.mem_cons, not_or] at h
    rw [dropShifts, if_neg fun hc => h.1 hc.1.symm, ih h.2]

/-- No math delimiters enclose a text of unknown commands. -/
theorem OnlyUnknown.stripDelimiters?_eq_none (h : OnlyUnknown s) : stripDelimiters? s = none := by
  have hdollars : after? ['$', '$'] s = none := Option.eq_none_iff_forall_ne_some.2 fun t ht => by
    rw [eq_append_of_after? ht] at h
    exact h.2.1 rfl
  have hbrackets : after? ['\\', '['] s = none := Option.eq_none_iff_forall_ne_some.2 fun t ht => by
    rw [eq_append_of_after? ht] at h
    exact absurd h.isCommandLetter_head (by decide)
  simp [stripDelimiters?, betweenDollars?, betweenBrackets?, between?, hdollars, hbrackets]

theorem OnlyUnknown.stripEnvironment?_eq_none (h : OnlyUnknown s) : stripEnvironment? s = none := by
  rw [stripEnvironment?, List.findSome?_eq_none_iff]
  intro name _
  have hbegin : after? (beginOf name) s = none := Option.eq_none_iff_forall_ne_some.2 fun t ht => by
    rw [eq_append_of_after? ht] at h
    have hbegin : OnlyUnknown ('\\' :: (envWord true ++ '{' :: (name ++ '}' :: t))) := by
      simpa [beginOf, envWord] using h
    exact (hbegin.isUnknown (isWordBefore_envWord true _)).notBegin rfl
  rw [between?, hbegin, Option.bind_none]

/-- Only blanks are taken away from a text of unknown commands. -/
theorem OnlyUnknown.expressionBody (h : OnlyUnknown s) :
    OnlyUnknown (expressionBody s) ∧ shownText (expressionBody s) = shownText s ∧
      commandCount (expressionBody s) = commandCount s := by
  obtain ⟨h₁, hshown₁, hcount₁⟩ := h.trim
  obtain ⟨h₂, hshown₂, hcount₂⟩ := h₁.trim
  obtain ⟨h₃, hshown₃, hcount₃⟩ := h₂.trim
  have hbody : Tex.expressionBody s = Text.trim (Text.trim (Text.trim s)) := by
    rw [Tex.expressionBody, stripDisplay]
    simp only [h₁.stripDelimiters?_eq_none, Option.getD_none, h₂.stripEnvironment?_eq_none]
    exact dropShifts_eq_self h₃.dollar_notMem
  rw [hbody, hshown₃, hshown₂, hshown₁, hcount₃, hcount₂, hcount₁]
  exact ⟨h₃, rfl, rfl⟩

/-! ## A single row -/

theorem OnlyUnknown.drop {x : Char} (h : OnlyUnknown (x :: s)) (k : Nat) : OnlyUnknown (s.drop k) := by
  have hs := h.2.2.2
  rw [← List.take_append_drop k s] at hs
  exact hs.of_append

/-- A backslash takes its word, or stands for itself at the end. -/
theorem OnlyUnknown.munch_slash (h : OnlyUnknown ('\\' :: s)) {kind : TokenKind} {k : Nat}
    (hm : munch '\\' s = (kind, k)) :
    s = [] ∨ ∃ name rest, s = name ++ rest ∧ IsWordBefore name rest ∧ kind = .command ∧ k = name.length := by
  rcases h.slash with rfl | ⟨name, rest, rfl, hname, -⟩
  · exact Or.inl rfl
  · rw [munch_word hname.ne_nil hname.letters hname.behind] at hm
    obtain ⟨rfl, rfl⟩ := Prod.mk.inj hm
    exact Or.inr ⟨name, rest, rfl, hname, rfl, rfl⟩

/-- The backslash of a token stands at its start. -/
theorem OnlyUnknown.slash_notMem_take {x : Char} (h : OnlyUnknown (x :: s)) {kind : TokenKind} {k : Nat}
    (hm : munch x s = (kind, k)) : '\\' ∉ s.take k := by
  intro hmem
  by_cases hslash : x = '\\'
  · subst hslash
    rcases h.munch_slash hm with rfl | ⟨name, rest, rfl, hname, -, rfl⟩
    · simp at hmem
    · rw [List.take_left] at hmem
      exact hname.notMem rfl hmem
  · have hkind : kind ≠ .comment := fun hcomment => h.1 ((munch_comment_iff hm).1 hcomment)
    exact (munch_chars hm hslash hkind _ (List.mem_cons_of_mem x hmem)).1 rfl

/-- **One backslash at most is left** of a text of unknown commands when its spans are taken out. -/
theorem count_slash_protectFrom {k covered : Nat} (h : OnlyUnknown s) :
    (Placeholders.protectFrom k covered s).2.count '\\' ≤ 1 := by
  fun_induction Placeholders.protectFrom k covered s with
  | case1 => simp
  | case2 k covered x s kind m hm token hcov spans out hrec ih =>
    rw [hrec] at ih
    have hnone : '\\' ∉ token.drop covered := by
      obtain ⟨j, rfl⟩ := Nat.exists_eq_add_of_lt hcov
      intro hmem
      exact h.slash_notMem_take hm (List.mem_of_mem_drop (i := j) (by simpa [token, Nat.add_comm] using hmem))
    rw [List.count_append, List.count_eq_zero_of_not_mem hnone, Nat.zero_add]
    exact ih (h.drop m)
  | case3 k covered x s kind m hm token hcov hword tail spans out hrec ih =>
    rw [hrec] at ih
    have hnone : '\\' ∉ placeholder k := fun hmem => absurd (isTokenChar_of_mem_placeholder hmem) (by decide)
    rw [List.count_append, List.count_eq_zero_of_not_mem hnone, Nat.zero_add]
    exact ih (h.drop m)
  | case4 k covered x s kind m hm token hcov hword spans out hrec ih =>
    rw [hrec] at ih
    by_cases hslash : x = '\\'
    · -- no word, so the end of the text
      subst hslash
      rcases h.munch_slash hm with rfl | ⟨name, rest, rfl, hname, rfl, rfl⟩
      · rw [List.drop_nil, Placeholders.protectFrom, Prod.mk.injEq] at hrec
        obtain ⟨-, rfl⟩ := hrec
        simp [token]
      · have hlength := List.length_pos_iff.2 hname.ne_nil
        exact absurd (by simpa [isWordCommand, token, hlength] using hname.letters) hword
    · have hnone : '\\' ∉ token := by
        rw [List.mem_cons, not_or]
        exact ⟨Ne.symm hslash, h.slash_notMem_take hm⟩
      rw [List.count_append, List.count_eq_zero_of_not_mem hnone, Nat.zero_add]
      exact ih (h.drop m)

/-- Without a line break outside of commands a text is a single row. -/
theorem convertBody_of_not_break (fuel : Nat) (h : ¬ lineBreak <:+: (Placeholders.empty.protect body).2) :
    convertBody fuel body = convert fuel body := by
  have hrows : (tableCells body).length ≤ 1 := by
    rw [tableCells]
    simp only [List.length_map]
    rw [splitRows, splitOn_collapseLineBreaks, breakRows_of_none (breakOn?_eq_none_iff.2 h)]
    exact (List.length_filter_le _ _).trans_eq rfl
  rw [convertBody]
  simp only [if_neg (Nat.not_lt.2 hrows)]

/-- A text of unknown commands is a single row. -/
theorem convertBody_of_onlyUnknown (fuel : Nat) (h : OnlyUnknown body) : convertBody fuel body = convert fuel body := by
  refine convertBody_of_not_break fuel fun hbreak => ?_
  have htwo : lineBreak.count '\\' ≤ (Placeholders.empty.protect body).2.count '\\' := hbreak.sublist.count_le _
  have hone : (Placeholders.empty.protect body).2.count '\\' ≤ 1 := count_slash_protectFrom h
  exact absurd (htwo.trans hone) (by decide)

/-! ## Whole expressions -/

/-- **Nothing is lost and nothing is shown twice.** When no command of a text has a rule, the symbols
that are read from its MathML are the characters of the text that can be shown, each as often as it
stands there, and there is a diagnostic for every command. -/
theorem symbols_of_transliterate (s : List Char) (hmark : hasMark s = false) (hpercent : '%' ∉ s) (hdollar : '$' ∉ s)
    (hbreak : ¬ lineBreak <:+: s)
    (hcommands : ∀ t ∈ tokens s, t.kind = .command → ∃ name, t.word? = some name ∧ IsUnknown name) :
    ∃ t root, transliterate? s = some t ∧ transliterate s = t ∧ Xml.parse t.mathml = .ok root ∧
      (nodeSymbols root.toNode).flatten.Perm (shownText s) ∧
      t.diagnostics.countP (·.category == .undefinedCommand) = (tokens s).countP (·.kind == .command) := by
  obtain ⟨hs, hcount⟩ := onlyUnknown_of_tokensFrom hpercent hdollar hbreak hcommands
  obtain ⟨hbody, hshown, hbodyCount⟩ := hs.expressionBody
  obtain ⟨t, ht⟩ := Option.isSome_iff_exists.1 (isSome_transliterate? (noToken_expressionBody hmark))
  have htransliterate : transliterate s = t := by rw [transliterate, ht, Option.getD_some]
  have hconverted : (convertBody (nestingBound (expressionBody s)) (expressionBody s)).map
      Converted.transliteration = some t := ht
  generalize expressionBody s = body at hbody hshown hbodyCount hconverted
  rw [Option.map_eq_some_iff] at hconverted
  obtain ⟨c, hc, rfl⟩ := hconverted
  rw [convertBody_of_onlyUnknown _ hbody] at hc
  have haccounts := accounts_convert hbody hc
  rw [hshown, hbodyCount] at haccounts
  obtain ⟨root, hparse, hsymbols⟩ := symbols_of_parse_math (sound_convert hc) haccounts.legible
  refine ⟨_, root, ht, htransliterate, hparse, hsymbols ▸ haccounts.shown, ?_⟩
  rw [tokens, hcount, ← haccounts.remarks]
  exact List.countP_map

/-- A script in a script, a closing brace too many and one too few, an operand that is a command, a sign
that needs an escape, and a backslash at the end. -/
theorem symbols_of_transliterate_unbalanced :
    hasMark "x_\x7b\\foo^2*\x7d\x7d^\\qux/<\x7b3.14&\\".toList = false ∧
    ∃ t root, transliterate? "x_\x7b\\foo^2*\x7d\x7d^\\qux/<\x7b3.14&\\".toList = some t ∧
      transliterate "x_\x7b\\foo^2*\x7d\x7d^\\qux/<\x7b3.14&\\".toList = t ∧ Xml.parse t.mathml = .ok root ∧
      (nodeSymbols root.toNode).flatten.Perm "x\\foo2×\\qux÷<3.14\\".toList ∧
      t.diagnostics.countP (·.category == .undefinedCommand) = 2 := by
  have hmark : hasMark "x_\x7b\\foo^2*\x7d\x7d^\\qux/<\x7b3.14&\\".toList = false := by decide
  have hfoo : IsUnknown "foo".toList := ⟨by decide, by decide, by decide, by decide, by decide⟩
  have hqux : IsUnknown "qux".toList := ⟨by decide, by decide, by decide, by decide, by decide⟩
  have hwords : ∀ t ∈ tokens "x_\x7b\\foo^2*\x7d\x7d^\\qux/<\x7b3.14&\\".toList, t.kind = .command →
      t.word? = some "foo".toList ∨ t.word? = some "qux".toList := by decide +kernel
  have hbreak : ¬ lineBreak <:+: "x_\x7b\\foo^2*\x7d\x7d^\\qux/<\x7b3.14&\\".toList := by decide
  have hall := symbols_of_transliterate _ hmark (by decide) (by decide) hbreak fun t ht hkind =>
    (hwords t ht hkind).elim (fun hword => ⟨_, hword, hfoo⟩) fun hword => ⟨_, hword, hqux⟩
  have hshown : shownText "x_\x7b\\foo^2*\x7d\x7d^\\qux/<\x7b3.14&\\".toList = "x\\foo2×\\qux÷<3.14\\".toList := by
    decide
  have hcount : (tokens "x_\x7b\\foo^2*\x7d\x7d^\\qux/<\x7b3.14&\\".toList).countP (·.kind == .command) = 2 := by
    decide +kernel
  rw [hshown, hcount] at hall
  exact ⟨hmark, hall⟩

end MathMarkup.Tex
