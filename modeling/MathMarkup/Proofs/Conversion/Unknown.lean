import MathMarkup.Proofs.Conversion.Reading
import MathMarkup.Proofs.Markup.Symbols
import MathMarkup.Proofs.Normal.Covered

/-!
# Texts whose commands are all unknown

Where no command has a rule (`OnlyUnknown`), a text turns into symbols that show its characters, groups and
scripts, and remarks. What is left to convert is such a text again, and each reader hands on what it does
not turn into pieces (`ShowsFrom`), so the pieces show the characters of the text in order, and there is
a remark for every command.

Main theorem: `allShow_pieces`.
-/

namespace MathMarkup.Tex

open MathML Text

variable {c x : Char} {a b s t name rest operand : List Char} {ps qs : List Piece} {cs ds : List Char} {m n : Nat}

/-! ## Characters -/

/-- The signs that groups, scripts and cells are written with. -/
def structureSigns : List Char := ['{', '}', '^', '_', '&']

/-- Does the markup of an expression show this character? -/
def isShown (c : Char) : Bool := isCarried c && !isBlank c && !structureSigns.contains c

/-- What a character is shown as. -/
def shownAs (c : Char) : Char := if c = '*' then '×' else if c = '/' then '÷' else c

/-- The characters that the markup of a text shows. -/
def shownText (s : List Char) : List Char := (s.filter isShown).map shownAs

theorem shownText_append (a b : List Char) : shownText (a ++ b) = shownText a ++ shownText b := by
  simp [shownText]

theorem shownText_cons_of_hidden (h : isShown c = false) (s : List Char) : shownText (c :: s) = shownText s := by
  simp [shownText, h]

theorem shownText_cons_of_shown (h : isShown c = true) (s : List Char) :
    shownText (c :: s) = shownAs c :: shownText s := by
  simp [shownText, h]

theorem shownText_eq_nil (h : ∀ c ∈ a, isShown c = false) : shownText a = [] := by
  rw [shownText, List.filter_eq_nil_iff.2 fun c hc => by simp [h c hc], List.map_nil]

theorem shownText_eq_self (h : ∀ c ∈ a, isShown c = true ∧ shownAs c = c) : shownText a = a := by
  rw [shownText, List.filter_eq_self.2 fun c hc => (h c hc).1, List.map_congr_left fun c hc => (h c hc).2,
    List.map_id']

theorem isShown_of_isBlank (h : isBlank c = true) : isShown c = false := by simp [isShown, h]

/-- The printing characters of ASCII are shown as they are, but for the signs that groups, scripts and cells
are written with and the two that stand for operators. -/
theorem shown_of_range (hlow : 0x21 ≤ c.toNat) (hhigh : c.toNat ≤ 0x7e) (hnone : c ∉ '*' :: '/' :: structureSigns) :
    isShown c = true ∧ shownAs c = c := by
  rw [List.mem_cons, List.mem_cons, not_or, not_or] at hnone
  have hcarried : isCarried c = true := by
    simp only [isCarried]
    rw [if_neg (by omega)]
    simp only [Bool.and_eq_true, Bool.not_eq_true', Bool.and_eq_false_iff, decide_eq_false_iff_not, bne_iff_ne, ne_eq]
    omega
  have hblank : isBlank c = false := by
    rw [Bool.eq_false_iff]
    simp only [isBlank, blankRanges, inRanges]
    grind
  refine ⟨?_, ?_⟩
  · simp [isShown, hcarried, hblank, hnone.2.2]
  · rw [shownAs, if_neg hnone.1, if_neg hnone.2.1]

/-- A character of a class is none of the signs that are not in it. -/
theorem notMem_of_any_eq_false {p : Char → Bool} (hc : p c = true) (hs : s.any p = false) : c ∉ s := fun hmem => by
  rw [List.any_eq_false] at hs
  exact hs c hmem hc

theorem shown_of_isCommandLetter (h : isCommandLetter c = true) : isShown c = true ∧ shownAs c = c := by
  have hrange := toNat_of_isAlpha h
  exact shown_of_range (by omega) (by omega) (notMem_of_any_eq_false h rfl)

theorem shown_of_isDigit (h : c.isDigit = true) : isShown c = true ∧ shownAs c = c := by
  have hrange := h
  rw [Char.isDigit, Bool.and_eq_true, decide_eq_true_eq, decide_eq_true_eq] at hrange
  have hlow : 48 ≤ c.toNat := hrange.1
  have hhigh : c.toNat ≤ 57 := hrange.2
  exact shown_of_range (by omega) (by omega) (notMem_of_any_eq_false h rfl)

/-! ## Texts -/

/-- The conversion has no rule for commands of this name. -/
structure IsUnknown (name : List Char) : Prop where
  notBegin : String.ofList name ≠ "begin"
  notEnd : String.ofList name ≠ "end"
  notSizing : sizingCommands.contains (String.ofList name) = false
  noConstruct : build? (String.ofList name) = none
  noSymbol : symbol? (String.ofList name) = none

/-- Each backslash starts an unknown command or stands at the very end; there are no comments and no math
shifts. -/
def OnlyUnknown : List Char → Prop
  | [] => True
  | c :: s =>
    c ≠ '%' ∧ c ≠ '$' ∧ (c = '\\' → s = [] ∨ ∃ name rest, s = name ++ rest ∧ IsWordBefore name rest ∧ IsUnknown name) ∧
      OnlyUnknown s

/-- The backslashes but one at the very end. -/
def commandCount : List Char → Nat
  | [] => 0
  | c :: s => (if c = '\\' ∧ s ≠ [] then 1 else 0) + commandCount s

theorem commandCount_cons_of_ne (h : c ≠ '\\') (s : List Char) : commandCount (c :: s) = commandCount s := by
  rw [commandCount, if_neg fun hboth => h hboth.1, Nat.zero_add]

theorem commandCount_append_of_notMem (h : '\\' ∉ a) (b : List Char) : commandCount (a ++ b) = commandCount b := by
  induction a with
  | nil => rfl
  | cons c a ih =>
    rw [List.mem_cons, not_or] at h
    rw [List.cons_append, commandCount_cons_of_ne (Ne.symm h.1), ih h.2]

theorem commandCount_eq_zero (h : '\\' ∉ a) : commandCount a = 0 := by
  rw [← List.append_nil a, commandCount_append_of_notMem h, commandCount]

theorem OnlyUnknown.of_append (h : OnlyUnknown (a ++ b)) : OnlyUnknown b := by
  induction a with
  | nil => exact h
  | cons c a ih => exact ih h.2.2.2

theorem IsWordBefore.exists_cons (h : IsWordBefore name rest) :
    ∃ c t, name = c :: t ∧ isCommandLetter c = true ∧ c ≠ '\\' := by
  obtain ⟨c, t, rfl⟩ := List.exists_cons_of_ne_nil h.ne_nil
  have hletter := h.letters c List.mem_cons_self
  exact ⟨c, t, rfl, hletter, (isPlain_of_isCommandLetter hletter).1⟩

theorem IsWordBefore.atEnd (h : IsWordBefore name rest) : IsWordBefore name [] := ⟨h.ne_nil, h.letters, by simp⟩

theorem IsWordBefore.notMem (h : IsWordBefore name rest) (hx : isCommandLetter x = false) : x ∉ name := fun hmem => by
  rw [h.letters x hmem] at hx
  cases hx

/-- Characters that start no command stand in front of a text of unknown commands. -/
theorem OnlyUnknown.append (hb : OnlyUnknown b) (hslash : '\\' ∉ a) (hpercent : '%' ∉ a) (hdollar : '$' ∉ a) :
    OnlyUnknown (a ++ b) := by
  induction a with
  | nil => exact hb
  | cons c a ih =>
    rw [List.mem_cons, not_or] at hslash hpercent hdollar
    exact ⟨Ne.symm hpercent.1, Ne.symm hdollar.1, fun hc => absurd hc.symm hslash.1, ih hslash.2 hpercent.2 hdollar.2⟩

/-- A backslash and the name of an unknown command. -/
theorem OnlyUnknown.command (hrest : OnlyUnknown rest) (hname : IsWordBefore name rest) (hunknown : IsUnknown name) :
    OnlyUnknown ('\\' :: (name ++ rest)) := by
  refine ⟨by decide, by decide, fun _ => Or.inr ⟨name, rest, rfl, hname, hunknown⟩, ?_⟩
  exact hrest.append (hname.notMem rfl) (hname.notMem rfl) (hname.notMem rfl)

theorem commandCount_command (hname : IsWordBefore name rest) :
    commandCount ('\\' :: (name ++ rest)) = 1 + commandCount rest := by
  have hslash : '\\' ∉ name := hname.notMem rfl
  rw [commandCount, if_pos ⟨rfl, by simp [hname.ne_nil]⟩, commandCount_append_of_notMem hslash]

/-- What stands in front of a character that is no letter holds the words that start in it. -/
theorem IsWordBefore.exists_append (h : IsWordBefore name rest) (hx : isCommandLetter x = false)
    (heq : a ++ x :: b = name ++ rest) : ∃ z, a = name ++ z ∧ IsWordBefore name z := by
  rcases List.append_eq_append_iff.1 heq with ⟨z, hname, hrest⟩ | ⟨z, rfl, hrest⟩
  · cases z with
    | nil => exact ⟨[], by simpa using hname.symm, h.atEnd⟩
    | cons d z =>
      obtain ⟨rfl, -⟩ := List.cons.inj hrest
      have hletter := h.letters x (by rw [hname]; simp)
      rw [hx] at hletter
      cases hletter
  · refine ⟨z, rfl, h.ne_nil, h.letters, fun d hd => h.behind d ?_⟩
    cases z with
    | nil => cases hd
    | cons e z => rw [hrest]; exact hd

/-- **A cut** in front of a character that is no letter cuts no command. -/
theorem OnlyUnknown.append_cons (h : OnlyUnknown (a ++ x :: b)) (hx : isCommandLetter x = false) :
    OnlyUnknown a ∧ commandCount (a ++ x :: b) = commandCount a + commandCount (x :: b) := by
  induction a with
  | nil => exact ⟨trivial, (Nat.zero_add _).symm⟩
  | cons c a ih =>
    obtain ⟨hpercent, hdollar, hslash, htail⟩ := h
    obtain ⟨ha, hcount⟩ := ih htail
    by_cases hc : c = '\\'
    · rcases hslash hc with hnil | ⟨name, rest, heq, hword, hunknown⟩
      · simp at hnil
      · obtain ⟨z, rfl, hword'⟩ := hword.exists_append hx heq
        refine ⟨⟨hpercent, hdollar, fun _ => Or.inr ⟨name, z, rfl, hword', hunknown⟩, ha⟩, ?_⟩
        have hne : name ++ z ≠ [] := by simp [hword.ne_nil]
        rw [List.cons_append, commandCount, commandCount, hcount, if_pos ⟨hc, by simp⟩, if_pos ⟨hc, hne⟩, Nat.add_assoc]
    · refine ⟨⟨hpercent, hdollar, fun hslash => absurd hslash hc, ha⟩, ?_⟩
      rw [List.cons_append, commandCount_cons_of_ne hc, commandCount_cons_of_ne hc, hcount]

/-! ## Tokens -/

/-- A token that is no command without a word, in front of a text of unknown commands. -/
theorem onlyUnknown_of_munch {kind : TokenKind} {k offset : Nat} (hm : munch c s = (kind, k)) (hpercent : c ≠ '%')
    (hdollar : '$' ∉ c :: s) (hbreak : ¬ lineBreak <+: c :: s)
    (hcommand : kind = .command → ∃ name, (Token.mk kind (c :: s.take k) offset).word? = some name ∧ IsUnknown name)
    (hrest : OnlyUnknown (s.drop k)) : OnlyUnknown (c :: s) ∧
      commandCount (c :: s) = (if kind = .command then 1 else 0) + commandCount (s.drop k) := by
  by_cases hslash : c = '\\'
  · subst hslash
    rcases (munch_slash_cases hm).2 with ⟨rfl, rfl⟩ | ⟨d, t, rfl, hd, rfl⟩ | ⟨name, t, rfl, hname, rfl⟩
    · obtain rfl : kind = .text := (Prod.mk.inj hm).1.symm
      exact ⟨⟨by decide, by decide, fun _ => Or.inl rfl, trivial⟩, rfl⟩
    · -- no line break, so a command without a word
      have hd' : d ≠ '\\' := by
        rintro rfl
        exact hbreak ⟨t, rfl⟩
      obtain rfl : kind = .command := by
        rw [munch, if_pos rfl, afterBackslash, if_neg hd', hd] at hm
        exact (Prod.mk.inj hm).1.symm
      obtain ⟨name, hword, -⟩ := hcommand rfl
      obtain ⟨-, hne, htake⟩ := (word?_munch hm offset).1 hword
      rw [List.takeWhile_cons_of_neg (by simp [hd])] at htake
      exact absurd htake.symm hne
    · obtain rfl : kind = .command := by
        rw [munch_word hname.ne_nil hname.letters hname.behind] at hm
        exact (Prod.mk.inj hm).1.symm
      obtain ⟨name', hword, hunknown⟩ := hcommand rfl
      obtain rfl : name = name' :=
        (takeWhile_append_of_head hname.letters hname.behind).1.symm.trans ((word?_munch hm offset).1 hword).2.2
      rw [List.drop_left] at hrest ⊢
      exact ⟨hrest.command hname hunknown, by rw [commandCount_command hname, if_pos rfl]⟩
  · have hkind : kind ≠ .comment := fun hcomment => hpercent ((munch_comment_iff hm).1 hcomment)
    have hchars := munch_chars hm hslash hkind
    have hnone : '\\' ∉ c :: s.take k := fun hmem => (hchars _ hmem).1 rfl
    have hcommand : kind ≠ .command := by
      rintro rfl
      exact hslash (eq_slash_of_munch hm)
    have hcut : c :: s = c :: s.take k ++ s.drop k := by simp
    rw [hcut] at hdollar ⊢
    refine ⟨hrest.append hnone (fun hmem => (hchars _ hmem).2 rfl) fun hmem => hdollar (List.mem_append_left _ hmem), ?_⟩
    rw [commandCount_append_of_notMem hnone, if_neg hcommand, Nat.zero_add]

/-- **The tokens of a text tell** that its commands are unknown, and how many there are. -/
theorem onlyUnknown_of_tokensFrom {offset : Nat} (hpercent : '%' ∉ s) (hdollar : '$' ∉ s)
    (hbreak : ¬ lineBreak <:+: s)
    (hcommands : ∀ t ∈ tokensFrom offset s, t.kind = .command → ∃ name, t.word? = some name ∧ IsUnknown name) :
    OnlyUnknown s ∧ (tokensFrom offset s).countP (·.kind == .command) = commandCount s := by
  fun_induction tokensFrom offset s with
  | case1 => exact ⟨trivial, rfl⟩
  | case2 offset c s kind k hm text ih =>
    rw [List.forall_mem_cons] at hcommands
    have hsuffix : s.drop k <:+ c :: s := (List.drop_suffix k s).trans (List.suffix_cons c s)
    obtain ⟨hrest, hcount⟩ := ih (fun hmem => hpercent (hsuffix.subset hmem))
      (fun hmem => hdollar (hsuffix.subset hmem)) (fun hin => hbreak (hin.trans hsuffix.isInfix)) hcommands.2
    have hfirst : c ≠ '%' := fun hc => hpercent (hc ▸ List.mem_cons_self)
    obtain ⟨hs, hcount'⟩ := onlyUnknown_of_munch hm hfirst hdollar (fun hpre => hbreak hpre.isInfix) hcommands.1 hrest
    refine ⟨hs, ?_⟩
    rw [List.countP_cons, hcount, hcount', Nat.add_comm]
    simp

/-! ## Parts of a text -/

/-- The two parts show what the text shows, and hold its commands. -/
structure Parts (s a b : List Char) : Prop where
  first : OnlyUnknown a
  rest : OnlyUnknown b
  shown : shownText s = shownText a ++ shownText b
  commands : commandCount s = commandCount a + commandCount b

/-- A sign that is not shown stands in front of the parts. -/
theorem Parts.cons_of_hidden (h : Parts s a b) (hc : isShown c = false) : Parts (c :: s) a b := by
  have hslash : c ≠ '\\' := by
    rintro rfl
    exact absurd hc (by decide)
  exact ⟨h.first, h.rest, by rw [shownText_cons_of_hidden hc, h.shown],
    by rw [commandCount_cons_of_ne hslash, h.commands]⟩

theorem Parts.append_of_hidden (h : Parts s a b) (ht : ∀ c ∈ t, isShown c = false) : Parts (t ++ s) a b := by
  induction t with
  | nil => exact h
  | cons c t ih =>
    rw [List.forall_mem_cons] at ht
    exact (ih ht.2).cons_of_hidden ht.1

/-- Characters that start no command are a part of their own. -/
theorem OnlyUnknown.parts_of_notMem (h : OnlyUnknown (a ++ b)) (ha : '\\' ∉ a) : Parts (a ++ b) a b where
  first := by
    induction a with
    | nil => trivial
    | cons c a ih =>
      rw [List.mem_cons, not_or] at ha
      exact ⟨h.1, h.2.1, fun hslash => absurd hslash.symm ha.1, ih h.2.2.2 ha.2⟩
  rest := h.of_append
  shown := shownText_append a b
  commands := by rw [commandCount_append_of_notMem ha, commandCount_eq_zero ha, Nat.zero_add]

/-- Behind a backslash stands the name of an unknown command, or nothing. -/
theorem OnlyUnknown.slash (h : OnlyUnknown ('\\' :: s)) :
    s = [] ∨ ∃ name rest, s = name ++ rest ∧ IsWordBefore name rest ∧ IsUnknown name := h.2.2.1 rfl

/-- A backslash stands in front of a letter or nothing. -/
theorem OnlyUnknown.isCommandLetter_head (h : OnlyUnknown ('\\' :: c :: s)) : isCommandLetter c = true := by
  rcases h.slash with hnil | ⟨name, rest, heq, hname, -⟩
  · cases hnil
  · obtain ⟨d, t, rfl, hletter, -⟩ := hname.exists_cons
    obtain ⟨rfl, -⟩ := List.cons.inj heq
    exact hletter

theorem OnlyUnknown.isUnknown (h : OnlyUnknown ('\\' :: (name ++ rest))) (hname : IsWordBefore name rest) :
    IsUnknown name := by
  rcases h.slash with hnil | ⟨name', rest', heq, hname', hunknown⟩
  · exact absurd (List.append_eq_nil_iff.1 hnil).1 hname.ne_nil
  · have htake := (takeWhile_append_of_head hname.letters hname.behind).1
    rw [heq, (takeWhile_append_of_head hname'.letters hname'.behind).1] at htake
    exact htake ▸ hunknown

/-- The letters of a command are shown. -/
theorem shownText_command (hname : ∀ c ∈ name, isCommandLetter c = true) : shownText ('\\' :: name) = '\\' :: name :=
  shownText_eq_self <| List.forall_mem_cons.2 ⟨by decide, fun c hc => shown_of_isCommandLetter (hname c hc)⟩

/-- A command is a part of its own. -/
theorem OnlyUnknown.parts_command (h : OnlyUnknown ('\\' :: (name ++ rest))) (hname : IsWordBefore name rest)
    (hunknown : IsUnknown name) : Parts ('\\' :: (name ++ rest)) ('\\' :: name) rest := by
  have hfirst : OnlyUnknown ('\\' :: (name ++ [])) := OnlyUnknown.command trivial hname.atEnd hunknown
  have hcount := commandCount_command hname.atEnd
  rw [List.append_nil] at hfirst hcount
  rw [commandCount, Nat.add_zero] at hcount
  exact ⟨hfirst, OnlyUnknown.of_append (a := '\\' :: name) h, shownText_append ('\\' :: name) rest,
    by rw [commandCount_command hname, hcount]⟩

/-- The body of a group, and what stands behind its closing brace. -/
theorem OnlyUnknown.parts_group {group : List Char} {depth : Nat} (h : OnlyUnknown s)
    (hclose : closeGroups? depth s = some (group, rest)) : Parts s group.dropLast rest := by
  obtain ⟨rfl, hne⟩ := append_of_closeGroups? hclose
  have hlast : group.dropLast ++ ['}'] = group := List.dropLast_append_getLast? '}' (getLast?_of_closeGroups? hclose)
  have hcut : group ++ rest = group.dropLast ++ '}' :: rest := by
    rw [List.append_cons, hlast]
  rw [hcut] at h ⊢
  obtain ⟨hbody, hcount⟩ := h.append_cons (by decide)
  rw [commandCount_cons_of_ne (by decide)] at hcount
  refine ⟨hbody, OnlyUnknown.of_append (a := group.dropLast ++ ['}']) (by simpa using h), ?_, hcount⟩
  rw [shownText_append, shownText_cons_of_hidden (by decide)]

/-- A command or a character at the start of the text. -/
theorem splitArgumentHere?_cons {arg : List Char} (hbrace : c ≠ '{') (hslash : c ≠ '\\')
    (harg : splitArgumentHere? (c :: s) = some (arg, rest)) : arg = [c] ∧ rest = s := by
  unfold splitArgumentHere? at harg
  split at harg <;> simp_all

theorem splitArgumentHere?_word (hname : IsWordBefore name rest) :
    splitArgumentHere? ('\\' :: (name ++ rest)) = some ('\\' :: name, rest) := by
  obtain ⟨d, t, rfl, hletter, hslash⟩ := hname.exists_cons
  obtain ⟨htake, hdrop⟩ := takeWhile_append_of_head hname.letters hname.behind
  rw [List.cons_append] at htake hdrop ⊢
  simp [splitArgumentHere?, hletter, htake, hdrop]

/-- An operand without its braces, and what stands behind it. -/
theorem OnlyUnknown.parts_argumentHere (h : OnlyUnknown s) {arg : List Char}
    (harg : splitArgumentHere? s = some (arg, rest)) : Parts s (unbrace arg) rest := by
  cases s with
  | nil => cases harg
  | cons c s =>
    by_cases hbrace : c = '{'
    · subst hbrace
      simp only [splitArgumentHere?, splitGroup?, Option.map_eq_some_iff, Prod.exists, Prod.mk.injEq] at harg
      obtain ⟨group, rest', hclose, rfl, rfl⟩ := harg
      rw [unbrace, if_pos (getLast?_of_closeGroups? hclose)]
      exact (parts_group h.2.2.2 hclose).cons_of_hidden (by decide)
    by_cases hslash : c = '\\'
    · subst hslash
      rcases h.slash with rfl | ⟨name, rest', rfl, hname, hunknown⟩
      · cases harg
      · rw [splitArgumentHere?_word hname] at harg
        obtain ⟨rfl, rfl⟩ := Prod.mk.inj (Option.some.inj harg)
        exact h.parts_command hname hunknown
    · obtain ⟨rfl, rfl⟩ := splitArgumentHere?_cons hbrace hslash harg
      have hbare : unbrace [c] = [c] := by
        unfold unbrace
        split
        · simp_all
        · rfl
      rw [hbare]
      exact h.parts_of_notMem (a := [c]) (by simpa using Ne.symm hslash)

theorem OnlyUnknown.parts_argument (h : OnlyUnknown s) (harg : argument? s = some (operand, rest)) :
    Parts s operand rest := by
  simp only [argument?, splitArgument?, Option.map_eq_some_iff, Prod.exists, Prod.mk.injEq] at harg
  obtain ⟨blanks, arg, rest', ⟨arg', rest'', hhere, rfl, rfl, rfl⟩, rfl, rfl⟩ := harg
  rw [← trimStart_append s] at h ⊢
  refine (h.of_append.parts_argumentHere hhere).append_of_hidden fun c hc => ?_
  exact isShown_of_isBlank (isBlank_of_mem_takeWhile c hc)

/-! ## Pieces -/

theorem isLegible_of_shown (hne : a ≠ []) (h : ∀ c ∈ a, isShown c = true) : IsLegible a := by
  have hvisible : ∀ c ∈ a, isBlank c = false := by
    intro c hc
    have hshown := h c hc
    simp only [isShown, Bool.and_eq_true, Bool.not_eq_true'] at hshown
    exact hshown.1.2
  obtain ⟨c, hc⟩ := List.exists_mem_of_ne_nil a hne
  exact ⟨fun hreturn => absurd (hvisible _ hreturn) (by decide), c, hc, hvisible c hc⟩

/-- The piece shows these characters, in this order, and tells of this many unknown commands. -/
inductive Piece.Shows : Piece → List Char → Nat → Prop
  | remark {r : Remark} (hr : r.category ≠ .undefinedCommand) : Shows (.remark r) [] 0
  | unknown (name : List Char) : Shows (.remark (.unknownCommand name)) [] 1
  | symbol {m : Markup} {s : List Char} (hm : m.symbols = [s]) (hs : IsLegible s) : Shows (.plain m) s 0
  | row {a : List Char} (ha : OnlyUnknown a) : Shows (.unary .row a) (shownText a) (commandCount a)
  | script (sub : Bool) {a : List Char} (ha : OnlyUnknown a) : Shows (.script sub a) (shownText a) (commandCount a)

/-- Several pieces show what each of them shows. -/
inductive AllShow : List Piece → List Char → Nat → Prop
  | nil : AllShow [] [] 0
  | cons {piece : Piece} {ps : List Piece} {cs ds : List Char} {n m : Nat} (hpiece : piece.Shows cs n)
    (h : AllShow ps ds m) : AllShow (piece :: ps) (cs ++ ds) (n + m)

theorem AllShow.append (h : AllShow ps cs n) (hqs : AllShow qs ds m) : AllShow (ps ++ qs) (cs ++ ds) (n + m) := by
  induction h with
  | nil =>
    rw [Nat.zero_add]
    exact hqs
  | cons hpiece _ ih =>
    rw [List.append_assoc, Nat.add_assoc]
    exact .cons hpiece ih

theorem Piece.Shows.single {piece : Piece} (h : piece.Shows cs n) : AllShow [piece] cs n := by
  simpa using AllShow.nil.cons h

theorem AllShow.remark {r : Remark} (hr : r.category = .badSyntax) (h : AllShow ps cs n) :
    AllShow (.remark r :: ps) cs n := by
  simpa using AllShow.cons (.remark (by rw [hr]; decide)) h

/-- What a reader turns a text into shows its characters, up to those that are left. -/
def ShowsFrom (s : List Char) (r : List Piece × List Char) : Prop :=
  ∃ cs n, AllShow r.1 cs n ∧ OnlyUnknown r.2 ∧ shownText s = cs ++ shownText r.2 ∧ commandCount s = n + commandCount r.2

theorem ShowsFrom.of_parts (h : Parts s a b) (hps : AllShow ps (shownText a) (commandCount a)) : ShowsFrom s (ps, b) :=
  ⟨_, _, hps, h.rest, h.shown, h.commands⟩

/-- A sign that is not shown turns into nothing. -/
theorem ShowsFrom.of_hidden (hs : OnlyUnknown s) (hc : isShown c = false) (hps : AllShow ps [] 0) :
    ShowsFrom (c :: s) (ps, s) :=
  .of_parts (Parts.cons_of_hidden (a := []) ⟨trivial, hs, rfl, (Nat.zero_add _).symm⟩ hc) hps

/-! ## Readers -/

theorem readWord_of_isUnknown (h : IsUnknown name) (s : List Char) :
    readWord name s = ([.remark (.unknownCommand name), verbatimCommand name], s) := by
  simp only [readWord, h.notSizing, h.noConstruct, h.noSymbol]
  rw [if_neg h.notBegin, if_neg h.notEnd, if_neg Bool.false_ne_true]

theorem readCommand_word (hname : IsWordBefore name rest) : readCommand (name ++ rest) = readWord name rest := by
  obtain ⟨d, t, rfl, hletter, hslash⟩ := hname.exists_cons
  obtain ⟨htake, hdrop⟩ := takeWhile_append_of_head hname.letters hname.behind
  rw [List.cons_append, List.takeWhile_cons_of_pos hletter] at htake
  rw [List.cons_append, List.dropWhile_cons_of_pos hletter] at hdrop
  rw [List.cons_append, readCommand, if_neg hslash, if_pos hletter, htake, hdrop]

theorem showsFrom_readCommand (h : OnlyUnknown ('\\' :: s)) : ShowsFrom ('\\' :: s) (readCommand s) := by
  rcases h.slash with rfl | ⟨name, rest, rfl, hname, hunknown⟩
  · refine .of_parts (a := ['\\']) ⟨⟨by decide, by decide, fun _ => Or.inl rfl, trivial⟩, trivial, rfl, rfl⟩ ?_
    have hlegible : IsLegible ['\\'] :=
      isLegible_of_shown (List.cons_ne_nil _ _) (List.forall_mem_singleton.2 (by decide))
    exact (Piece.Shows.symbol (Markup.symbols_operator _) hlegible).single
  · have hcount := commandCount_command hname.atEnd
    rw [List.append_nil] at hcount
    have hshown := shownText_command hname.letters
    rw [readCommand_word hname, readWord_of_isUnknown hunknown]
    refine .of_parts (h.parts_command hname hunknown) ?_
    rw [hcount, hshown]
    refine (Piece.Shows.unknown name).single.append (Piece.Shows.symbol (Markup.symbols_identifier _) ?_).single
    refine isLegible_of_shown (List.cons_ne_nil _ _) fun c hc => ?_
    rcases List.mem_cons.1 hc with rfl | hc
    · decide
    · exact (shown_of_isCommandLetter (hname.letters c hc)).1

/-- A script marker, which is not shown itself. -/
theorem showsFrom_readScript (hs : OnlyUnknown s) (hc : isShown c = false) :
    ShowsFrom (c :: s) (readScript c s) := by
  unfold readScript
  split
  · rename_i operand rest harg
    have hparts := hs.parts_argument harg
    exact .of_parts (hparts.cons_of_hidden hc) (Piece.Shows.script (c == '_') hparts.first).single
  · have hempty : Piece.Shows (.script (c == '_') []) [] 0 := .script (c == '_') (a := []) trivial
    exact .of_hidden hs hc (.remark rfl hempty.single)

theorem showsFrom_readGroup (hs : OnlyUnknown s) : ShowsFrom ('{' :: s) (readGroup s) := by
  unfold readGroup
  split
  · rename_i group rest hsplit
    simp only [splitGroup?, Option.map_eq_some_iff, Prod.exists, Prod.mk.injEq] at hsplit
    obtain ⟨inner, rest', hclose, rfl, rfl⟩ := hsplit
    have hparts := hs.parts_group hclose
    exact .of_parts (hparts.cons_of_hidden (by decide)) (Piece.Shows.row hparts.first).single
  · exact .of_hidden hs (by decide) (.remark rfl .nil)

/-- The digits of a number and its point stand in front of the rest. -/
theorem append_splitNumber (s : List Char) :
    (splitNumber s).1 ++ (splitNumber s).2 = s ∧ ∀ c ∈ (splitNumber s).1, c.isDigit = true ∨ c = '.' := by
  have hdigits : ∀ s : List Char, ∀ c ∈ s.takeWhile Char.isDigit, c.isDigit = true ∨ c = '.' := fun s c hc =>
    Or.inl (List.mem_takeWhile_imp hc)
  have hwhole : s.takeWhile Char.isDigit ++ s.dropWhile Char.isDigit = s := List.takeWhile_append_dropWhile
  unfold splitNumber
  split
  · rename_i rest hrest
    rw [hrest] at hwhole
    split
    · exact ⟨hwhole, hdigits s⟩
    · have hfraction : rest.takeWhile Char.isDigit ++ rest.dropWhile Char.isDigit = rest :=
        List.takeWhile_append_dropWhile
      refine ⟨?_, List.forall_mem_append.2 ⟨hdigits s, List.forall_mem_cons.2 ⟨Or.inr rfl, hdigits rest⟩⟩⟩
      rw [List.append_assoc, List.cons_append, hfraction, hwhole]
  · exact ⟨hwhole, hdigits s⟩

/-- A character without a meaning of its own is shown as one symbol, a digit with the number it starts. -/
theorem showsFrom_readPlain (h : OnlyUnknown (c :: s)) (hslash : c ≠ '\\') (hc : isShown c = true) :
    ShowsFrom (c :: s) (readPlain c s) := by
  have hsymbol : ∀ m : Markup, m.symbols = [[shownAs c]] → isShown (shownAs c) = true →
      ShowsFrom (c :: s) ([.plain m], s) := by
    intro m hm hshown
    have hnone : '\\' ∉ [c] := by simpa using Ne.symm hslash
    refine .of_parts (h.parts_of_notMem (a := [c]) hnone) ?_
    rw [commandCount_eq_zero hnone, shownText_cons_of_shown hc]
    have hlegible := isLegible_of_shown (List.cons_ne_nil _ []) (List.forall_mem_singleton.2 hshown)
    exact (Piece.Shows.symbol hm hlegible).single
  unfold readPlain
  split
  · rename_i hdigit
    obtain ⟨happend, hdigits⟩ := append_splitNumber s
    generalize splitNumber s = r at happend hdigits ⊢
    obtain ⟨digits, rest⟩ := r
    obtain rfl : digits ++ rest = s := happend
    have hnumber : ∀ d ∈ c :: digits, d.isDigit = true ∨ d = '.' := List.forall_mem_cons.2 ⟨Or.inl hdigit, hdigits⟩
    have hshown : ∀ d ∈ c :: digits, isShown d = true ∧ shownAs d = d := by
      intro d hd
      rcases hnumber d hd with hd | rfl
      · exact shown_of_isDigit hd
      · decide
    have hnone : '\\' ∉ c :: digits := fun hmem => absurd (hnumber _ hmem) (by decide)
    refine .of_parts (OnlyUnknown.parts_of_notMem (a := c :: digits) h hnone) ?_
    rw [commandCount_eq_zero hnone, shownText_eq_self hshown]
    have hlegible := isLegible_of_shown (List.cons_ne_nil c digits) fun d hd => (hshown d hd).1
    exact (Piece.Shows.symbol (Markup.symbols_number _) hlegible).single
  split
  · rename_i hletter
    have hself : shownAs c = c := by
      have hstar : c ≠ '*' := by
        rintro rfl
        exact absurd hletter (by decide)
      have hdivide : c ≠ '/' := by
        rintro rfl
        exact absurd hletter (by decide)
      rw [shownAs, if_neg hstar, if_neg hdivide]
    exact hsymbol (.identifier [c]) (by rw [Markup.symbols_identifier, hself]) (by rwa [hself])
  split
  · rename_i hstar
    subst hstar
    exact hsymbol (.operator ['×']) (Markup.symbols_operator _) (by decide)
  split
  · rename_i hdivide
    subst hdivide
    exact hsymbol (.operator ['÷']) (Markup.symbols_operator _) (by decide)
  · rename_i hstar hdivide
    have hself : shownAs c = c := by rw [shownAs, if_neg hstar, if_neg hdivide]
    exact hsymbol (.operator [c]) (by rw [Markup.symbols_operator, hself]) (by rwa [hself])

/-- **Each reader hands on** what it does not turn into pieces. -/
theorem showsFrom_readPieces (h : OnlyUnknown (c :: s)) : ShowsFrom (c :: s) (readPieces c s) := by
  have hs : OnlyUnknown s := h.2.2.2
  unfold readPieces
  split
  · rename_i hslash
    subst hslash
    exact showsFrom_readCommand h
  rename_i hslash
  split
  · rename_i hmarker
    have hmarker' : c = '^' ∨ c = '_' := by simpa using hmarker
    refine showsFrom_readScript hs ?_
    rcases hmarker' with rfl | rfl <;> decide
  split
  · rename_i hbrace
    subst hbrace
    exact showsFrom_readGroup hs
  split
  · rename_i hbrace
    subst hbrace
    exact .of_hidden hs (by decide) (.remark rfl .nil)
  split
  · rename_i hsign
    have hsign' : c = '&' ∨ c = '$' := by simpa using hsign
    rcases hsign' with rfl | rfl
    · exact .of_hidden hs (by decide) .nil
    · exact absurd rfl h.2.1
  split
  · rename_i hpercent
    exact absurd hpercent h.1
  rename_i hmarker hopen hclose hsign _
  have hshown : isShown c = (isCarried c && !isBlank c) := by
    simp_all [isShown, structureSigns]
  split
  · rename_i hhidden
    refine .of_hidden hs ?_ .nil
    rw [hshown]
    cases hblank : isBlank c <;> simp_all
  · rename_i hvisible
    refine showsFrom_readPlain h hslash ?_
    rw [hshown]
    simp_all

/-- **What a text of unknown commands turns into** shows its characters in order, and has a remark for
each of its commands. -/
theorem allShow_pieces (h : OnlyUnknown s) : AllShow (pieces s) (shownText s) (commandCount s) := by
  fun_induction pieces s with
  | case1 => exact .nil
  | case2 c s ih =>
    obtain ⟨cs, n, hshows, hrest, hshown, hcount⟩ := showsFrom_readPieces h
    rw [hshown, hcount]
    exact hshows.append (ih hrest)

end MathMarkup.Tex
