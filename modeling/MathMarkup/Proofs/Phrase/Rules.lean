import Mathlib
import MathMarkup.Phrase
import MathMarkup.Proofs.Phrase.Groups
import MathMarkup.Proofs.Text.Ranges

/-!
# The phrase rules keep groups whole

A phrase rule finds its own words, with a blank among them, so it finds them outside of groups; a command that a
rule wrote is followed by a brace or a script at once, so no rule finds its words in one. What a rule puts between
braces is a word, hence a whole group or several, or characters that mean nothing (`KeepsGroups`). The last rule
changes single words that no bracket belongs to, inside and outside of groups.

Main theorem: `grouped_toLatex`.
-/

namespace MathMarkup.Phrase

open Text Tex

variable {rule : List Char → Option (List Char × List Char)} {words : List (List Char)}
variable {s t a b m w word name out rest command : List Char} {c p : Char} {d e : Nat}

/-! ## Commands that are written -/

/-- The text starts with one of the words. -/
def StartsWith (words : List (List Char)) (s : List Char) : Prop := ∃ w ∈ words, w <+: s

/-- The commands with arguments or bounds that the rules write, and what stands behind them. -/
def constructWords : List (List Char) := ["\\sqrt\x7b".toList, "\\frac\x7b".toList, "\\sum_".toList, "\\int_".toList]

/-- What a backslash starts in the end: a construct, or the command of a symbol. -/
def commandWords : List (List Char) := constructWords ++ symbolNames.map fun symbol => symbol.2.toList

theorem StartsWith.append (h : StartsWith words s) (t : List Char) : StartsWith words (s ++ t) := by
  obtain ⟨w, hw, hprefix⟩ := h
  exact ⟨w, hw, hprefix.trans (List.prefix_append s t)⟩

/-- What no word holds does not matter behind the text. -/
theorem StartsWith.of_append (hb : ∀ c ∈ b.head?, ∀ w ∈ words, c ∉ w) (h : StartsWith words (a ++ b)) :
    StartsWith words a := by
  obtain ⟨w, hw, hprefix⟩ := h
  refine ⟨w, hw, ?_⟩
  rcases List.prefix_or_prefix_of_prefix hprefix (List.prefix_append a b) with h | ⟨x, rfl⟩
  · exact h
  · cases x with
    | nil => simp
    | cons c x =>
      have hx : c :: x <+: b := (List.prefix_append_right_inj a).1 hprefix
      obtain ⟨y, rfl⟩ := hx
      exact absurd (by simp) (hb c rfl _ hw)

theorem commandWords_chars (hw : w ∈ commandWords) : ∀ c ∈ w, c = '\\' ∨ c = '{' ∨ isWord c = true := by
  have hchars : ∀ w ∈ commandWords, w.all (fun c => c = '\\' ∨ c = '{' ∨ isWord c = true) = true := by decide
  simpa using hchars w hw

theorem notMem_commandWords (hslash : c ≠ '\\') (hopen : c ≠ '{') (hword : isWord c = false) :
    ∀ w ∈ commandWords, c ∉ w := by
  intro w hw hmem
  rcases commandWords_chars hw c hmem with h | h | h
  · exact hslash h
  · exact hopen h
  · rw [hword] at h
    cases h

theorem notMem_commandWords_of_isBlank (hc : isBlank c = true) : ∀ w ∈ commandWords, c ∉ w :=
  notMem_commandWords (isPlain_of_isBlank hc).1 (isPlain_of_isBlank hc).2.1 (isWord_eq_false_of_isBlank hc)

theorem constructWords_subset : constructWords ⊆ commandWords := List.subset_append_left _ _

/-- Every construct is a name and a brace or script behind it. -/
theorem exists_of_mem_constructWords (hw : w ∈ constructWords) : ∃ name c, w = '\\' :: (name ++ [c]) ∧
    (∀ d ∈ name, isCommandLetter d = true) ∧ (c = '{' ∨ c = '_') := by
  simp only [constructWords, List.mem_cons, List.not_mem_nil, or_false] at hw
  rcases hw with rfl | rfl | rfl | rfl
  · exact ⟨"sqrt".toList, '{', rfl, List.all_eq_true.1 (by decide), by decide⟩
  · exact ⟨"frac".toList, '{', rfl, List.all_eq_true.1 (by decide), by decide⟩
  · exact ⟨"sum".toList, '_', rfl, List.all_eq_true.1 (by decide), by decide⟩
  · exact ⟨"int".toList, '_', rfl, List.all_eq_true.1 (by decide), by decide⟩

/-! ## Words that are found -/

/-- A character that a rule can find as its own: it stands in no command and is no brace. -/
def IsBare (c : Char) : Prop := IsPlain c ∧ c ≠ '_'

instance : Decidable (IsBare c) := inferInstanceAs (Decidable ((c ≠ '\\' ∧ c ≠ '{' ∧ c ≠ '}') ∧ c ≠ '_'))

/-- The word holds only such characters. -/
def AreBare (word : List Char) : Prop := ∀ c ∈ word, IsBare c

-- Checked character by character of the word: a search through all characters would not end in time.
instance : Decidable (AreBare word) := decidable_of_iff (word.all fun c => IsBare c) (by simp [AreBare])

theorem isPlain_of_isWord (hc : isWord c = true) : IsPlain c := by
  refine ⟨?_, ?_, ?_⟩ <;>
    · rintro rfl
      revert hc
      decide

theorem isBare_of_isDecimalDigit (hc : isDecimalDigit c = true) : IsBare c := by
  refine ⟨isPlain_of_isWord (isWord_of_isDecimalDigit hc), ?_⟩
  rintro rfl
  revert hc
  decide

theorem isBare_of_isBlank (hc : isBlank c = true) : IsBare c := by
  refine ⟨isPlain_of_isBlank hc, ?_⟩
  rintro rfl
  cases hc

theorem isBare_of_sameLetter (hp : IsBare p) (h : sameLetter p c = true) : IsBare c := by
  have hlower : ∀ d, ¬ IsBare d → sameLetter p d = true → d.toLower ≠ d := by
    intro d hd hsame heq
    simp only [sameLetter, heq, Bool.or_eq_true, Bool.and_eq_true, beq_iff_eq] at hsame
    rcases hsame with (rfl | ⟨-, rfl⟩) | ⟨-, rfl⟩
    · exact hd hp
    · exact hd (by decide)
    · exact hd (by decide)
  by_contra hc
  refine hlower c hc h ?_
  simp only [IsBare, IsPlain, not_and_or, not_not] at hc
  rcases hc with (rfl | rfl | rfl) | rfl <;> decide

theorem eq_space_of_sameLetter (h : sameLetter ' ' c = true) : c = ' ' := by
  simp only [sameLetter, Bool.or_eq_true, Bool.and_eq_true, beq_iff_eq, Char.reduceEq, false_and, or_false] at h
  have halpha : c.isAlpha = false := by
    rw [← Char.isLower_toLower_eq_isAlpha, h]
    rfl
  have hupper : ¬ c.isUpper := fun hupper => by simp [Char.isAlpha, hupper] at halpha
  rw [← Char.toLower_eq_of_not_isUpper hupper, h]

/-- **Own words** of a rule, in either case. -/
theorem exists_of_afterFolded? (hword : AreBare word) (h : afterFolded? word s = some t) :
    ∃ m, s = m ++ t ∧ (∀ c ∈ m, IsBare c) ∧ (' ' ∈ word → ' ' ∈ m) := by
  induction word generalizing s with
  | nil =>
    obtain rfl := Option.some.inj h
    exact ⟨[], rfl, by simp, id⟩
  | cons p word ih =>
    cases s with
    | nil => cases h
    | cons c s =>
      obtain ⟨hp, hword⟩ := List.forall_mem_cons.1 hword
      rw [afterFolded?] at h
      obtain ⟨hsame, h⟩ := Option.ite_none_right_eq_some.1 h
      obtain ⟨m, rfl, hm, hspace⟩ := ih hword h
      refine ⟨c :: m, rfl, List.forall_mem_cons.2 ⟨isBare_of_sameLetter hp hsame, hm⟩, fun hmem => ?_⟩
      rcases List.mem_cons.1 hmem with rfl | hmem
      · exact eq_space_of_sameLetter hsame ▸ List.mem_cons_self
      · exact List.mem_cons_of_mem c (hspace hmem)

theorem exists_of_afterAny? {choices : List String} (hchoices : ∀ choice ∈ choices, AreBare choice.toList)
    (h : afterAny? choices s = some t) : ∃ m, s = m ++ t ∧ ∀ c ∈ m, IsBare c := by
  obtain ⟨choice, hchoice, h⟩ := List.exists_of_findSome?_eq_some h
  obtain ⟨m, hs, hm, -⟩ := exists_of_afterFolded? (hchoices choice hchoice) h
  exact ⟨m, hs, hm⟩

/-- A run of characters, which ends where it cannot go on. -/
theorem exists_of_run? {q : Char → Bool} (h : run? q s = some (w, rest)) :
    s = w ++ rest ∧ (∀ c ∈ w, q c = true) ∧ ∀ c ∈ rest.head?, q c = false := by
  have hs : s.takeWhile q ++ s.dropWhile q = s := List.takeWhile_append_dropWhile
  rw [run?] at h
  split at h
  · cases h
  · obtain ⟨rfl, rfl⟩ := Prod.mk.inj (Option.some.inj h)
    exact ⟨hs.symm, fun c hc => List.mem_takeWhile_imp hc, fun c hc => eq_false_of_mem_head?_dropWhile hc⟩

/-! ## Rules that keep groups -/

/-- A text that the rules for constructs and scripts rewrite: grouped, with constructs for commands. -/
abbrev IsSentence (d : Nat) (s : List Char) : Prop := Grouped (StartsWith constructWords) d s 0

/-- The rule finds words of its own, with a blank among them, and makes whole groups of the words behind. -/
def KeepsGroups (rule : List Char → Option (List Char × List Char)) : Prop :=
  ∀ s out rest, rule s = some (out, rest) → ∃ m t, s = m ++ t ∧ (∀ c ∈ m, IsBare c) ∧ ' ' ∈ m ∧
    (IsSentence 0 t → IsSentence 0 rest ∧ ∀ u, IsSentence 0 u → IsSentence 0 (out ++ u))

/-- The rule is not used inside a command, nor right behind it. -/
theorem KeepsGroups.eq_none (h : KeepsGroups rule) (name : List Char) (hname : ∀ d ∈ name, isCommandLetter d = true)
    (hc : c = '{' ∨ c = '_') (t : List Char) : rule (name ++ c :: t) = none := by
  have hspace : ' ' ∉ name := fun hmem => absurd (hname _ hmem) (by decide)
  by_contra hsome
  obtain ⟨⟨out, rest⟩, hrule⟩ := Option.ne_none_iff_exists'.1 hsome
  obtain ⟨m, t', hs, hm, hblank, -⟩ := h _ _ _ hrule
  rcases List.append_eq_append_iff.1 hs with ⟨x, rfl, hx⟩ | ⟨x, rfl, hx⟩
  · cases x with
    | nil => exact hspace (by simpa using hblank)
    | cons y x =>
      obtain ⟨rfl, -⟩ := List.cons.inj hx
      have hbare := hm c (by simp)
      rcases hc with rfl | rfl
      · exact hbare.1.2.1 rfl
      · exact hbare.2 rfl
  · exact hspace (List.mem_append_left _ hblank)

/-- A construct stays one. -/
theorem KeepsGroups.startsWith (h : KeepsGroups rule) (hs : StartsWith constructWords ('\\' :: s)) :
    StartsWith constructWords ('\\' :: substitute rule s) := by
  obtain ⟨w, hw, t, ht⟩ := hs
  obtain ⟨name, c, rfl, hname, hc⟩ := exists_of_mem_constructWords hw
  obtain rfl : name ++ c :: t = s := by simpa using ht
  have hkeep : substitute rule (name ++ c :: t) = name ++ substitute rule (c :: t) :=
    substitute_append_of_none fun x y hxy _ => h.eq_none _ (fun d hd => hname d (by simp [hxy, hd])) hc t
  rw [hkeep, substitute_cons_of_none (h.eq_none [] (by simp) hc t)]
  exact ⟨_, hw, substitute rule t, by simp⟩

/-- **A rule that keeps groups** keeps them in the whole text. -/
theorem KeepsGroups.substitute (h : KeepsGroups rule) (hs : IsSentence d s) :
    IsSentence d (Text.substitute rule s) := by
  refine Grouped.substitute (fun s => h.startsWith) (fun hrule hs => ?_) hs
  obtain ⟨m, t, rfl, hm, hspace, hkeep⟩ := h _ _ _ hrule
  obtain ⟨rfl, ht⟩ := hs.of_append_blank (fun c hc => (hm c hc).1) ⟨' ', hspace, rfl⟩
  exact ⟨0, hkeep ht⟩

/-! ## The rules -/

/-- The next word is grouped, and so is the text behind it. -/
theorem IsSentence.run? (h : IsSentence 0 s) (hw : Phrase.run? isInk s = some (w, rest)) :
    (∀ c ∈ w, isBlank c = false) ∧ IsSentence 0 w ∧ IsSentence 0 rest := by
  obtain ⟨rfl, hink, hrest⟩ := exists_of_run? hw
  have hblank : ∀ c ∈ rest.head?, isBlank c = true := fun c hc => by simpa [isInk] using hrest c hc
  refine ⟨fun c hc => by simpa [isInk] using hink c hc, h.cut_blank (fun a ha => ?_) hblank⟩
  exact ha.of_append fun c hc w hw => notMem_commandWords_of_isBlank (hblank c hc) w (constructWords_subset hw)

/-- Characters of words mean nothing, nor do digits. -/
theorem IsSentence.run?_isWord (h : IsSentence 0 s) (hw : Phrase.run? isWord s = some (w, rest)) :
    (∀ c ∈ w, isBlank c = false) ∧ IsSentence 0 w ∧ IsSentence 0 rest := by
  obtain ⟨rfl, hword, -⟩ := exists_of_run? hw
  have hplain : ∀ c ∈ w, IsPlain c := fun c hc => isPlain_of_isWord (hword c hc)
  exact ⟨fun c hc => isBlank_eq_false_of_isWord (hword c hc), grouped_of_plain hplain, h.of_append_plain hplain⟩

theorem IsSentence.braced (h : IsSentence 0 w) (hw : ∀ c ∈ w, isBlank c = false) (ht : IsSentence 0 t) :
    IsSentence 0 (braced w ++ t) := by
  have := Grouped.braced h hw (fun s t h => h.append t) ht
  simpa [Phrase.braced] using this

theorem IsSentence.scripted (h : IsSentence 0 w) (hw : ∀ c ∈ w, isBlank c = false) (hc : IsPlain c)
    (ht : IsSentence 0 t) : IsSentence 0 (scripted c w ++ t) :=
  Grouped.cons_plain hc (h.braced hw ht)

/-- A construct in front of what it goes on with. -/
theorem IsSentence.construct (name : List Char) (hw : '\\' :: (name ++ [c]) ∈ constructWords)
    (h : IsSentence 0 (c :: s)) : IsSentence 0 ('\\' :: (name ++ c :: s)) := by
  obtain ⟨letters, c', hsplit, hletters, -⟩ := exists_of_mem_constructWords hw
  obtain ⟨rfl, -⟩ := List.append_inj' (List.cons.inj hsplit).2 rfl
  exact Grouped.slash ⟨_, hw, s, by simp⟩ (h.append_plain fun d hd => isPlain_of_isCommandLetter (hletters d hd))

theorem keepsGroups_rootRule : KeepsGroups rootRule := by
  intro s out rest h
  simp only [rootRule, Option.bind_eq_bind, Option.bind_eq_some_iff, Prod.exists, Option.pure_def,
    Option.some.injEq, Prod.mk.injEq] at h
  obtain ⟨t, ht, w, r, hw, rfl, rfl⟩ := h
  obtain ⟨m, rfl, hm, hspace⟩ := exists_of_afterFolded? (by decide) ht
  refine ⟨m, t, rfl, hm, hspace (by decide), fun ht => ?_⟩
  obtain ⟨hblank, hword, hr⟩ := ht.run? hw
  refine ⟨hr, fun u hu => ?_⟩
  rw [List.append_assoc]
  exact IsSentence.construct "sqrt".toList (by decide) (hword.braced hblank hu)

theorem keepsGroups_fractionRule : KeepsGroups fractionRule := by
  intro s out rest h
  simp only [fractionRule, Option.bind_eq_bind, Option.bind_eq_some_iff, Prod.exists, Option.pure_def,
    Option.some.injEq, Prod.mk.injEq] at h
  obtain ⟨t, ht, x, r, hx, r', hr', y, r'', hy, rfl, rfl⟩ := h
  obtain ⟨m, rfl, hm, hspace⟩ := exists_of_afterFolded? (by decide) ht
  refine ⟨m, t, rfl, hm, hspace (by decide), fun ht => ?_⟩
  obtain ⟨hxblank, hxword, hr⟩ := ht.run?_isWord hx
  obtain rfl := eq_append_of_after? hr'
  have hr' : IsSentence 0 r' := Grouped.of_plain (c := '/') (by decide) hr
  obtain ⟨hyblank, hyword, hr''⟩ := hr'.run?_isWord hy
  refine ⟨hr'', fun u hu => ?_⟩
  rw [List.append_assoc, List.append_assoc]
  exact IsSentence.construct "frac".toList (by decide)
    (hxword.braced hxblank (hyword.braced hyblank hu))

theorem keepsGroups_boundsRule {phrase : String} (name : List Char) (hphrase : AreBare phrase.toList)
    (hspace : ' ' ∈ phrase.toList) (hw : '\\' :: (name ++ ['_']) ∈ constructWords) :
    KeepsGroups (boundsRule phrase ('\\' :: name)) := by
  intro s out rest h
  simp only [boundsRule, Option.bind_eq_bind, Option.bind_eq_some_iff, Prod.exists, Option.pure_def,
    Option.some.injEq, Prod.mk.injEq] at h
  obtain ⟨t, ht, low, r, hlow, r', hr', high, r'', hhigh, rfl, rfl⟩ := h
  obtain ⟨m, rfl, hm, hblank⟩ := exists_of_afterFolded? hphrase ht
  refine ⟨m, t, rfl, hm, hblank hspace, fun ht => ?_⟩
  obtain ⟨hlowBlank, hlowWord, hr⟩ := ht.run? hlow
  obtain ⟨m', rfl, hm', -⟩ := exists_of_afterFolded? (by decide) hr'
  have hr' : IsSentence 0 r' := hr.of_append_plain fun c hc => (hm' c hc).1
  obtain ⟨hhighBlank, hhighWord, hr''⟩ := hr'.run? hhigh
  refine ⟨hr'', fun u hu => ?_⟩
  have hscripts := hlowWord.scripted hlowBlank (c := '_') (by decide)
    (hhighWord.scripted hhighBlank (c := '^') (by decide) hu)
  rw [List.append_assoc, List.append_assoc]
  exact IsSentence.construct name hw hscripts

theorem keepsGroups_powerRule : KeepsGroups powerRule := by
  intro s out rest h
  simp only [powerRule, Option.bind_eq_bind, Option.bind_eq_some_iff, Prod.exists, Option.pure_def,
    Option.some.injEq, Prod.mk.injEq] at h
  obtain ⟨x, r, hx, r', hr', r'', hr'', rfl, rfl⟩ := h
  have hblanks : ∀ c ∈ s.takeWhile isBlank, IsBare c := fun c hc =>
    isBare_of_isBlank (List.mem_takeWhile_imp hc)
  have hs : s = s.takeWhile isBlank ++ trimStart s := List.takeWhile_append_dropWhile.symm
  obtain ⟨m₁, hm₁s, hm₁⟩ : ∃ m, trimStart s =
      m ++ (afterAny? ["raised to the ", "to the "] (trimStart s)).getD (trimStart s) ∧ ∀ c ∈ m, IsBare c := by
    cases hopening : afterAny? ["raised to the ", "to the "] (trimStart s) with
    | none => exact ⟨[], rfl, by simp⟩
    | some t => exact exists_of_afterAny? (by decide) hopening
  obtain ⟨hdigits, hdigit, -⟩ := exists_of_run? hx
  obtain ⟨m₂, rfl, hm₂⟩ := exists_of_afterAny? (by decide) hr'
  obtain ⟨m₃, rfl, hm₃, hspace⟩ := exists_of_afterFolded? (by decide) hr''
  have hexponent : ∀ c ∈ x, IsBare c := fun c hc => isBare_of_isDecimalDigit (hdigit c hc)
  refine ⟨s.takeWhile isBlank ++ (m₁ ++ (x ++ (m₂ ++ m₃))), r'', ?_, ?_, by simp [hspace (by decide)], fun ht => ?_⟩
  · conv => lhs; rw [hs, hm₁s, hdigits]
    simp
  · simp only [List.forall_mem_append]
    exact ⟨hblanks, hm₁, hexponent, hm₂, hm₃⟩
  · have hword : IsSentence 0 x := grouped_of_plain fun c hc => (hexponent c hc).1
    have hinside : ∀ c ∈ x, isBlank c = false := fun c hc =>
      isBlank_eq_false_of_isWord (isWord_of_isDecimalDigit (hdigit c hc))
    exact ⟨ht, fun u hu => hword.scripted hinside (by decide) hu⟩

theorem keepsGroups_subscriptRule : KeepsGroups subscriptRule := by
  intro s out rest h
  simp only [subscriptRule, Option.bind_eq_bind, Option.bind_eq_some_iff, Prod.exists, Option.pure_def,
    Option.some.injEq, Prod.mk.injEq] at h
  obtain ⟨t, ht, x, r, hx, rfl, rfl⟩ := h
  have hs : s.takeWhile isBlank ++ trimStart s = s := List.takeWhile_append_dropWhile
  have hblanks : ∀ c ∈ s.takeWhile isBlank, IsBare c := fun c hc =>
    isBare_of_isBlank (List.mem_takeWhile_imp hc)
  obtain ⟨m, hm, hbare, hspace⟩ := exists_of_afterFolded? (by decide) ht
  refine ⟨s.takeWhile isBlank ++ m, t, by rw [List.append_assoc, ← hm, hs], ?_,
    List.mem_append_right _ (hspace (by decide)), fun ht => ?_⟩
  · exact List.forall_mem_append.2 ⟨hblanks, hbare⟩
  · obtain ⟨hblank, hword, hr⟩ := ht.run?_isWord hx
    exact ⟨hr, fun u hu => hword.scripted hblank (by decide) hu⟩

/-! ## Symbols -/

/-- The name of a symbol is a plain word, and its command is written for it. -/
theorem exists_of_symbolHere? (h : symbolHere? s = some (command, rest)) :
    command ∈ symbolNames.map (·.2.toList) ∧ ∃ m, s = m ++ rest ∧ ∀ c ∈ m, IsPlain c := by
  simp only [symbolHere?, Option.bind_eq_bind, Option.bind_eq_some_iff, Prod.exists] at h
  obtain ⟨found, r, hfound, h⟩ := h
  obtain ⟨⟨name, text⟩, hmem, hafter⟩ := List.exists_of_findSome?_eq_some hfound
  obtain ⟨r', hr', heq⟩ := Option.map_eq_some_iff.1 hafter
  obtain ⟨rfl, rfl⟩ := Prod.mk.inj heq
  have hname : ∀ p ∈ symbolNames, AreBare p.1.toList := by decide
  obtain ⟨m, rfl, hm, -⟩ := exists_of_afterFolded? (hname _ hmem) hr'
  have hkept : text.toList = command ∧ r' = rest := by
    split at h
    · simpa using h
    · split at h
      · cases h
      · simpa using h
  obtain ⟨rfl, rfl⟩ := hkept
  exact ⟨List.mem_map_of_mem hmem, m, rfl, fun c hc => (hm c hc).1⟩

/-- The command of a symbol stands where a text goes on. -/
theorem grouped_symbol (hcommand : command ∈ symbolNames.map (·.2.toList))
    (ht : Grouped (StartsWith commandWords) d t e) : Grouped (StartsWith commandWords) d (command ++ t) e := by
  have hshape : ∀ command ∈ symbolNames.map (·.2.toList),
      command.head? = some '\\' ∧ command.tail.all isCommandLetter = true := by
    decide
  obtain ⟨hslash, hname⟩ := hshape _ hcommand
  obtain ⟨name, rfl⟩ := List.head?_eq_some_iff.1 hslash
  exact Grouped.slash ⟨_, List.mem_append_right _ hcommand, t, rfl⟩ (ht.append_letters (List.all_eq_true.1 hname))

/-- No symbol is found in a word that has started. -/
theorem prefix_substitute_symbolRule (hw : ∀ c ∈ w.dropLast, isWord c = true) (h : w <+: s) :
    w <+: substitute symbolRule s := by
  induction w generalizing s with
  | nil => exact List.nil_prefix
  | cons c w ih =>
    obtain ⟨t, rfl⟩ := h
    have hhead : ∃ u, substitute symbolRule (c :: (w ++ t)) = c :: u := by
      rw [substitute]
      split
      · exact ⟨_, rfl⟩
      · rename_i out rest hrule
        rw [symbolRule] at hrule
        obtain ⟨-, hrule⟩ := Option.ite_none_left_eq_some.1 hrule
        obtain ⟨⟨command, r⟩, -, heq⟩ := Option.map_eq_some_iff.1 hrule
        obtain ⟨rfl, rfl⟩ := Prod.mk.inj heq
        split <;> exact ⟨_, rfl⟩
    cases w with
    | nil =>
      obtain ⟨u, hu⟩ := hhead
      exact ⟨u, hu.symm⟩
    | cons d w =>
      obtain ⟨hc, hw⟩ := List.forall_mem_cons.1 hw
      have hnone : symbolRule (c :: (d :: w ++ t)) = none := by rw [symbolRule, if_pos (by simp [hc])]
      rw [List.cons_append, substitute_cons_of_none hnone]
      exact (List.prefix_cons_inj c).2 (ih hw (List.prefix_append _ t))

theorem startsWith_substitute_symbolRule (h : StartsWith commandWords ('\\' :: s)) :
    StartsWith commandWords ('\\' :: substitute symbolRule s) := by
  have hshape : ∀ w ∈ commandWords, w.head? = some '\\' ∧ w.tail.dropLast.all isWord = true := by decide
  obtain ⟨w, hw, hprefix⟩ := h
  obtain ⟨hslash, hchars⟩ := hshape w hw
  obtain ⟨v, rfl⟩ := List.head?_eq_some_iff.1 hslash
  refine ⟨_, hw, (List.prefix_cons_inj _).2 ?_⟩
  exact prefix_substitute_symbolRule (List.all_eq_true.1 hchars) ((List.prefix_cons_inj _).1 hprefix)

/-- **Symbols** are written inside and outside of groups. -/
theorem grouped_substitute_symbolRule (h : Grouped (StartsWith commandWords) d s e) :
    Grouped (StartsWith commandWords) d (substitute symbolRule s) e := by
  refine Grouped.substitute (fun s => startsWith_substitute_symbolRule) (fun hrule hs => ?_) h
  rename_i d s out rest
  cases s with
  | nil => cases hrule
  | cons c s =>
    rw [symbolRule] at hrule
    obtain ⟨hc, hrule⟩ := Option.ite_none_left_eq_some.1 hrule
    obtain ⟨⟨command, r⟩, hhere, heq⟩ := Option.map_eq_some_iff.1 hrule
    obtain ⟨rfl, rfl⟩ := Prod.mk.inj heq
    obtain ⟨hcommand, m, rfl, hm⟩ := exists_of_symbolHere? hhere
    obtain ⟨k, hrest, hreplace⟩ := hs.exists_depth
    refine ⟨k, hrest.of_append_plain hm, fun t ht => ?_⟩
    exact hreplace _ (fun hslash => absurd (by simp [hslash]) hc) (grouped_symbol hcommand ht)

/-! ## Whole phrases -/

/-- **What a phrase turns into is grouped**: no rule cuts through a group that another one built. -/
theorem grouped_toLatex (hs : ∀ c ∈ s, IsPlain c) : Grouped (StartsWith commandWords) 0 (toLatex s) 0 := by
  have hsum : KeepsGroups (boundsRule "sum from " "\\sum".toList) :=
    keepsGroups_boundsRule "sum".toList (by decide) (by decide) (by decide)
  have hint : KeepsGroups (boundsRule "integral from " "\\int".toList) :=
    keepsGroups_boundsRule "int".toList (by decide) (by decide) (by decide)
  have hrewritten := keepsGroups_subscriptRule.substitute (keepsGroups_powerRule.substitute (hint.substitute
    (hsum.substitute (keepsGroups_fractionRule.substitute (keepsGroups_rootRule.substitute (grouped_of_plain hs))))))
  have hwords := hrewritten.mono (Q := StartsWith commandWords) fun s ⟨w, hw, h⟩ => ⟨w, constructWords_subset hw, h⟩
  rw [toLatex, replaceSymbols]
  split
  · rename_i command rest hhere
    obtain ⟨hcommand, m, hm, hplain⟩ := exists_of_symbolHere? hhere
    rw [hm] at hwords
    exact grouped_symbol hcommand (grouped_substitute_symbolRule (hwords.of_append_plain hplain))
  · exact grouped_substitute_symbolRule hwords

end MathMarkup.Phrase
