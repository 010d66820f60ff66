import MathMarkup.Proofs.Display.Brackets
import MathMarkup.Proofs.Normal.Places
import MathMarkup.Proofs.Text.Levels

/-!
# Environments in the bare expression

A display environment is taken away when its opening word starts the expression and its closing word ends
it, whatever stands between them. The two belong together unless a closing word in between closes the
opening one first, or the last characters are not read as a command at all; otherwise words are left over
on both sides of what remains.

The words that open and close environments are looked for along the tokens (`environmentWords`). Delimiters
and blanks around an expression hold none (`environmentWords_withoutDelimiters`).

Main theorem: `wellNested_stripDisplay_iff`.
-/

namespace MathMarkup.Tex

open Text

variable {c : Char} {s t x y body name : List Char}

/-! ## Words of environments -/

/-- A command that opens or closes an environment, with the name behind it. -/
abbrev EnvironmentWord := NamedBracket (List Char)

def EnvironmentWord.text (w : EnvironmentWord) : List Char := if w.opening then beginOf w.name else endOf w.name

variable {w : EnvironmentWord}

/-- A character that may stand in the name of an environment. -/
def isNameChar (c : Char) : Bool := !isBrace c && c != '\\' && c != '%'

/-- The name that the text starts with, in front of a closing brace. -/
def closedName? (s : List Char) : Option (List Char) :=
  let name := s.takeWhile isNameChar
  if (s.drop name.length).head? = some '}' then some name else none

/-- What stands in front of the name in a word. -/
def wordHead (opening : Bool) : List Char :=
  if opening then ['\\', 'b', 'e', 'g', 'i', 'n', '{'] else ['\\', 'e', 'n', 'd', '{']

/-- The word of one sort that the text starts with. -/
def wordOf? (opening : Bool) (s : List Char) : Option EnvironmentWord :=
  ((after? (wordHead opening) s).bind closedName?).map (⟨opening, ·⟩)

/-- The word that the text starts with. -/
def environmentWord? (s : List Char) : Option EnvironmentWord := wordOf? true s <|> wordOf? false s

/-- The words of a text: its commands that open or close an environment. -/
def environmentWords (s : List Char) : List EnvironmentWord :=
  (withRest (tokens s)).filterMap fun (t, rest) =>
    if t.kind = .command then environmentWord? (t.text ++ rest) else none

theorem closedName?_eq_some_iff :
    closedName? s = some name ↔ (∀ c ∈ name, isNameChar c = true) ∧ name ++ ['}'] <+: s := by
  rw [closedName?]
  constructor
  · intro h
    obtain ⟨hclose, rfl⟩ := Option.ite_some_none_eq_some.1 h
    refine ⟨fun c hc => List.mem_takeWhile_imp hc, ?_⟩
    obtain ⟨rest, hrest⟩ := List.head?_eq_some_iff.1 hclose
    rw [drop_length_takeWhile] at hrest
    exact ⟨rest, by rw [List.append_assoc, List.singleton_append, ← hrest, List.takeWhile_append_dropWhile]⟩
  · rintro ⟨hname, rest, rfl⟩
    have hend : ∀ c ∈ ('}' :: rest).head?, isNameChar c = false := by
      rintro c hc
      obtain rfl := Option.some.inj hc
      rfl
    obtain ⟨htake, hdrop⟩ := takeWhile_append_of_head hname hend
    rw [List.append_assoc, List.singleton_append, drop_length_takeWhile, htake, hdrop]
    rfl

theorem EnvironmentWord.text_eq (w : EnvironmentWord) : w.text = wordHead w.opening ++ (w.name ++ ['}']) := by
  obtain ⟨opening, name⟩ := w
  cases opening <;> simp [EnvironmentWord.text, wordHead, beginOf, endOf]

theorem wordOf?_eq_some_iff {opening : Bool} :
    wordOf? opening s = some w ↔ w.opening = opening ∧ (∀ c ∈ w.name, isNameChar c = true) ∧ w.text <+: s := by
  obtain ⟨opening', name⟩ := w
  simp only [wordOf?, Option.map_eq_some_iff, Option.bind_eq_some_iff, closedName?_eq_some_iff, after?_eq_some_iff,
    EnvironmentWord.text_eq]
  constructor
  · rintro ⟨name', ⟨rest, rfl, hname, hpre⟩, heq⟩
    obtain ⟨rfl, rfl⟩ := NamedBracket.mk.inj heq
    exact ⟨rfl, hname, (List.prefix_append_right_inj _).2 hpre⟩
  · rintro ⟨rfl, hname, rest, rfl⟩
    exact ⟨name, ⟨name ++ ['}'] ++ rest, by rw [List.append_assoc], hname, List.prefix_append _ _⟩, rfl⟩

/-- **The word at the start of a text.** -/
theorem environmentWord?_eq_some_iff :
    environmentWord? s = some w ↔ (∀ c ∈ w.name, isNameChar c = true) ∧ w.text <+: s := by
  rw [environmentWord?, Option.orElse_eq_orElse, Option.orElse_eq_or, Option.or_eq_some_iff, wordOf?_eq_some_iff,
    wordOf?_eq_some_iff]
  cases hopening : w.opening with
  | true => simp
  | false =>
    have hnone : w.text <+: s → wordOf? true s = none := by
      intro hpre
      refine Option.eq_none_iff_forall_ne_some.2 fun v hv => ?_
      obtain ⟨hv, -, hbegin⟩ := wordOf?_eq_some_iff.1 hv
      rw [EnvironmentWord.text_eq, hv] at hbegin
      rw [EnvironmentWord.text_eq, hopening] at hpre
      obtain ⟨rest, rfl⟩ := hpre
      simp [wordHead] at hbegin
    simp only [Bool.false_eq_true, false_and, false_or, true_and]
    exact ⟨And.right, fun h => ⟨hnone h.2, h⟩⟩

theorem EnvironmentWord.text_eq_cons (w : EnvironmentWord) : ∃ tail, w.text = '\\' :: tail := by
  obtain ⟨opening, name⟩ := w
  cases opening
  · exact ⟨_, rfl⟩
  · exact ⟨_, rfl⟩

/-- Only its first character is a backslash, and none is a percent sign. -/
theorem EnvironmentWord.plain_tail {tail : List Char} (hname : ∀ c ∈ w.name, isNameChar c = true)
    (htail : w.text = '\\' :: tail) : ∀ c ∈ tail, c ≠ '\\' ∧ c ≠ '%' := by
  have hchars : ∀ c ∈ w.name, c ≠ '\\' ∧ c ≠ '%' := by
    intro c hc
    have hchar := hname c hc
    simp only [isNameChar, Bool.and_eq_true, bne_iff_ne] at hchar
    exact ⟨hchar.1.2, hchar.2⟩
  have hhead : ∀ opening, ∀ c ∈ (wordHead opening).tail ++ ['}'], c ≠ '\\' ∧ c ≠ '%' := by
    intro opening
    cases opening <;> simp [wordHead]
  have htext : tail = (wordHead w.opening).tail ++ (w.name ++ ['}']) := by
    have hcons : wordHead w.opening = '\\' :: (wordHead w.opening).tail := by cases w.opening <;> rfl
    rw [EnvironmentWord.text_eq, hcons] at htail
    exact (List.cons.inj htail).2.symm
  intro c hc
  rw [htext, List.mem_append, List.mem_append] at hc
  rcases hc with hc | hc | hc
  · exact hhead _ c (List.mem_append_left _ hc)
  · exact hchars c hc
  · exact hhead true c (List.mem_append_right _ hc)

theorem environmentWord?_eq_none (hc : c ≠ '\\') (s : List Char) : environmentWord? (c :: s) = none := by
  refine Option.eq_none_iff_forall_ne_some.2 fun w hw => ?_
  obtain ⟨tail, htail⟩ := w.text_eq_cons
  obtain ⟨rest, hrest⟩ := (environmentWord?_eq_some_iff.1 hw).2
  rw [htail] at hrest
  exact hc (List.cons.inj hrest).1.symm

theorem environmentWord?_text (hname : ∀ c ∈ w.name, isNameChar c = true) (t : List Char) :
    environmentWord? (w.text ++ t) = some w :=
  environmentWord?_eq_some_iff.2 ⟨hname, List.prefix_append _ _⟩

/-- What stands behind a text makes no word of its end, unless a word goes on there. -/
theorem environmentWord?_append {y : List Char}
    (h : ∀ w : EnvironmentWord, (∀ c ∈ w.name, isNameChar c = true) → ∀ z, w.text = x ++ z → z <+: y → z = []) :
    environmentWord? (x ++ y) = environmentWord? x := by
  refine Option.ext fun w => ?_
  rw [environmentWord?_eq_some_iff, environmentWord?_eq_some_iff]
  refine and_congr_right fun hname => ⟨fun hpre => ?_, fun hpre => hpre.trans (List.prefix_append x y)⟩
  rcases List.prefix_or_prefix_of_prefix hpre (List.prefix_append x y) with hshort | ⟨z, hz⟩
  · exact hshort
  · rw [← hz, List.prefix_append_right_inj] at hpre
    have hend : x = w.text := by rw [← hz, h w hname z hz.symm hpre, List.append_nil]
    exact hend ▸ List.prefix_rfl

/-- A word ends with a closing brace. -/
theorem environmentWord?_append_of_notMem (hy : '}' ∉ y) (x : List Char) :
    environmentWord? (x ++ y) = environmentWord? x := by
  refine environmentWord?_append fun w _ z hz hpre => ?_
  rcases List.eq_nil_or_concat z with rfl | ⟨z, c, rfl⟩
  · rfl
  · rw [List.concat_eq_append] at hz hpre
    rw [EnvironmentWord.text_eq, ← List.append_assoc, ← List.append_assoc] at hz
    obtain rfl := List.singleton_inj.1 (List.append_inj' hz rfl).2
    exact absurd (hpre.subset (List.mem_append_right z List.mem_cons_self)) hy

/-- A word does not go on behind a backslash. -/
theorem environmentWord?_append_slash (hx : x ≠ []) (y : List Char) :
    environmentWord? (x ++ '\\' :: y) = environmentWord? x := by
  refine environmentWord?_append fun w hname z hz hpre => ?_
  obtain ⟨c, x, rfl⟩ := List.exists_cons_of_ne_nil hx
  cases z with
  | nil => rfl
  | cons d z =>
    obtain rfl := (List.cons_prefix_cons.1 hpre).1
    obtain ⟨tail, htail⟩ := w.text_eq_cons
    obtain ⟨-, rfl⟩ := List.cons.inj (htail.symm.trans hz)
    exact absurd rfl (EnvironmentWord.plain_tail hname htail '\\' (by simp)).1

/-! ## The words of a text -/

/-- The words of a text that is read in this mode. -/
def Mode.words (m : Mode) (s : List Char) : List EnvironmentWord := (m.places s).filterMap environmentWord?

/-- **The words of a text** stand at the places where it is read as it stands. -/
theorem environmentWords_eq (s : List Char) : environmentWords s = Mode.plain.words s := by
  have hspecial : ∀ c s, isSpecial c = false → environmentWord? (c :: s) = none := by
    intro c s hc
    exact environmentWord?_eq_none (not_isSpecial_iff.1 hc).1 s
  refine filterMap_withRest hspecial fun offset c s kind k h => ?_
  have htext : c :: s.take k ++ s.drop k = c :: s := by simp
  simp only [htext]
  split
  · rfl
  · rename_i hkind
    symm
    refine Option.eq_none_iff_forall_ne_some.2 fun w hw => hkind ?_
    obtain ⟨rest, hrest⟩ := (environmentWord?_eq_some_iff.1 hw).2
    rw [EnvironmentWord.text_eq] at hrest
    cases hopening : w.opening with
    | true =>
      rw [hopening] at hrest
      obtain ⟨rfl, rfl⟩ := List.cons.inj hrest
      exact (congrArg Prod.fst h).symm
    | false =>
      rw [hopening] at hrest
      obtain ⟨rfl, rfl⟩ := List.cons.inj hrest
      exact (congrArg Prod.fst h).symm

theorem words_append_of_notMem (hy : '}' ∉ y) (m : Mode) (x : List Char) : m.words (x ++ y) = m.words x := by
  have hback : (m.after x).words y = [] := by
    refine List.filterMap_eq_nil_iff.2 fun z hz => ?_
    have hnotMem : '}' ∉ z := fun hmem => hy ((suffix_of_mem_places hz).subset hmem)
    exact environmentWord?_append_of_notMem hnotMem []
  have happend := filterMap_places_append (fun z _ => environmentWord?_append_of_notMem hy z) m x
  rw [Mode.words, happend, ← Mode.words, ← Mode.words, hback, List.append_nil]

/-- A text without backslashes has no words. -/
theorem words_of_notMem (hs : '\\' ∉ s) (m : Mode) : m.words s = [] := by
  refine List.filterMap_eq_nil_iff.2 fun z hz => ?_
  obtain ⟨c, y, rfl⟩ := List.exists_cons_of_ne_nil (ne_nil_of_mem_places hz)
  refine environmentWord?_eq_none ?_ y
  rintro rfl
  exact hs ((suffix_of_mem_places hz).subset List.mem_cons_self)

theorem words_plain_append (hs : ∀ c ∈ s, c ≠ '\\' ∧ c ≠ '%') (t : List Char) :
    Mode.plain.words (s ++ t) = Mode.plain.words t := by
  induction s with
  | nil => rfl
  | cons c s ih =>
    obtain ⟨hc, hs⟩ := List.forall_mem_cons.1 hs
    have hcons : Mode.plain.words (c :: (s ++ t)) = Mode.plain.words (s ++ t) := by
      rw [Mode.words, places_plain_cons, List.filterMap_cons_none (environmentWord?_eq_none hc.1 _),
        next_eq_plain hc.1 hc.2 Mode.noConfusion, Mode.words]
    rw [List.cons_append, hcons, ih hs]

/-- **A word in front** of a text. -/
theorem words_text_append (hname : ∀ c ∈ w.name, isNameChar c = true) (t : List Char) :
    Mode.plain.words (w.text ++ t) = w :: Mode.plain.words t := by
  have hword := environmentWord?_text hname t
  obtain ⟨tail, htail⟩ := w.text_eq_cons
  obtain ⟨c, tail, rfl⟩ : ∃ c tail', tail = c :: tail' := by
    obtain ⟨opening, name⟩ := w
    cases opening
    · exact ⟨_, _, (List.cons.inj htail).2.symm⟩
    · exact ⟨_, _, (List.cons.inj htail).2.symm⟩
  have hplain := List.forall_mem_cons.1 (EnvironmentWord.plain_tail hname htail)
  rw [htail] at hword ⊢
  calc Mode.plain.words ('\\' :: c :: tail ++ t) = w :: Mode.plain.words (tail ++ t) :=
        List.filterMap_cons_some hword
    _ = w :: Mode.plain.words t := by rw [words_plain_append hplain.2]

/-- **A word at the end** of a text is read where the text is. -/
theorem words_append_text (hname : ∀ c ∈ w.name, isNameChar c = true) (t : List Char) :
    Mode.plain.words (t ++ w.text) = Mode.plain.words t ++ if Mode.plain.after t = .plain then [w] else [] := by
  obtain ⟨tail, htail⟩ := w.text_eq_cons
  have hnone : ∀ m : Mode, m ≠ .plain → m.words w.text = [] := by
    intro m hm
    have hslash : '\\' ∉ tail := fun hmem => (EnvironmentWord.plain_tail hname htail '\\' hmem).1 rfl
    have hplaces : m.words ('\\' :: tail) = (m.next '\\').words tail := by
      rw [Mode.words, Mode.places, if_neg hm, Mode.words]
    rw [htail, hplaces, words_of_notMem hslash]
  have happend := filterMap_places_append (fun z hz => environmentWord?_append_slash hz tail) .plain t
  rw [← htail] at happend
  refine happend.trans (congrArg (Mode.plain.words t ++ ·) ?_)
  split
  · rename_i hplain
    have hword := words_text_append hname []
    rw [List.append_nil] at hword
    rw [hplain]
    exact hword
  · rename_i hmode
    exact hnone _ hmode

/-! ## Delimiters -/

/-- The expression without the blanks and delimiters around it, as it is when environments are looked for. -/
def withoutDelimiters (s : List Char) : List Char := trim ((stripDelimiters? (trim s)).getD (trim s))

theorem stripDisplay_eq (s : List Char) :
    stripDisplay s = trim ((stripEnvironment? (withoutDelimiters s)).getD (withoutDelimiters s)) := rfl

theorem words_trim (s : List Char) : Mode.plain.words (trim s) = Mode.plain.words s := by
  obtain ⟨front, back, hs, hfront, hback⟩ := append_trim s
  have hbrace : '}' ∉ back := notMem_of_isBlank hback (by decide)
  conv => rhs; rw [hs]
  rw [words_append_of_notMem hbrace, words_plain_append (plain_of_isBlank hfront)]

theorem words_of_stripDelimiters? (h : stripDelimiters? s = some t) : Mode.plain.words s = Mode.plain.words t := by
  rw [stripDelimiters?, Option.orElse_eq_orElse, Option.orElse_eq_or, Option.or_eq_some_iff] at h
  rcases h with h | ⟨-, h⟩
  · obtain rfl := between?_eq_some_iff.1 (Option.filter_eq_some_iff.1 h).1
    rw [words_plain_append (by simp), words_append_of_notMem (by decide)]
  · obtain rfl := between?_eq_some_iff.1 (Option.filter_eq_some_iff.1 h).1
    have hbracket : Mode.plain.words (['\\', '['] ++ (t ++ ['\\', ']'])) = Mode.plain.words (t ++ ['\\', ']']) := rfl
    rw [hbracket, words_append_of_notMem (by decide)]

/-- **Delimiters and blanks** around an expression hold no words. -/
theorem environmentWords_withoutDelimiters (s : List Char) :
    environmentWords (withoutDelimiters s) = environmentWords s := by
  rw [environmentWords_eq, environmentWords_eq, withoutDelimiters, words_trim]
  cases hstrip : stripDelimiters? (trim s) with
  | none => exact words_trim s
  | some t =>
    rw [Option.getD_some, ← words_of_stripDelimiters? hstrip, words_trim]

/-! ## The environment around an expression -/

theorem isNameChar_of_mem_wrappingEnvironments (h : name ∈ wrappingEnvironments) :
    ∀ c ∈ name, isNameChar c = true := by
  simp only [wrappingEnvironments, List.mem_cons, List.not_mem_nil, or_false] at h
  rcases h with rfl | rfl | rfl | rfl
  · exact List.all_eq_true.1 (by decide)
  · exact List.all_eq_true.1 (by decide)
  · exact List.all_eq_true.1 (by decide)
  · exact List.all_eq_true.1 (by decide)

/-- The name of an environment around a text is read off its opening word, and so its body is known too. -/
theorem environment_unique {name' body' : List Char} (hname : ∀ c ∈ name, isNameChar c = true)
    (hname' : ∀ c ∈ name', isNameChar c = true) (hs : s = beginOf name ++ (body ++ endOf name))
    (hs' : s = beginOf name' ++ (body' ++ endOf name')) : name = name' ∧ body = body' := by
  have hword : environmentWord? s = some ⟨true, name⟩ := hs ▸ environmentWord?_text (w := ⟨true, name⟩) hname _
  have hword' : environmentWord? s = some ⟨true, name'⟩ := hs' ▸ environmentWord?_text (w := ⟨true, name'⟩) hname' _
  obtain rfl := congrArg NamedBracket.name (Option.some.inj (hword.symm.trans hword'))
  have hbody := List.append_cancel_left (hs.symm.trans hs')
  exact ⟨rfl, List.append_cancel_right hbody⟩

/-- The words of a text with an environment around it. -/
theorem environmentWords_environment (hname : ∀ c ∈ name, isNameChar c = true) (body : List Char) :
    environmentWords (beginOf name ++ (body ++ endOf name)) =
      ⟨true, name⟩ :: (environmentWords body ++ if Mode.plain.after body = .plain then [⟨false, name⟩] else []) := by
  have hopening := words_text_append (w := ⟨true, name⟩) hname (body ++ endOf name)
  have hclosing := words_append_text (w := ⟨false, name⟩) hname body
  rw [environmentWords_eq, environmentWords_eq]
  exact hopening.trans (congrArg _ hclosing)

/-- **Environments stay well nested** exactly if what is taken away is one environment: its closing word is
read as a command, and no word of its body closes the opening one. -/
theorem wellNested_stripDisplay_iff (h : WellNested (environmentWords s)) :
    WellNested (environmentWords (stripDisplay s)) ↔
      ∀ name ∈ wrappingEnvironments, ∀ body, withoutDelimiters s = beginOf name ++ (body ++ endOf name) →
        environmentWords s = ⟨true, name⟩ :: (environmentWords body ++ [⟨false, name⟩]) ∧
          ¬ ClosesOuter (environmentWords body) := by
  have hwords := environmentWords_withoutDelimiters s
  have htrim : ∀ t, environmentWords (trim t) = environmentWords t := by
    intro t
    rw [environmentWords_eq, environmentWords_eq, words_trim]
  rw [stripDisplay_eq, htrim]
  cases hstrip : stripEnvironment? (withoutDelimiters s) with
  | none =>
    refine iff_of_true ?_ fun name hname body hs => ?_
    · rwa [Option.getD_none, hwords]
    · exact absurd hs (stripEnvironment?_eq_none_iff.1 hstrip name hname body)
  | some body =>
    obtain ⟨name, hname, hbetween⟩ := List.exists_of_findSome?_eq_some hstrip
    have hs := between?_eq_some_iff.1 hbetween
    have hchars := isNameChar_of_mem_wrappingEnvironments hname
    rw [Option.getD_some]
    constructor
    · intro hbody name' hname' body' hs'
      obtain ⟨rfl, rfl⟩ := environment_unique hchars (isNameChar_of_mem_wrappingEnvironments hname') hs hs'
      rw [← hwords, hs, environmentWords_environment hchars] at h ⊢
      by_cases hread : Mode.plain.after body = .plain
      · rw [if_pos hread]
        exact ⟨rfl, hbody.not_closesOuter⟩
      · -- a closing word that is escaped or in a comment leaves the opening one without a partner
        rw [if_neg hread, List.append_nil] at h
        exact absurd h (hbody.not_open name)
    · intro henvironment
      obtain ⟨hsplit, houter⟩ := henvironment name hname body hs
      rw [hsplit] at h
      exact (wellNested_inner_iff h).2 houter

/-- Brackets around an environment that has another one inside. -/
theorem wellNested_stripDisplay_iff_inner :
    let s := "\\[ \\begin\x7balign\x7d\\begin\x7bcases\x7da\\end\x7bcases\x7d\\end\x7balign\x7d\\]".toList
    WellNested (environmentWords s) ∧ (WellNested (environmentWords (stripDisplay s)) ↔
      ∀ name ∈ wrappingEnvironments, ∀ body, withoutDelimiters s = beginOf name ++ (body ++ endOf name) →
        environmentWords s = ⟨true, name⟩ :: (environmentWords body ++ [⟨false, name⟩]) ∧
          ¬ ClosesOuter (environmentWords body)) := by
  intro s
  have hwords : environmentWords s = [⟨true, "align".toList⟩, ⟨true, "cases".toList⟩, ⟨false, "cases".toList⟩,
      ⟨false, "align".toList⟩] := by decide +kernel
  have hnested : WellNested (environmentWords s) := hwords ▸ .block _ (.block _ .nil .nil) .nil
  exact ⟨hnested, wellNested_stripDisplay_iff hnested⟩

/-- **Two environments in a row** are taken for one: its opening word is that of the first, its closing word
that of the second. -/
theorem wellNested_stripDisplay_row :
    let s := "\\begin\x7balign\x7da\\end\x7balign\x7d\\begin\x7balign\x7db\\end\x7balign\x7d".toList
    WellNested (environmentWords s) ∧ stripDisplay s = "a\\end\x7balign\x7d\\begin\x7balign\x7db".toList ∧
      ¬ WellNested (environmentWords (stripDisplay s)) := by
  intro s
  have hwords : environmentWords s = [⟨true, "align".toList⟩, ⟨false, "align".toList⟩, ⟨true, "align".toList⟩,
      ⟨false, "align".toList⟩] := by decide +kernel
  have hnested : WellNested (environmentWords s) := hwords ▸ .block _ .nil (.block _ .nil .nil)
  have hleft : environmentWords (stripDisplay s) = [⟨false, "align".toList⟩, ⟨true, "align".toList⟩] := by
    decide +kernel
  refine ⟨hnested, by decide +kernel, fun hstripped => ?_⟩
  rw [hleft] at hstripped
  exact hstripped.not_closesOuter ⟨[], "align".toList, _, rfl, .nil⟩

end MathMarkup.Tex
