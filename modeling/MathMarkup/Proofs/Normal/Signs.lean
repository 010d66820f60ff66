import Mathlib.Data.List.Basic
import MathMarkup.Proofs.Text.Search
import MathMarkup.Tex.Placeholder

/-!
# Signs of a readable text

A text is readable when it is spelled by signs that no later sign changes the reading of: characters,
escaped characters, words, and the whole `\begin\x7b…\x7d` or `\end\x7b…\x7d` of an environment. Cutting a
readable text between signs gives readable texts (`ReadableWith.of_append_left`,
`ReadableWith.of_append_right`), and what a text starts with tells its first signs (`ReadableWith.char_cons`,
`ReadableWith.word_of_spell`). Whether `\color` may stand in it is told apart.
-/

namespace MathMarkup.Tex

open Text

theorem isBlank_eq_false_of_isCommandLetter {c : Char} (h : isCommandLetter c = true) :
    isBlank c = false := by
  have hrange := toNat_of_isAlpha h
  refine Bool.eq_false_iff.2 fun hblank => ?_
  simp only [isBlank, blankRanges, inRanges] at hblank
  grind

/-- What a readable text is made of. -/
inductive Sign where
  | char (c : Char)
  /-- A backslash and a character that is no letter and no blank. -/
  | escaped (c : Char)
  /-- A backslash at the end or before a blank. -/
  | slash
  /-- A backslash and letters. -/
  | word (name : List Char)
  /-- The whole word that opens or closes an environment. -/
  | env (opening : Bool) (name : List Char)
deriving DecidableEq, Repr

namespace Sign

def text : Sign → List Char
  | char c => [c]
  | escaped c => ['\\', c]
  | slash => ['\\']
  | word name => '\\' :: name
  | env true name => beginOf name
  | env false name => endOf name

/-- Does a command span start with this sign? -/
def isWord : Sign → Bool
  | word _ | env _ _ => true
  | _ => false

/-- The words that must not come up behind a backslash by accident. -/
def reserved : List (List Char) :=
  [['b', 'e', 'g', 'i', 'n', '{'], ['e', 'n', 'd', '{'], ['c', 'o', 'l', 'o', 'r', '{']]

/-- The reserved words, of which colors may be left out. -/
def reservedWith : Bool → List (List Char)
  | true => reserved
  | false => [['b', 'e', 'g', 'i', 'n', '{'], ['e', 'n', 'd', '{']]

/-- Is the sign read as such when `rest` comes behind it? -/
def FitsWith (colors : Bool) (rest : List Char) : Sign → Prop
  | char c => c ≠ '\\' ∧ c ≠ '%'
  | escaped c =>
    isBlank c = false ∧ isCommandLetter c = false ∧ (c = '\\' → ∀ w ∈ reservedWith colors, ¬ w <+: rest)
  | slash => ∀ c ∈ rest.head?, isBlank c = true
  | word name =>
    name ≠ [] ∧ (∀ c ∈ name, isCommandLetter c = true) ∧ (∀ c ∈ rest.head?, isCommandLetter c = false) ∧
      (name ++ ['{'] ∈ reservedWith colors → rest.head? ≠ some '{')
  | env _ name => ∀ c ∈ name, c ≠ '{' ∧ c ≠ '}' ∧ c ≠ '\\' ∧ c ≠ '%'

instance decidableFitsWith (colors : Bool) (rest : List Char) : (u : Sign) → Decidable (u.FitsWith colors rest)
  | char c => inferInstanceAs (Decidable (c ≠ '\\' ∧ c ≠ '%'))
  | escaped c => inferInstanceAs (Decidable
      (isBlank c = false ∧ isCommandLetter c = false ∧ (c = '\\' → ∀ w ∈ reservedWith colors, ¬ w <+: rest)))
  | slash => Option.decidableForallMem _
  | word name =>
    have : Decidable (∀ c ∈ name, isCommandLetter c = true) := List.decidableBAll _ _
    have : Decidable (∀ c ∈ rest.head?, isCommandLetter c = false) := Option.decidableForallMem _
    inferInstanceAs (Decidable (name ≠ [] ∧ (∀ c ∈ name, isCommandLetter c = true) ∧
      (∀ c ∈ rest.head?, isCommandLetter c = false) ∧ (name ++ ['{'] ∈ reservedWith colors → rest.head? ≠ some '{')))
  | env _ name => List.decidableBAll _ name

/-- The sign fits where no color is set. -/
abbrev Fits (rest : List Char) (u : Sign) : Prop := u.FitsWith true rest

theorem mem_reserved_of_mem {colors : Bool} {w : List Char} (hw : w ∈ reservedWith colors) : w ∈ reserved := by
  cases colors with
  | true => exact hw
  | false =>
    simp only [reservedWith, reserved, List.mem_cons, List.not_mem_nil, or_false] at hw ⊢
    exact hw.imp_right Or.inl

theorem text_ne_nil (u : Sign) : u.text ≠ [] := by
  cases u with
  | env opening name => cases opening <;> simp [text, beginOf, endOf]
  | _ => simp [text]

/-- What fits before a text fits before each start of it. -/
theorem FitsWith.of_append {colors : Bool} {u : Sign} {r s : List Char} (h : u.FitsWith colors (r ++ s)) :
    u.FitsWith colors r := by
  have hhead : ∀ c ∈ r.head?, c ∈ (r ++ s).head? := by
    intro c hc
    rw [List.head?_append, hc, Option.some_or]
    rfl
  cases u with
  | char | env => exact h
  | slash => exact fun c hc => h c (hhead c hc)
  | escaped c =>
    exact ⟨h.1, h.2.1, fun hc w hw hpre => h.2.2 hc w hw (hpre.trans (List.prefix_append r s))⟩
  | word name => exact ⟨h.1, h.2.1, fun c hc => h.2.2.1 c (hhead c hc), fun hw hc => h.2.2.2 hw (hhead _ hc)⟩

end Sign

open Sign

variable {us vs a b : List Sign} {u : Sign} {c : Char} {s t : List Char} {colors : Bool}

/-- The text that the signs spell. -/
def spell (us : List Sign) : List Char := us.flatMap Sign.text

@[simp] theorem spell_nil : spell [] = [] := rfl

@[simp] theorem spell_cons (u : Sign) (us : List Sign) : spell (u :: us) = u.text ++ spell us := rfl

@[simp] theorem spell_append (a b : List Sign) : spell (a ++ b) = spell a ++ spell b := List.flatMap_append

@[simp] theorem spell_chars (s : List Char) : spell (s.map .char) = s := by
  induction s with
  | nil => rfl
  | cons c s ih => simpa [text] using ih

theorem spell_eq_nil : spell us = [] ↔ us = [] := by
  cases us with
  | nil => simp
  | cons u us => simp [u.text_ne_nil]

theorem head?_spell_cons (u : Sign) (us : List Sign) : (spell (u :: us)).head? = u.text.head? := by
  rw [spell_cons, List.head?_append_of_ne_nil _ u.text_ne_nil]

theorem head?_spell (us : List Sign) : (spell us).head? = us.head?.bind fun u => u.text.head? := by
  cases us with
  | nil => rfl
  | cons u us => exact head?_spell_cons u us

/-- Every sign is read as such before the ones behind it, and none holds a placeholder character. -/
def ReadableWith (colors : Bool) : List Sign → Prop
  | [] => True
  | u :: us => hasMark u.text = false ∧ u.FitsWith colors (spell us) ∧ ReadableWith colors us

instance decidableReadableWith (colors : Bool) : (us : List Sign) → Decidable (ReadableWith colors us)
  | [] => .isTrue trivial
  | u :: us =>
    have := decidableReadableWith colors us
    inferInstanceAs (Decidable (hasMark u.text = false ∧ u.FitsWith colors (spell us) ∧ ReadableWith colors us))

/-- Readable signs that set no color. -/
abbrev Readable : List Sign → Prop := ReadableWith true

/-- Readable signs that may set colors. -/
abbrev Legible : List Sign → Prop := ReadableWith false

theorem ReadableWith.of_append_right (h : ReadableWith colors (a ++ b)) : ReadableWith colors b := by
  induction a with
  | nil => exact h
  | cons u a ih => exact ih h.2.2

theorem ReadableWith.of_append_left (h : ReadableWith colors (a ++ b)) : ReadableWith colors a := by
  induction a with
  | nil => trivial
  | cons u a ih =>
    rw [List.cons_append] at h
    obtain ⟨hmark, hfits, hrest⟩ := h
    rw [spell_append] at hfits
    exact ⟨hmark, hfits.of_append, ih hrest⟩

theorem ReadableWith.hasMark_eq_false (h : ReadableWith colors us) : hasMark (spell us) = false := by
  induction us with
  | nil => rfl
  | cons u us ih => rw [spell_cons, hasMark_append, h.1, ih h.2.2, Bool.or_false]

/-! ## What a readable text starts with -/

/-- A text that starts with a backslash is not spelled from a character on, and conversely. -/
theorem Sign.head?_text_eq_slash (hu : u.FitsWith colors t) : u.text.head? = some '\\' ↔ ∀ c, u ≠ .char c := by
  cases u with
  | char c => simpa [text] using hu.1
  | env opening name => cases opening <;> simp [text, beginOf, endOf]
  | _ => simp [text]

theorem ReadableWith.char_cons (h : ReadableWith colors us) (hs : spell us = c :: s) (hc : c ≠ '\\') :
    ∃ us', us = .char c :: us' ∧ spell us' = s := by
  cases us with
  | nil => simp at hs
  | cons u us =>
    have hhead : u.text.head? = some c := by
      have := congrArg List.head? hs
      rwa [head?_spell_cons, List.head?_cons] at this
    by_cases hchar : ∃ d, u = .char d
    · obtain ⟨d, rfl⟩ := hchar
      simp only [text, List.head?_cons, Option.some.injEq] at hhead
      subst hhead
      exact ⟨us, rfl, by simpa [text] using hs⟩
    · have hslash := (Sign.head?_text_eq_slash h.2.1).2 fun d hd => hchar ⟨d, hd⟩
      rw [hhead, Option.some.injEq] at hslash
      exact absurd hslash hc

/-- A stretch without backslashes is spelled by characters. -/
theorem ReadableWith.chars_append (h : ReadableWith colors us) (hs : spell us = t ++ s) (ht : '\\' ∉ t) :
    ∃ us', us = t.map .char ++ us' ∧ spell us' = s := by
  induction t generalizing us with
  | nil => exact ⟨us, rfl, hs⟩
  | cons c t ih =>
    rw [List.mem_cons, not_or] at ht
    obtain ⟨us', rfl, hs'⟩ := h.char_cons hs (Ne.symm ht.1)
    obtain ⟨us'', rfl, hs''⟩ := ih h.2.2 hs' ht.2
    exact ⟨us'', rfl, hs''⟩

/-- Behind a backslash and a letter comes a word or the word of an environment. -/
theorem ReadableWith.isWord_of_letter (h : ReadableWith colors (u :: us)) (hs : spell (u :: us) = '\\' :: c :: s)
    (hc : isCommandLetter c = true) : u.isWord = true := by
  cases u with
  | char d =>
    have hd : d = '\\' := by simpa [text] using congrArg List.head? hs
    exact absurd hd h.2.1.1
  | escaped d =>
    have hd : d = c := by simpa [text] using congrArg (fun l => l.tail.head?) hs
    rw [← hd, h.2.1.2.1] at hc
    cases hc
  | slash =>
    have hspell : spell us = c :: s := by simpa [text] using hs
    have hblank := h.2.1 c (by rw [hspell]; rfl)
    rw [isBlank_eq_false_of_isCommandLetter hc] at hblank
    cases hblank
  | word | env => rfl

/-- The whole name of the first word, when no letter follows. -/
theorem ReadableWith.word_of_spell {name : List Char} (h : ReadableWith colors us)
    (hs : spell us = '\\' :: (name ++ c :: s)) (hname : name ≠ []) (hletters : ∀ d ∈ name, isCommandLetter d = true)
    (hc : isCommandLetter c = false) :
    (∃ us', us = .word name :: us' ∧ spell us' = c :: s) ∨
      ∃ opening envName us', us = .env opening envName :: us' := by
  have hlead : (name ++ c :: s).takeWhile isCommandLetter = name := by
    rw [List.takeWhile_append_of_pos hletters, List.takeWhile_cons_of_neg (by simp [hc]), List.append_nil]
  cases us with
  | nil => simp at hs
  | cons u us =>
    obtain ⟨d, name', rfl⟩ := List.exists_cons_of_ne_nil hname
    have hword := h.isWord_of_letter hs (hletters d List.mem_cons_self)
    cases u with
    | char | escaped | slash => cases hword
    | env opening envName => exact Or.inr ⟨opening, envName, us, rfl⟩
    | word other =>
      have hspell : other ++ spell us = d :: name' ++ c :: s := by simpa [text] using hs
      have hother : (other ++ spell us).takeWhile isCommandLetter = other := by
        rw [List.takeWhile_append_of_pos h.2.1.2.1]
        cases hus : spell us with
        | nil => simp
        | cons e r =>
          have hend := h.2.1.2.2.1 e (by rw [hus]; rfl)
          rw [List.takeWhile_cons_of_neg (by simp [hend]), List.append_nil]
      rw [hspell, hlead] at hother
      subst hother
      exact Or.inl ⟨us, rfl, List.append_cancel_left hspell⟩

/-- A reserved word behind a backslash is the word of an environment. -/
theorem ReadableWith.env_of_reserved {w q : List Char} (h : ReadableWith colors us) (hw : w ∈ reservedWith colors)
    (hs : spell us = '\\' :: (w ++ q)) : ∃ opening name us', us = .env opening name :: us' := by
  obtain ⟨name, hname, hletters, rfl⟩ : ∃ name, name ≠ [] ∧ (∀ d ∈ name, isCommandLetter d = true) ∧
      w = name ++ ['{'] := by
    have hmem := mem_reserved_of_mem hw
    simp only [reserved, List.mem_cons, List.not_mem_nil, or_false] at hmem
    rcases hmem with rfl | rfl | rfl
    · exact ⟨"begin".toList, by decide, List.all_eq_true.1 (by decide), rfl⟩
    · exact ⟨"end".toList, by decide, List.all_eq_true.1 (by decide), rfl⟩
    · exact ⟨"color".toList, by decide, List.all_eq_true.1 (by decide), rfl⟩
  rw [List.append_assoc, List.singleton_append] at hs
  rcases h.word_of_spell hs hname hletters (by decide) with ⟨us', rfl, hus'⟩ | henv
  · refine absurd ?_ (h.2.1.2.2.2 hw)
    rw [hus']
    rfl
  · exact henv

/-- Behind its first character no sign but a line break holds a backslash. -/
theorem Sign.eq_escaped_of_slash {x z : List Char} (hu : u.FitsWith colors t) (h : u.text = x ++ '\\' :: z)
    (hx : x ≠ []) : u = .escaped '\\' ∧ x = ['\\'] ∧ z = [] := by
  obtain ⟨d, x, rfl⟩ := List.exists_cons_of_ne_nil hx
  have hmem : '\\' ∈ u.text.tail := by simp [h]
  cases u with
  | char c => simp [text] at hmem
  | escaped c =>
    simp only [text, List.tail_cons, List.mem_singleton] at hmem
    subst hmem
    simp only [text, List.cons_append, List.cons.injEq] at h
    cases x with
    | nil => exact ⟨rfl, by rw [h.1], by simpa using h.2.symm⟩
    | cons e x => simp at h
  | slash => simp [text] at hmem
  | word name => exact absurd (hu.2.1 _ hmem) (by decide)
  | env opening name =>
    have hslash : '\\' ∉ name := fun hmem => (hu _ hmem).2.2.1 rfl
    cases opening <;> simp [text, beginOf, endOf, hslash] at hmem

/-- A reserved word behind a backslash starts at a sign. -/
theorem ReadableWith.cut_reserved {w p q : List Char} (h : ReadableWith colors us) (hw : w ∈ reservedWith colors)
    (hs : spell us = p ++ '\\' :: (w ++ q)) : ∃ a b, us = a ++ b ∧ spell a = p ∧ spell b = '\\' :: (w ++ q) := by
  induction us generalizing p with
  | nil => simp at hs
  | cons u us ih =>
    rw [spell_cons] at hs
    rcases List.append_eq_append_iff.1 hs with ⟨p', rfl, hus⟩ | ⟨z, hu, hz⟩
    · obtain ⟨a, b, rfl, rfl, hb⟩ := ih h.2.2 hus
      exact ⟨u :: a, b, rfl, rfl, hb⟩
    · cases z with
      | nil => exact ⟨[u], us, rfl, by simpa using hu, by simpa using hz.symm⟩
      | cons d z =>
        simp only [List.cons_append, List.cons.injEq] at hz
        obtain ⟨rfl, hz⟩ := hz
        by_cases hp : p = []
        · subst hp
          exact ⟨[], u :: us, rfl, rfl, by rw [spell_cons, hu, List.nil_append, List.cons_append, hz]⟩
        · obtain ⟨rfl, -, rfl⟩ := Sign.eq_escaped_of_slash h.2.1 hu hp
          exact absurd ⟨q, by simpa using hz⟩ (h.2.1.2.2 rfl w hw)

theorem Sign.text_env (colors opening : Bool) (name : List Char) :
    ∃ w ∈ reservedWith colors, (env opening name).text = '\\' :: (w ++ (name ++ ['}'])) := by
  cases opening with
  | true =>
    refine ⟨['b', 'e', 'g', 'i', 'n', '{'], ?_, by simp [text, beginOf]⟩
    cases colors <;> simp [reservedWith, reserved]
  | false => exact ⟨['e', 'n', 'd', '{'], by cases colors <;> simp [reservedWith, reserved], by simp [text, endOf]⟩

/-- The word of an environment starts at its own sign. -/
theorem ReadableWith.eq_env_of_prefix {opening : Bool} {name : List Char} (h : ReadableWith colors (u :: us))
    (hname : '}' ∉ name) (hpre : (env opening name).text <+: spell (u :: us)) : u = .env opening name := by
  obtain ⟨q, hq⟩ := hpre
  obtain ⟨w, hw, htext⟩ := Sign.text_env colors opening name
  rw [htext, List.cons_append, List.append_assoc] at hq
  obtain ⟨opening', other, us', hu⟩ := h.env_of_reserved hw hq.symm
  obtain ⟨rfl, rfl⟩ := List.cons.inj hu
  have hother : '}' ∉ other := fun hmem => (h.2.1 _ hmem).2.1 rfl
  rw [← List.append_assoc, ← List.cons_append, ← htext, spell_cons] at hq
  cases opening <;> cases opening' <;>
    simp [text, beginOf, endOf] at hq
  all_goals rw [(eq_of_append_cons hname hother hq).1]

/-- Inside a sign no word of an environment starts. -/
theorem ReadableWith.not_env_inside {opening : Bool} {name x y : List Char} (h : ReadableWith colors (u :: us))
    (hxy : u.text = x ++ y) (hx : x ≠ []) (hy : y ≠ []) : ¬ (env opening name).text <+: y ++ spell us := by
  rintro ⟨q, hq⟩
  obtain ⟨w, hw, htext⟩ := Sign.text_env colors opening name
  obtain ⟨c, z, rfl⟩ := List.exists_cons_of_ne_nil hy
  rw [htext, List.cons_append, List.append_assoc, List.cons_append, List.cons.injEq] at hq
  obtain ⟨rfl, hq⟩ := hq
  obtain ⟨rfl, -, rfl⟩ := Sign.eq_escaped_of_slash h.2.1 hxy hx
  exact h.2.1.2.2 rfl w hw ⟨_, hq⟩

end MathMarkup.Tex
