import MathMarkup.Proofs.Display.Brackets
import MathMarkup.Proofs.Normal.Lexing
import MathMarkup.Proofs.Normal.Settled
import MathMarkup.Proofs.Placeholder.Rewrites
import MathMarkup.Tex.Normalize

/-!
# Normalizing twice

The normal form of a readable expression is a framed text (`normalizeBody_eq`): the realigned blocks of
the bare expression in one environment, with the cosmetic fixes. The fixes leave the frame alone
(`Touched.exists_framed`) and the blocks in it aligned, so that the second run realigns nothing.

Main theorem: `normalize_idempotent`.
-/

namespace MathMarkup.Tex

open Text Sign Block

variable {us vs ws : List Sign} {u : Sign} {bs : List Block} {n k : Nat} {s t raw : List Char} {colors : Bool}

/-! ## The frame -/

/-- The environment that an expression is put in. -/
def alignName : List Char := "align*".toList

def frameStart : List Sign := [.env true alignName, .char ' ']

def frameEnd : List Sign := [.char ' ', .env false alignName]

/-- The signs in one environment. -/
def framed (us : List Sign) : List Sign := .env true alignName :: .char ' ' :: (us ++ frameEnd)

theorem spell_framed (us : List Sign) : spell (framed us) = spell frameStart ++ spell us ++ spell frameEnd := by
  simp [framed, frameStart]

theorem normalizeLines_eq (s : List Char) : normalizeLines s =
    spell frameStart ++ joinRows (anchorRows (splitRows (collapseLineBreaks s))) ++ spell frameEnd := by
  unfold normalizeLines
  simp [frameStart, frameEnd, alignName, text, beginOf, endOf]

theorem Sign.FitsWith.append_space (h : u.FitsWith colors s) (t : List Char) : u.FitsWith colors (s ++ ' ' :: t) := by
  by_cases hu : u = .escaped '\\'
  · subst hu
    refine ⟨h.1, h.2.1, fun hc w hw hpre => h.2.2 hc w hw ?_⟩
    have hword : ' ' ∉ w := by
      have hw := mem_reserved_of_mem hw
      simp only [reserved, List.mem_cons, List.not_mem_nil, or_false] at hw
      rcases hw with rfl | rfl | rfl <;> decide
    exact prefix_of_prefix_append_cons hword hpre
  · refine h.congr hu ?_
    cases s with
    | nil => exact Or.inr (by simp)
    | cons c s => exact Or.inl rfl

theorem Readable.space_cons (h : Readable us) : Readable (.char ' ' :: us) := ⟨rfl, ⟨by decide, by decide⟩, h⟩

theorem Readable.append_space (h : Readable us) (hvs : Readable vs) : Readable (us ++ .char ' ' :: vs) := by
  induction us with
  | nil => exact hvs.space_cons
  | cons u us ih =>
    rw [List.cons_append]
    refine ⟨h.1, ?_, ih h.2.2⟩
    rw [spell_append]
    exact h.2.1.append_space _

theorem alignName_plain : ∀ c ∈ alignName, c ≠ '{' ∧ c ≠ '}' ∧ c ≠ '\\' ∧ c ≠ '%' := by
  intro c (hc : c ∈ ['a', 'l', 'i', 'g', 'n', '*'])
  simp only [List.mem_cons, List.not_mem_nil, or_false] at hc
  rcases hc with rfl | rfl | rfl | rfl | rfl | rfl <;> decide

theorem readable_framed (h : Readable us) : Readable (framed us) := by
  have hend : Readable [.env false alignName] := ⟨by decide, alignName_plain, trivial⟩
  exact ⟨by decide, alignName_plain, (h.append_space hend).space_cons⟩

/-- The frame holds no closing brace, so what ends with one stands before it. -/
theorem exists_append_of_append_frameEnd {z us us' : List Sign}
    (h : us ++ frameEnd = z ++ [.char '}'] ++ us') :
    ∃ us₁, us = z ++ [.char '}'] ++ us₁ ∧ us' = us₁ ++ frameEnd := by
  rcases List.append_eq_append_iff.1 h with ⟨w, hfront, hend⟩ | ⟨us₁, hfront, hend⟩
  · rcases List.eq_nil_or_concat w with rfl | ⟨w, e, rfl⟩
    · exact ⟨[], by simpa using hfront.symm, hend.symm⟩
    · rw [List.concat_eq_append, ← List.append_assoc] at hfront
      obtain ⟨-, he⟩ := List.append_inj' hfront rfl
      have hmem : .char '}' ∈ frameEnd := by
        rw [hend, List.concat_eq_append, ← he]
        simp
      exact absurd hmem (by decide)
  · exact ⟨us₁, hfront, hend⟩

theorem Touched.exists_append_frameEnd (h : Touched (us ++ frameEnd) ws) :
    ∃ vs, ws = vs ++ frameEnd ∧ Touched us vs := by
  generalize hus : us ++ frameEnd = us' at h
  induction h generalizing us with
  | nil => simp [frameEnd] at hus
  | @same v us' vs' h ih =>
    cases us with
    | nil =>
      obtain ⟨rfl, rfl⟩ := List.cons.inj hus
      cases h with
      | same _ h =>
        cases h
        exact ⟨[], rfl, .nil⟩
    | cons u us =>
      obtain ⟨rfl, hrest⟩ := List.cons.inj hus
      obtain ⟨vs, rfl, hvs⟩ := ih hrest
      exact ⟨u :: vs, rfl, .same u hvs⟩
  | @insert u v name us' vs' hu hv h ih =>
    match us with
    | [] => simp [frameEnd] at hus
    | [w] => simp [frameEnd] at hus
    | w :: w' :: us =>
      obtain ⟨rfl, hrest⟩ := List.cons.inj hus
      obtain ⟨vs, rfl, hvs⟩ := ih hrest
      obtain ⟨rfl, -⟩ := List.cons.inj hrest
      exact ⟨w :: v :: vs, rfl, .insert hu hv hvs⟩
  | @braces x y us' vs' hx hy h ih =>
    have hsplit : us ++ frameEnd = (.char '{' :: .char '{' :: (x ++ [y])) ++ [.char '}'] ++ us' := by
      simpa using hus
    obtain ⟨us₁, rfl, hus'⟩ := exists_append_of_append_frameEnd hsplit
    obtain ⟨vs, rfl, hvs⟩ := ih hus'.symm
    refine ⟨.char '{' :: (x ++ y :: vs), by simp, ?_⟩
    simpa using Touched.braces hx hy hvs

/-- **A fix leaves the frame alone.** -/
theorem Touched.exists_framed (h : Touched (framed us) ws) : ∃ vs, ws = framed vs ∧ Touched us vs := by
  rw [framed] at h
  generalize hrest : us ++ frameEnd = rest at h
  cases h with
  | same _ h =>
    cases h with
    | same _ h =>
      rw [← hrest] at h
      obtain ⟨vs, rfl, hvs⟩ := h.exists_append_frameEnd
      exact ⟨vs, rfl, hvs⟩
    | insert hu _ _ =>
      obtain ⟨c, hc, htight⟩ := hu
      obtain rfl : ' ' = c := by simpa [text] using hc
      cases htight

/-! ## The frame is taken away -/

theorem getLast?_framed (us : List Sign) : (spell (framed us)).getLast? = some '}' := by
  have hconcat : framed us = (.env true alignName :: .char ' ' :: (us ++ [.char ' '])) ++ [.env false alignName] := by
    simp [framed, frameEnd]
  rw [hconcat, getLast?_spell, List.getLast?_concat, Option.bind_some, Sign.getLast?_text_env]

theorem trimmed_framed (us : List Sign) : Trimmed (spell (framed us)) := by
  constructor
  · intro c hc
    obtain rfl : '\\' = c := by simpa [framed, alignName, text, beginOf] using hc
    decide
  · intro c hc
    rw [getLast?_framed] at hc
    obtain rfl : '}' = c := by simpa using hc
    decide

theorem stripDelimiters?_framed (us : List Sign) :
    stripDelimiters? (wrapDisplay (spell (framed us))) = some (spell (framed us)) := by
  have hbrace : (spell (framed us)).getLast? ≠ some '\\' := by
    rw [getLast?_framed]
    decide
  rw [stripDelimiters?_wrapDisplay, trailingBackslashes_eq_zero hbrace]
  rfl

theorem stripEnvironment?_framed (us : List Sign) :
    stripEnvironment? (spell (framed us)) = some (' ' :: (spell us ++ [' '])) := by
  have halign : between? (beginOf "align*".toList) (endOf "align*".toList) (spell (framed us)) =
      some (' ' :: (spell us ++ [' '])) := by
    rw [between?_eq_some_iff]
    simp [framed, frameEnd, alignName, text, beginOf, endOf]
  rw [stripEnvironment?, wrappingEnvironments, List.findSome?_cons_of_isNone, List.findSome?_cons_of_isNone,
    List.findSome?_cons_of_isNone, List.findSome?_cons, halign]
  · rfl
  · rfl
  · rfl

theorem Trimmed.trim_spaces (h : Trimmed s) : trim (' ' :: (s ++ [' '])) = s := by
  by_cases hs : s = []
  · subst hs
    rfl
  · have hspace : ∀ c ∈ [' '], Text.isBlank c = true := by
      intro c hc
      obtain rfl : c = ' ' := by simpa using hc
      decide
    have hhead : ∀ c ∈ (s ++ [' ']).head?, Text.isBlank c = false := by
      rw [List.head?_append_of_ne_nil _ hs]
      exact h.head
    rw [trim, ← List.singleton_append, trimStart_append_of_isBlank hspace, trimStart_eq_self hhead,
      trimEnd_append_of_isBlank hspace, trimEnd_eq_self h.last]

/-- What stands between the delimiters that normalizing writes is found again, trimmed. -/
theorem stripDisplay_wrapDisplay_framed (us : List Sign) :
    stripDisplay (wrapDisplay (spell (framed us))) = trim (' ' :: (spell us ++ [' '])) := by
  rw [stripDisplay]
  simp only [(trimmed_wrapDisplay _).trim_eq_self, stripDelimiters?_framed, Option.getD_some,
    (trimmed_framed us).trim_eq_self, stripEnvironment?_framed]

/-- **The delimiters that normalizing writes** are taken away again. -/
theorem stripDisplay_wrapDisplay (h : Trimmed (spell us)) :
    stripDisplay (wrapDisplay (spell (framed us))) = spell us := by
  rw [stripDisplay_wrapDisplay_framed, h.trim_spaces]

/-! ## One run -/

/-- Every token of the blocks is written. -/
theorem placeholder_infix_guard (hle : n ≤ k) (hlt : k < n + (spansOf bs).length) : placeholder k <:+: guard n bs := by
  induction bs generalizing n with
  | nil => simp [spansOf] at hlt; omega
  | cons b bs ih =>
    rw [spansOf] at hlt
    by_cases hb : b.head.isWord = true
    · rw [if_pos hb, List.length_cons] at hlt
      rw [guard_cons_of_isWord hb]
      by_cases hk : k = n
      · rw [hk]
        exact (List.prefix_append _ _).isInfix
      · exact (ih (by omega) (by omega)).trans (List.suffix_append _ _).isInfix
    · rw [if_neg hb] at hlt
      rw [guard_cons (by simpa using hb)]
      exact (ih hle hlt).trans (List.suffix_append _ _).isInfix

/-- The items of the framed blocks. -/
def frameItems (items : List Item) : List Item :=
  (spell frameStart).map .char ++ items ++ (spell frameEnd).map .char

/-- The line normalizer puts the realigned blocks in the frame. -/
theorem normalizeLines_guard (h : Readable us) :
    normalizeLines (guard 0 (blocksOf us)) = write (frameItems (number 0 (realign (blocksOf us)))) := by
  rw [normalizeLines_eq, joinRows_guard (laid_blocksOf h), frameItems, write_append, write_append, write_chars,
    write_chars, guard]

theorem expand_frameItems (spans : List (List Char)) (items : List Item) (hs : expand spans items = spell us) :
    expand spans (frameItems items) = spell (framed us) := by
  rw [frameItems, expand_append, expand_append, expand_chars, expand_chars, hs, spell_framed]

theorem placeholder_infix_frameItems {items : List Item} (h : placeholder k <:+: write items) :
    placeholder k <:+: write (frameItems items) := by
  rw [frameItems, write_append, write_append]
  exact (h.trans (List.suffix_append _ _).isInfix).trans (List.prefix_append _ _).isInfix

/-- **The protected pass** frames the realigned signs. -/
theorem withCommandsProtected_spell (h : Readable us) (stage : String) :
    withCommandsProtected stage (spell us) (fun p => .ok (normalizeLines p)) =
      .ok (spell (framed (signsOf (realign (blocksOf us))))) := by
  obtain ⟨-, hreadable, hspans⟩ := blocksOf_realign h
  have hprotect : Placeholders.empty.protect (spell us) = (⟨spansOf (blocksOf us)⟩, guard 0 (blocksOf us)) := by
    rw [protect_empty, ← protectFrom_snd, protectFrom_spell h]
    rfl
  have hexpand : expand (spansOf (blocksOf us)) (frameItems (number 0 (realign (blocksOf us)))) =
      spell (framed (signsOf (realign (blocksOf us)))) := by
    have hnumber : expand ([] ++ spansOf (realign (blocksOf us))) (number 0 (realign (blocksOf us))) = _ :=
      expand_number (realign (blocksOf us)) [] rfl
    rw [List.nil_append, hspans] at hnumber
    exact expand_frameItems _ _ hnumber
  have hunmarked : hasMark (spell (framed (signsOf (realign (blocksOf us))))) = false :=
    (readable_framed hreadable).hasMark_eq_false
  have hmissing : (Placeholders.mk (spansOf (blocksOf us))).firstMissing?
      (write (frameItems (number 0 (realign (blocksOf us))))) = none := by
    refine firstMissing?_eq_none_iff.2 fun k hk => placeholder_infix_frameItems ?_
    refine placeholder_infix_guard (Nat.zero_le k) ?_
    rw [hspans, Nat.zero_add]
    exact hk
  have hrestore : (Placeholders.mk (spansOf (blocksOf us))).restore
      (write (frameItems (number 0 (realign (blocksOf us))))) =
        spell (framed (signsOf (realign (blocksOf us)))) := by
    rw [restore_write, hexpand]
    rw [hexpand]
    exact fun k _ => noToken_of_hasMark_eq_false hunmarked k
  rw [withCommandsProtected, hprotect]
  simp only [normalizeLines_guard h, hmissing, hrestore, hunmarked, bind, Except.bind]
  rfl

/-- **One run**: the realigned signs of the bare expression in the frame, with the fixes. -/
theorem normalizeBody_eq (h : Readable us) (hs : spell us = stripDisplay raw) :
    normalizeBody raw = .ok (cosmetic (spell (framed (signsOf (realign (blocksOf us)))))) := by
  rw [normalizeBody, ← hs, withCommandsProtected_spell h]
  rfl

theorem normalized_normalize {config : Config} {body : List Char} (hconfig : config.sanitize = false)
    (hbody : normalizeBody raw = .ok body) : (normalize config raw).normalized = wrapDisplay body := by
  rw [normalize, hconfig]
  simp only [Bool.false_eq_true, ↓reduceIte, hbody]

/-! ## The second run -/

/-- The fixes work inside the frame, on blocks that stay aligned. -/
theorem Readable.exists_fixed (h : Readable us) (haligned : Aligned (blocksOf us)) :
    ∃ vs, Readable vs ∧ Aligned (blocksOf vs) ∧ cosmetic (spell (framed us)) = spell (framed vs) := by
  obtain ⟨_, _, _, hthin, hplain, hspaced, -, -, -, hall⟩ := (readable_framed h).exists_cosmetic
  obtain ⟨thin, rfl, h₁⟩ := hthin.exists_framed
  obtain ⟨plain, rfl, h₂⟩ := hplain.exists_framed
  obtain ⟨spaced, rfl, h₃⟩ := hspaced.exists_framed
  exact ⟨spaced, h₃.readable (h₂.readable (h₁.readable h)), h₃.aligned (h₂.aligned (h₁.aligned haligned)), hall⟩

/-- A text that normalizing has written is written again. -/
theorem normalizeBody_wrapDisplay (h : Readable us) (haligned : Aligned (blocksOf us)) :
    normalizeBody (wrapDisplay (cosmetic (spell (framed us)))) = .ok (cosmetic (spell (framed us))) := by
  obtain ⟨vs, hvs, hstay, hfixed⟩ := h.exists_fixed haligned
  have hstrip : spell vs = stripDisplay (wrapDisplay (spell (framed vs))) :=
    (stripDisplay_wrapDisplay (hvs.trimmed hstay)).symm
  have hsigns : signsOf (realign (blocksOf vs)) = vs := by
    rw [realign_eq_self (laid_blocksOf hvs) hstay, signsOf_blocksOf]
  rw [hfixed, normalizeBody_eq hvs hstrip, hsigns, ← hfixed, (readable_framed h).cosmetic_cosmetic]

/-- **Normalizing the normal form again** changes nothing: for every raw text without placeholder
characters, colors and comments in which environments open and close at commands with a plain name. -/
theorem normalize_idempotent (config : Config) (raw : List Char) (hconfig : config.sanitize = false)
    (h : Orderly raw) :
    (normalize config (normalize config raw).normalized).normalized = (normalize config raw).normalized := by
  obtain ⟨signs, hsigns, rfl⟩ := h.exists_readable
  obtain ⟨us, hus, hs⟩ := hsigns.exists_stripDisplay
  obtain ⟨hblocks, hrealigned, -⟩ := blocksOf_realign hus
  have haligned : Aligned (blocksOf (signsOf (realign (blocksOf us)))) := by
    rw [hblocks]
    exact aligned_realign _
  rw [normalized_normalize hconfig (normalizeBody_eq hus hs)]
  exact normalized_normalize hconfig (normalizeBody_wrapDisplay hrealigned haligned)

/-- With a row break, a group and an environment that are not closed, and an anchor in it. -/
theorem normalize_idempotent_unclosed :
    Orderly "x=1\\\\ \x7b\\begin\x7bcases\x7d2\\text\x7ba\x7d&\\\\ y".toList ∧
    (normalize { sanitize := false }
      (normalize { sanitize := false }
        "x=1\\\\ \x7b\\begin\x7bcases\x7d2\\text\x7ba\x7d&\\\\ y".toList).normalized).normalized =
      (normalize { sanitize := false }
        "x=1\\\\ \x7b\\begin\x7bcases\x7d2\\text\x7ba\x7d&\\\\ y".toList).normalized := by
  have horderly : Orderly "x=1\\\\ \x7b\\begin\x7bcases\x7d2\\text\x7ba\x7d&\\\\ y".toList :=
    .of_drop (by decide +kernel) (by decide +kernel) (by decide +kernel) (by decide +kernel)
  exact ⟨horderly, normalize_idempotent _ _ rfl horderly⟩

end MathMarkup.Tex
