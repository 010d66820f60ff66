import MathMarkup.Proofs.Conversion.Supplied
import MathMarkup.Proofs.Delimiter.Braces
import MathMarkup.Tex.Check

/-!
# What the check of arguments finds

The check counts arguments behind a command, a command among them as one, and knows nothing of what surrounds the
expression. Where the arguments that it counts are inert (`isInert`) and none of them stands behind the expression,
it finds as many as are taken (`supplies_of_count`).

Main theorem `count_of_findings`: without a finding every command of the text has its arguments.
-/

namespace MathMarkup.Tex

open Text Sign

variable {us vs x y z t : List Sign} {u : Sign} {s name arg rest : List Char} {n : Nat}

/-! ## Counting -/

/-- The arguments at the start of a text, up to `limit`. -/
def takenArguments : Nat → List Char → List (List Char)
  | 0, _ => []
  | limit + 1, s =>
    match splitArgument? s with
    | some (_, arg, rest) => arg :: takenArguments limit rest
    | none => []

/-- Is the argument still one by itself? A command that takes arguments is none, nor is one that opens or closes an
environment, a backslash in front of a blank, and the bracket that ends a display. -/
def isInert : List Char → Bool
  | '\\' :: name =>
    (argumentCount? (String.ofList name)).isNone && (build? (String.ofList name)).isNone &&
      !(["begin".toList, "end".toList, "]".toList].contains name) && !name.head?.any Text.isBlank
  | _ => true

/-- The text behind a command in which its arguments are counted. -/
def countedText (name s : List Char) : List Char := if name == "sqrt".toList then skipOptional s else s

theorem splitArgument?_of_not_blank (hs : ∀ c ∈ s.head?, Text.isBlank c = false) :
    splitArgument? s = (splitArgumentHere? s).map fun (arg, rest) => ([], arg, rest) := by
  have htake : s.takeWhile Text.isBlank = [] := by
    cases s with
    | nil => rfl
    | cons c s => exact List.takeWhile_cons_of_neg (by simp [hs c rfl])
  rw [splitArgument?, trimStart_eq_self hs, htake]

theorem splitArgument?_blank {c : Char} (hc : Text.isBlank c = true) (s : List Char) : splitArgument? (c :: s) =
    (splitArgument? s).map fun (blanks, arg, rest) => (c :: blanks, arg, rest) := by
  have htrim : trimStart (c :: s) = trimStart s := List.dropWhile_cons_of_pos hc
  rw [splitArgument?, splitArgument?, htrim, List.takeWhile_cons_of_pos hc]
  cases splitArgumentHere? (trimStart s) <;> rfl

theorem isBlank_head?_spell (hread : Legible (u :: us)) (hblank : u.isBlank = false) :
    ∀ c ∈ (spell (u :: us)).head?, Text.isBlank c = false := by
  rw [head?_spell_cons]
  intro c hc
  by_cases hchar : ∃ d, u = char d
  · obtain ⟨d, rfl⟩ := hchar
    obtain rfl : d = c := Option.some.inj hc
    exact hblank
  · have hslash := (head?_text_eq_slash hread.2.1).2 fun d hd => hchar ⟨d, hd⟩
    rw [hslash] at hc
    obtain rfl : '\\' = c := Option.some.inj hc
    rfl

/-- What the text has in place of an argument is not inert. -/
theorem splitArgumentHere?_stop (hread : Legible (u :: us)) (hblank : u.isBlank = false) (hopen : u ≠ .char '{')
    (hargument : u.isArgument = false) (h : splitArgumentHere? (spell (u :: us)) = some (arg, rest)) :
    isInert arg = false := by
  obtain ⟨-, hfits, -⟩ := hread
  cases u with
  | char c =>
    have hblank : Text.isBlank c = false := hblank
    have hc : c ∈ ['{', '}', '&', '^', '_', '%', '$', '\\'] := by
      rw [isArgument, hblank, Bool.not_false, Bool.true_and, Bool.not_eq_false'] at hargument
      exact List.contains_iff_mem.1 hargument
    simp only [List.mem_cons, List.not_mem_nil, or_false] at hc
    rcases hc with rfl | rfl | rfl | rfl | rfl | rfl | rfl | rfl
    · exact absurd rfl hopen
    · cases h
    · cases h
    · cases h
    · cases h
    · cases h
    · cases h
    · exact absurd rfl hfits.1
  | escaped c =>
    obtain rfl : c = '\\' := by simpa [isArgument] using hargument
    cases h
  | slash =>
    rw [spell_cons] at h
    cases hus : spell us with
    | nil =>
      rw [hus] at h
      cases h
    | cons d t =>
      -- the blank behind the backslash is taken along
      have hd := hfits d (by rw [hus]; rfl)
      have hplain := isPlain_of_isBlank hd
      have htext : text slash ++ d :: t = '\\' :: d :: t := rfl
      rw [hus, htext, splitArgumentHere?, if_neg (by simp [isCommandLetter_eq_false_of_isBlank hd])] at h
      · cases h
        simp [isInert, hd]
      · exact hplain.1
  | word name =>
    have htext : spell (word name :: us) = '\\' :: (name ++ spell us) := rfl
    rw [htext, splitArgumentHere?_word ⟨hfits.1, hfits.2.1, hfits.2.2.1⟩] at h
    cases h
    simp only [isArgument] at hargument
    simp [isInert, hargument]
  | env opening name =>
    have htext : spell (env opening name :: us) = '\\' :: (envWord opening ++ '{' :: (name ++ '}' :: spell us)) := by
      rw [spell_cons, text_env_append, List.cons_append]
    rw [htext, splitArgumentHere?_word (isWordBefore_envWord opening _)] at h
    cases h
    cases opening <;> rfl

theorem splitArgument?_stop (hread : Legible (u :: us)) (hblank : u.isBlank = false) (hopen : u ≠ .char '{')
    (hargument : u.isArgument = false) :
    ∀ r, splitArgument? (spell (u :: us)) = some r → isInert r.2.1 = false := by
  intro r hr
  rw [splitArgument?_of_not_blank (isBlank_head?_spell hread hblank)] at hr
  obtain ⟨⟨arg, rest⟩, h, rfl⟩ := Option.map_eq_some_iff.1 hr
  exact splitArgumentHere?_stop hread hblank hopen hargument h

/-- **An inert argument** that the text has behind nested signs is taken from them. -/
theorem Nested.takes?_of_splitArgument? (hx : Nested x) (hread : Legible (x ++ t))
    (ht : ∀ r, splitArgument? (spell t) = some r → isInert r.2.1 = false) {blanks : List Char}
    (h : splitArgument? (spell (x ++ t)) = some (blanks, arg, rest)) (hinert : isInert arg = true) :
    ∃ a r, takes? x = some (a, r) ∧ rest = spell (r ++ t) := by
  induction hx using Nested.takes_induction generalizing blanks with
  | nil =>
    rw [ht _ h] at hinert
    cases hinert
  | blank u x _ _ hu ih =>
    cases u with
    | char c =>
      rw [List.cons_append, spell_cons, text, List.singleton_append, splitArgument?_blank hu] at h
      obtain ⟨⟨blanks', arg', rest'⟩, h, heq⟩ := Option.map_eq_some_iff.1 h
      cases heq
      rw [takes?_blank hu]
      exact ih hread.2.2 h
    | escaped | slash | word | env => cases hu
  | group a x _ ha _ =>
    rw [List.cons_append, List.append_assoc, List.cons_append] at hread h
    have hgroup := splitGroup?_spell hread
    rw [ha.group?_eq, Option.map_some, spellPair] at hgroup
    have htext : spell (char '{' :: (a ++ char '}' :: (x ++ t))) = '{' :: spell (a ++ char '}' :: (x ++ t)) := rfl
    rw [splitArgument?_of_not_blank (isBlank_head?_spell hread rfl), htext, splitArgumentHere?, ← htext, hgroup] at h
    cases h
    exact ⟨a, x, takes?_group ha x, rfl⟩
  | single u x _ hu _ =>
    rw [List.cons_append] at hread h
    rw [splitArgument?_of_not_blank (isBlank_head?_spell hread (isBlank_of_isArgument hu)), spell_cons,
      splitArgumentHere?_text hread hu] at h
    cases h
    exact ⟨[u], x, takes?_single hu x, rfl⟩
  | stop u x _ hblank hopen hargument =>
    rw [splitArgument?_stop hread hblank hopen hargument _ h] at hinert
    cases hinert

theorem supplies_of_count (hx : Nested x) (hread : Legible (x ++ t))
    (ht : ∀ r, splitArgument? (spell t) = some r → isInert r.2.1 = false)
    (hcount : n ≤ countArguments n (spell (x ++ t)))
    (hinert : ∀ arg ∈ takenArguments n (spell (x ++ t)), isInert arg = true) : Supplies n x := by
  induction n generalizing x with
  | zero => trivial
  | succ n ih =>
    rw [countArguments] at hcount
    rw [takenArguments] at hinert
    cases h : splitArgument? (spell (x ++ t)) with
    | none =>
      rw [h] at hcount
      cases hcount
    | some r =>
      obtain ⟨blanks, arg, rest⟩ := r
      rw [h] at hcount hinert
      obtain ⟨harg, hrest⟩ := List.forall_mem_cons.1 hinert
      obtain ⟨a, r, htakes, rfl⟩ := hx.takes?_of_splitArgument? hread ht h harg
      obtain ⟨-, hr, front, rfl, -⟩ := hx.of_takes? htakes
      rw [List.append_assoc] at hread
      exact ⟨a, r, htakes, ih hr hread.of_append_right (Nat.le_of_succ_le_succ hcount) hrest⟩

/-- **As many arguments as are counted** stand behind a place among nested signs, when what follows the signs starts
with no inert argument. -/
theorem Supplies.of_count (hy : Nested (x ++ y)) (hread : Legible (y ++ z))
    (hz : ∀ r, splitArgument? (spell z) = some r → isInert r.2.1 = false)
    (hcount : n ≤ countArguments n (spell (y ++ z)))
    (hinert : ∀ arg ∈ takenArguments n (spell (y ++ z)), isInert arg = true) : Supplies n y := by
  obtain ⟨inner, t, rfl, hinner, ht⟩ := hy.exists_front
  rw [List.append_assoc] at hread hcount hinert
  refine (supplies_of_count hinner hread ?_ hcount hinert).append hinner t
  cases t with
  | nil => exact hz
  | cons v t =>
    have hstop := hread.of_append_right
    rcases cases_of_isCloser (ht v rfl) with rfl | ⟨name, rfl⟩
    · exact splitArgument?_stop hstop rfl (by decide) rfl
    · exact splitArgument?_stop hstop rfl (by simp) rfl

/-! ## Findings -/

/-- Without a bracket nothing is left out. -/
theorem skipOptional_eq_self (h : bracketed? s = none) : skipOptional s = s := by
  rw [bracketed?_eq_none_iff] at h
  unfold skipOptional
  split
  · rename_i inner hinner
    exact absurd (congrArg List.head? hinner) h
  · rfl

theorem skipOptional_eq (h : bracketed? s = some (some (arg, rest))) : skipOptional s = rest := by
  rw [bracketed?] at h
  split at h
  · rename_i inner hinner
    rw [skipOptional, hinner]
    simp only [Option.some.inj h, Option.map_some, Option.getD_some]
  · cases h

theorem argumentFindingsOf_append (s : List Char) (ts ts' : List Token) : argumentFindingsOf s (ts ++ ts') =
    argumentFindingsOf s ts ++ argumentFindingsOf (s.drop (ts.flatMap Token.text).length) ts' := by
  induction ts generalizing s with
  | nil => rfl
  | cons t ts ih =>
    rw [List.cons_append, argumentFindingsOf, argumentFindingsOf, ih, List.append_assoc, List.drop_drop,
      List.flatMap_cons, List.length_append]

/-- **Without a finding** every command of the text has its arguments. -/
theorem count_of_findings (hread : Legible (us ++ .word name :: vs))
    (h : argumentFindings (spell (us ++ .word name :: vs)) = []) (hn : argumentCount? (String.ofList name) = some n) :
    n ≤ countArguments n (countedText name (spell vs)) := by
  have hafter : Mode.plain.after (spell us) = .plain := after_spell hread rfl (Or.inl rfl)
  have hfits := hread.of_append_right.2.1
  have hmunch := munch_word hfits.1 hfits.2.1 hfits.2.2.1
  have htext : spell (us ++ word name :: vs) = spell us ++ '\\' :: (name ++ spell vs) := by simp [text]
  rw [argumentFindings, tokens, htext, tokensFrom_append_slash hafter, argumentFindingsOf_append,
    Token.concat_tokensFrom, List.drop_left, tokensFrom_cons hmunch, List.append_eq_nil_iff, argumentFindingsOf,
    List.append_eq_nil_iff] at h
  have hmissing := h.2.1
  rw [Option.toList_eq_nil_iff, List.take_left, missingArguments?] at hmissing
  have hrest : ('\\' :: (name ++ spell vs)).drop ('\\' :: name).length = spell vs := by simp
  simp only [bne_self_eq_false, Bool.false_eq_true, if_false, List.tail_cons, hn, Option.bind_some, hrest,
    ite_eq_right_iff, reduceCtorEq, imp_false, Nat.not_lt] at hmissing
  exact hmissing

end MathMarkup.Tex
