import MathMarkup.Proofs.Conversion.Agreement
import MathMarkup.Proofs.Conversion.Conserved
import MathMarkup.Proofs.Phrase.Rules

/-!
# Phrases as MathML

A phrase turns into groups between blanks, and the transliteration reads groups as they are: a percent sign hides
the rest of its line from it, but in an argument that is taken out of its braces there is no other line. So it
finds the end of every group and no brace without a partner (`readsWhole_readPieces`). There is no environment in
what a phrase turns into, so there are no tables and no second row either, and every text that is converted in
turn is shorter than the one before, even with forged tokens in it (`isSome_convert_of_isWhole`).

Main theorem: `toLatex_groups`.
-/

namespace MathMarkup.Phrase

open Text Tex

variable {s t a b r w name rest arg body : List Char} {c : Char} {d k n covered : Nat}

/-! ## Texts that are read -/

/-- A command and what stands behind it: no environment starts there, and no index in brackets. -/
structure IsCommand (name rest : List Char) : Prop where
  word : IsWordBefore name rest
  notBegin : name ≠ "begin".toList
  notEnd : name ≠ "end".toList
  bare : name = "sqrt".toList → bracketed? rest = none

/-- A command that a rule wrote, or the name of one without anything behind it. -/
def StartsCommand (s : List Char) : Prop :=
  StartsWith commandWords s ∨
    ∃ name, s = '\\' :: name ∧ IsWordBefore name [] ∧ name ≠ "begin".toList ∧ name ≠ "end".toList

/-- A text that the transliteration reads: whole groups between blanks. -/
abbrev IsWhole (s : List Char) : Prop := Grouped StartsCommand 0 s 0

theorem StartsWith.exists_command (h : StartsWith commandWords ('\\' :: s)) :
    ∃ name rest, s = name ++ rest ∧ IsCommand name rest := by
  have hshape : ∀ w ∈ commandWords, w.head? = some '\\' ∧ w.tail.takeWhile isCommandLetter ≠ [] ∧
      ¬ w.tail.takeWhile isCommandLetter <+: "begin".toList ∧ ¬ w.tail.takeWhile isCommandLetter <+: "end".toList ∧
      (w = "\\sqrt\x7b".toList ∨ ¬ w.tail.takeWhile isCommandLetter <+: "sqrt".toList) := by
    decide
  obtain ⟨w, hw, t, ht⟩ := h
  obtain ⟨hslash, hne, hbegin, hend, hsqrt⟩ := hshape w hw
  obtain ⟨v, rfl⟩ := List.head?_eq_some_iff.1 hslash
  obtain rfl : v ++ t = s := (List.cons.inj ht).2
  rw [List.tail_cons] at hne hbegin hend hsqrt
  have hletters : ∀ c ∈ v.takeWhile isCommandLetter, isCommandLetter c = true := fun c hc =>
    List.mem_takeWhile_imp hc
  have hprefix : v.takeWhile isCommandLetter <+: (v ++ t).takeWhile isCommandLetter := by
    conv => rhs; rw [← List.takeWhile_append_dropWhile (p := isCommandLetter) (l := v), List.append_assoc]
    rw [List.takeWhile_append_of_pos hletters]
    exact List.prefix_append _ _
  refine ⟨(v ++ t).takeWhile isCommandLetter, (v ++ t).dropWhile isCommandLetter,
    List.takeWhile_append_dropWhile.symm, ⟨?_, ?_, ?_⟩, ?_, ?_, ?_⟩
  · intro hnil
    rw [hnil] at hprefix
    exact hne (List.prefix_nil.1 hprefix)
  · exact fun c hc => List.mem_takeWhile_imp hc
  · exact fun c hc => eq_false_of_mem_head?_dropWhile hc
  · exact fun heq => hbegin (heq ▸ hprefix)
  · exact fun heq => hend (heq ▸ hprefix)
  · intro heq
    rcases hsqrt with hword | hsqrt
    · obtain rfl := (List.cons.inj hword).2
      rfl
    · exact absurd (heq ▸ hprefix) hsqrt

/-- Where a rule wrote a command, no bracket is escaped and no environment begins. -/
theorem StartsWith.name_ne (h : StartsWith commandWords ('\\' :: s)) :
    s.takeWhile isCommandLetter ≠ [] ∧ s.takeWhile isCommandLetter ≠ "begin".toList := by
  obtain ⟨name, rest, rfl, hname⟩ := h.exists_command
  rw [(takeWhile_append_of_head hname.word.letters hname.word.behind).1]
  exact ⟨hname.word.ne_nil, hname.notBegin⟩

theorem StartsCommand.exists_command (h : StartsCommand ('\\' :: s)) :
    ∃ name rest, s = name ++ rest ∧ IsCommand name rest := by
  rcases h with h | ⟨name, heq, hword, hbegin, hend⟩
  · exact h.exists_command
  · obtain rfl := (List.cons.inj heq).2
    exact ⟨s, [], by simp, hword, hbegin, hend, fun _ => rfl⟩

theorem StartsWith.exists_slash (h : StartsWith commandWords s) : ∃ t, s = '\\' :: t := by
  have hshape : ∀ w ∈ commandWords, w.head? = some '\\' := by decide
  obtain ⟨w, hw, t, rfl⟩ := h
  obtain ⟨v, rfl⟩ := List.head?_eq_some_iff.1 (hshape w hw)
  exact ⟨v ++ t, rfl⟩

theorem StartsCommand.startsWord (h : StartsCommand s) : StartsWord s := by
  obtain ⟨t, rfl⟩ : ∃ t, s = '\\' :: t := by
    rcases h with h | ⟨name, rfl, -⟩
    · exact h.exists_slash
    · exact ⟨name, rfl⟩
  obtain ⟨name, rest, rfl, hname⟩ := h.exists_command
  obtain ⟨c, name, rfl⟩ := List.exists_cons_of_ne_nil hname.word.ne_nil
  exact ⟨c, name ++ rest, rfl, hname.word.letters c List.mem_cons_self⟩

/-- A command is told from what stands in front of a character that is in none. -/
theorem StartsCommand.of_append (hc : ∀ w ∈ commandWords, c ∉ w) (hslash : c ≠ '\\')
    (hletter : isCommandLetter c = false) (h : StartsCommand (a ++ c :: b)) : StartsCommand a := by
  rcases h with h | ⟨name, heq, hword, -⟩
  · exact Or.inl (h.of_append (by simpa using hc))
  · have hmem : c ∈ '\\' :: name := heq ▸ List.mem_append_right a List.mem_cons_self
    rcases List.mem_cons.1 hmem with rfl | hmem
    · exact absurd rfl hslash
    · exact absurd (hword.letters c hmem) (by simp [hletter])

/-! ## Arguments -/

theorem IsWhole.trimStart (h : IsWhole s) : IsWhole (trimStart s) := by
  have hs : s.takeWhile isBlank ++ Text.trimStart s = s := List.takeWhile_append_dropWhile
  rw [← hs] at h
  refine h.of_append_plain fun c hc => isPlain_of_isBlank ?_
  exact List.mem_takeWhile_imp hc

/-- **A group** at the start of the text ends, and it is whole itself. -/
theorem IsWhole.exists_group (h : IsWhole ('{' :: s)) :
    ∃ a b, s = a ++ '}' :: b ∧ IsWhole a ∧ IsWhole b ∧ splitGroup? ('{' :: s) = some ('{' :: (a ++ ['}']), b) := by
  obtain ⟨a, b, rfl, ha, hb⟩ := h.of_open.exists_closing fun a b =>
    StartsCommand.of_append (by decide) (by decide) rfl
  have hbalanced := isBalanced_iff.2 (ha.closes fun s => StartsCommand.startsWord)
  exact ⟨a, b, rfl, ha, hb, hbalanced.splitGroup?_eq b⟩

theorem unbrace_group (a : List Char) : unbrace ('{' :: (a ++ ['}'])) = a := by simp [unbrace]

/-- A command alone is whole. -/
theorem IsCommand.isWhole (h : IsCommand name rest) : IsWhole ('\\' :: name) := by
  have hname := (Grouped.nil (P := StartsCommand) 0).append_letters h.word.letters
  rw [List.append_nil] at hname
  have hword : IsWordBefore name [] := ⟨h.word.ne_nil, h.word.letters, by simp⟩
  exact .slash (Or.inr ⟨name, rfl, hword, h.notBegin, h.notEnd⟩) hname

theorem IsCommand.of_isWhole (h : IsWhole ('\\' :: s)) :
    ∃ name rest, s = name ++ rest ∧ IsCommand name rest ∧ IsWhole rest := by
  obtain ⟨hcommand, hs⟩ := h.of_slash
  obtain ⟨name, rest, rfl, hname⟩ := hcommand.exists_command
  exact ⟨name, rest, rfl, hname, hs.of_append_plain fun c hc => isPlain_of_isCommandLetter (hname.word.letters c hc)⟩

/-- **An argument** is whole, and so is the text behind it. -/
theorem IsWhole.argument? (h : IsWhole s) (ha : argument? s = some (a, r)) : IsWhole a ∧ IsWhole r := by
  simp only [Tex.argument?, splitArgument?, Option.map_map, Option.map_eq_some_iff, Function.comp_apply, Prod.exists,
    Prod.mk.injEq] at ha
  obtain ⟨arg, r', harg, rfl, rfl⟩ := ha
  have htrim := h.trimStart
  cases hs : Text.trimStart s with
  | nil =>
    rw [hs] at harg
    cases harg
  | cons c t =>
    rw [hs] at harg htrim
    by_cases hopen : c = '{'
    · subst hopen
      obtain ⟨x, y, rfl, hx, hy, hgroup⟩ := htrim.exists_group
      rw [splitArgumentHere?, hgroup] at harg
      obtain ⟨rfl, rfl⟩ := Prod.mk.inj (Option.some.inj harg)
      rw [unbrace_group]
      exact ⟨hx, hy⟩
    by_cases hslash : c = '\\'
    · subst hslash
      obtain ⟨name, rest, rfl, hname, hrest⟩ := IsCommand.of_isWhole htrim
      rw [splitArgumentHere?_word hname.word] at harg
      obtain ⟨rfl, rfl⟩ := Prod.mk.inj (Option.some.inj harg)
      exact ⟨hname.isWhole, hrest⟩
    · have hclose : c ≠ '}' := by
        rintro rfl
        cases harg
      have hplain : IsPlain c := ⟨hslash, hopen, hclose⟩
      obtain ⟨rfl, rfl⟩ := splitArgumentHere?_cons hopen hslash harg
      have hunbrace : unbrace [c] = [c] := by
        unfold unbrace
        split
        · rename_i heq
          exact absurd (List.cons.inj heq).1 hopen
        · rfl
      rw [hunbrace]
      exact ⟨grouped_of_plain (by simpa using hplain), htrim.of_plain hplain⟩

/-! ## Readers -/

/-- The remark tells of a brace without a partner. -/
def IsAboutBrace (remark : Remark) : Prop := remark = .unclosedGroup ∨ remark = .unmatchedBrace

/-- A reader remarks on no brace, and leaves whole texts: slices of what it reads. -/
structure ReadsWhole (s : List Char) (r : List Piece × List Char) : Prop where
  slices : ReadsFrom s r
  remarks : ∀ remark, Piece.remark remark ∈ r.1 → ¬ IsAboutBrace remark
  texts : ∀ t ∈ textsOf r.1, IsWhole t
  rest : IsWhole r.2

theorem ReadsWhole.of_slices {r : List Piece × List Char} (h : ReadsFrom s r) (htexts : textsOf r.1 = [])
    (hremarks : ∀ remark, Piece.remark remark ∈ r.1 → ¬ IsAboutBrace remark) (hrest : IsWhole r.2) : ReadsWhole s r :=
  ⟨h, hremarks, by simp [htexts], hrest⟩

theorem readsWhole_construct? {build : Build} {piece : Piece}
    (hbare : ∀ f g, build = .indexed f g → bracketed? s = none) (hs : IsWhole s)
    (h : construct? build s = some (piece, rest)) : ReadsWhole s ([piece], rest) := by
  have hslices := readsFrom_construct? h
  have hcases := cases_of_construct? h
  cases build with
  | unary f =>
    obtain ⟨a, ha, rfl⟩ := hcases
    obtain ⟨ha, hrest⟩ := hs.argument? ha
    exact ⟨hslices, by simp, by simpa [Piece.texts] using ha, hrest⟩
  | plain f =>
    obtain ⟨a, ha, rfl⟩ := hcases
    obtain ⟨-, hrest⟩ := hs.argument? ha
    exact ⟨hslices, by simp, by simp [Piece.texts], hrest⟩
  | binary f =>
    obtain ⟨a, r, b, ha, hb, rfl⟩ := hcases
    obtain ⟨ha, hr⟩ := hs.argument? ha
    obtain ⟨hb, hrest⟩ := hr.argument? hb
    exact ⟨hslices, by simp, by simpa [Piece.texts] using ⟨ha, hb⟩, hrest⟩
  | styled f =>
    obtain ⟨a, r, b, ha, hb, rfl⟩ := hcases
    obtain ⟨-, hr⟩ := hs.argument? ha
    obtain ⟨hb, hrest⟩ := hr.argument? hb
    exact ⟨hslices, by simp, by simpa [Piece.texts] using hb, hrest⟩
  | indexed f g =>
    rcases hcases with ⟨a, ha, rfl⟩ | ⟨index, r, a, hindex, -, -⟩
    · obtain ⟨ha, hrest⟩ := hs.argument? ha
      exact ⟨hslices, by simp, by simpa [Piece.texts] using ha, hrest⟩
    · rw [hbare f g rfl] at hindex
      cases hindex

theorem IsWhole.dropNullDelimiter (h : IsWhole s) : IsWhole (dropNullDelimiter s) := by
  rw [Tex.dropNullDelimiter]
  split
  · rename_i rest hrest
    have htrim := h.trimStart
    rw [hrest] at htrim
    exact htrim.of_plain (by decide)
  · exact h

theorem readsWhole_readWord (hname : IsCommand name s) (hs : IsWhole s) : ReadsWhole s (readWord name s) := by
  have hne : ∀ text : String, name ≠ text.toList → String.ofList name ≠ text := by
    rintro text hne rfl
    exact hne (String.toList_ofList).symm
  rw [readWord]
  simp only [if_neg (hne _ hname.notBegin), if_neg (hne _ hname.notEnd)]
  split
  · exact .of_slices (.of_texts_nil rfl (dropNullDelimiter_isSuffix s)) rfl (by simp) hs.dropNullDelimiter
  split
  · rename_i build hbuild
    split
    · rename_i hconstruct
      refine readsWhole_construct? (fun f g hindexed => hname.bare ?_) hs hconstruct
      rw [hindexed] at hbuild
      exact (congrArg String.toList (eq_sqrt_of_build? hbuild)).symm ▸ String.toList_ofList.symm
    · exact .of_slices (.of_texts_nil rfl List.suffix_rfl) rfl (by simp [IsAboutBrace, verbatimCommand]) hs
  · split
    · exact .of_slices (.of_texts_nil (textsOf_map_plain _) List.suffix_rfl) (textsOf_map_plain _) (by simp) hs
    · exact .of_slices (.of_texts_nil rfl List.suffix_rfl) rfl (by simp [IsAboutBrace, verbatimCommand]) hs

theorem readsWhole_readScript (marker : Char) (hs : IsWhole s) : ReadsWhole s (readScript marker s) := by
  have hslices := readsFrom_readScript marker s
  rw [readScript] at hslices ⊢
  cases harg : argument? s with
  | none =>
    simp only [harg] at hslices ⊢
    exact ⟨hslices, by simp [IsAboutBrace], by simpa [Piece.texts] using Grouped.nil 0, hs⟩
  | some r =>
    obtain ⟨operand, rest⟩ := r
    simp only [harg] at hslices ⊢
    obtain ⟨hoperand, hrest⟩ := hs.argument? harg
    exact ⟨hslices, by simp, by simpa [Piece.texts] using hoperand, hrest⟩

theorem readsWhole_readGroup (h : IsWhole ('{' :: s)) : ReadsWhole s (readGroup s) := by
  have hslices := readsFrom_readGroup s
  obtain ⟨a, b, hs, ha, hb, hgroup⟩ := h.exists_group
  rw [readGroup] at hslices ⊢
  simp only [hgroup] at hslices ⊢
  refine ⟨hslices, by simp, ?_, hb⟩
  simpa [Piece.texts, groupBody] using ha

theorem readsWhole_readPlain (c : Char) (hs : IsWhole s) : ReadsWhole s (readPlain c s) := by
  have hslices := readsFrom_readPlain c s
  rw [readPlain] at hslices ⊢
  split
  · rename_i hdigit
    simp only [hdigit, ↓reduceIte] at hslices
    obtain ⟨hsplit, hdigits⟩ := append_splitNumber s
    refine .of_slices hslices rfl (by simp) ?_
    rw [← hsplit] at hs
    refine hs.of_append_plain fun d hd => ?_
    rcases hdigits d hd with hdigit | rfl
    · refine ⟨?_, ?_, ?_⟩ <;>
        · rintro rfl
          cases hdigit
    · decide
  · split
    · exact .of_slices (.of_texts_nil rfl List.suffix_rfl) rfl (by simp) hs
    · split
      · exact .of_slices (.of_texts_nil rfl List.suffix_rfl) rfl (by simp) hs
      · split <;> exact .of_slices (.of_texts_nil rfl List.suffix_rfl) rfl (by simp) hs

/-- Behind a comment the next line is whole, for a line feed is a blank. -/
theorem IsWhole.dropLine (h : IsWhole s) : IsWhole (s.dropWhile (· != '\n')) := by
  have hs : s.takeWhile (· != '\n') ++ s.dropWhile (· != '\n') = s := List.takeWhile_append_dropWhile
  cases hrest : s.dropWhile (· != '\n') with
  | nil => exact .nil 0
  | cons c t =>
    have hhead : c ∈ (s.dropWhile (· != '\n')).head? := by rw [hrest]; rfl
    obtain rfl : c = '\n' := by simpa using eq_false_of_mem_head?_dropWhile hhead
    rw [hrest] at hs
    rw [← hs] at h
    refine (h.cut_blank (fun a => ?_) (by simp; rfl)).2
    exact StartsCommand.of_append (notMem_commandWords_of_isBlank rfl) (by decide) rfl

/-- **Reading whole text** meets no brace without a partner. -/
theorem readsWhole_readPieces (h : IsWhole (c :: s)) : ReadsWhole s (readPieces c s) := by
  rw [readPieces]
  split
  · rename_i hslash
    subst hslash
    obtain ⟨name, rest, rfl, hname, hrest⟩ := IsCommand.of_isWhole h
    rw [readCommand_word hname.word]
    have hread := readsWhole_readWord hname hrest
    exact ⟨hread.slices.of_suffix (List.suffix_append name rest), hread.remarks, hread.texts, hread.rest⟩
  split
  · rename_i hscript
    refine readsWhole_readScript c (h.of_plain ?_)
    have hc : c = '^' ∨ c = '_' := by simpa using hscript
    rcases hc with rfl | rfl <;> decide
  split
  · rename_i hopen
    subst hopen
    exact readsWhole_readGroup h
  split
  · rename_i hclose
    subst hclose
    obtain ⟨k, hk, -⟩ := h.of_close
    cases hk
  rename_i hslash _ hopen hclose
  have hs : IsWhole s := h.of_plain ⟨hslash, hopen, hclose⟩
  split
  · exact .of_slices (.of_texts_nil rfl List.suffix_rfl) rfl (by simp) hs
  split
  · exact .of_slices (.of_texts_nil rfl (List.dropWhile_suffix _)) rfl (by simp) hs.dropLine
  split
  · exact .of_slices (.of_texts_nil rfl List.suffix_rfl) rfl (by simp) hs
  · exact readsWhole_readPlain c hs

theorem whole_pieces (h : IsWhole s) : (∀ remark, Piece.remark remark ∈ pieces s → ¬ IsAboutBrace remark) ∧
    ∀ t, Calls s t → IsWhole t ∧ t.length < s.length := by
  unfold Calls
  fun_induction pieces s with
  | case1 => simp
  | case2 c s ih =>
    have hread := readsWhole_readPieces h
    obtain ⟨hremarks, htexts⟩ := ih hread.rest
    refine ⟨fun remark hmem => ?_, fun t ht => ?_⟩
    · rcases List.mem_append.1 hmem with hmem | hmem
      · exact hread.remarks remark hmem
      · exact hremarks remark hmem
    · rw [textsOf_append] at ht
      rw [List.length_cons]
      rcases List.mem_append.1 ht with ht | ht
      · have := (hread.slices.slice t ht).length_le
        exact ⟨hread.texts t ht, by omega⟩
      · have := hread.slices.rest.length_le
        have := htexts t ht
        exact ⟨this.1, by omega⟩

/-- **The nesting of whole text** ends. -/
theorem isSome_convert_of_isWhole {fuel : Nat} (h : IsWhole s) (hfuel : s.length < fuel) :
    (convert fuel s).isSome := by
  induction fuel generalizing s with
  | zero => omega
  | succ fuel ih =>
    rw [isSome_convert_succ]
    intro t ht
    obtain ⟨hwhole, hlength⟩ := (whole_pieces h).2 t ht
    exact ih hwhole (by omega)

/-! ## The bare expression -/

/-- A text as the rules write it. -/
abbrev IsWritten (s : List Char) : Prop := Grouped (StartsWith commandWords) 0 s 0

theorem IsWritten.isWhole (h : IsWritten s) : IsWhole s := h.mono fun _ => Or.inl

theorem IsWritten.trim (h : IsWritten s) : IsWritten (trim s) := by
  obtain ⟨a, b, hs, ha, hb⟩ := append_trim s
  rw [hs, List.append_assoc] at h
  refine Grouped.cut_plain (fun x hx => ?_) (fun c hc => isPlain_of_isBlank (hb c hc))
    (h.of_append_plain fun c hc => isPlain_of_isBlank (ha c hc))
  exact hx.of_append fun c hc => notMem_commandWords_of_isBlank (hb c (List.mem_of_mem_head? hc))

theorem IsWritten.stripDelimiters (h : IsWritten s) : IsWritten ((stripDelimiters? s).getD s) := by
  cases hstrip : stripDelimiters? s with
  | none => exact h
  | some t =>
    rw [stripDelimiters?, Option.orElse_eq_orElse, Option.orElse_eq_or, Option.or_eq_some_iff] at hstrip
    rcases hstrip with hstrip | ⟨-, hstrip⟩
    · obtain rfl := between?_eq_some_iff.1 (Option.filter_eq_some_iff.1 hstrip).1
      have hdollar : ∀ w ∈ commandWords, '$' ∉ w := notMem_commandWords (by decide) (by decide) (by decide)
      have hshifts : ∀ c ∈ ['$', '$'], IsPlain c := by simp [IsPlain]
      exact Grouped.cut_plain (fun x hx => hx.of_append (by simpa using hdollar)) hshifts (h.of_append_plain hshifts)
    · obtain rfl := between?_eq_some_iff.1 (Option.filter_eq_some_iff.1 hstrip).1
      exact absurd rfl h.of_slash.1.name_ne.1

theorem IsWritten.stripEnvironment (h : IsWritten s) : IsWritten ((stripEnvironment? s).getD s) := by
  cases hstrip : stripEnvironment? s with
  | none => exact h
  | some t =>
    obtain ⟨environment, -, hbetween⟩ := List.exists_of_findSome?_eq_some hstrip
    obtain rfl := between?_eq_some_iff.1 hbetween
    exact absurd rfl h.of_slash.1.name_ne.2

theorem IsWritten.stripDisplay (h : IsWritten s) : IsWritten (stripDisplay s) :=
  h.trim.stripDelimiters.trim.stripEnvironment.trim

theorem prefix_dropShifts {escaped : Bool} (hw : ∀ c ∈ w, c ≠ '$' ∧ c ≠ '\\') (h : w <+: s) :
    w <+: dropShifts escaped s := by
  induction w generalizing s escaped with
  | nil => exact List.nil_prefix
  | cons c w ih =>
    obtain ⟨t, rfl⟩ := h
    obtain ⟨⟨hshift, hslash⟩, hw⟩ := List.forall_mem_cons.1 hw
    rw [List.cons_append, dropShifts, if_neg fun h => hshift h.1, beq_eq_false_iff_ne.2 hslash, Bool.false_and]
    exact (List.prefix_cons_inj c).2 (ih hw (List.prefix_append w t))

/-- Math shifts stand in no command, so they can be dropped. -/
theorem grouped_dropShifts {e : Nat} {escaped : Bool} (h : Grouped (StartsWith commandWords) d s e) :
    Grouped (StartsWith commandWords) d (dropShifts escaped s) e := by
  induction s generalizing d escaped with
  | nil => exact h
  | cons c s ih =>
    rw [dropShifts]
    split
    · rename_i hshift
      rw [hshift.1] at h
      exact ih (h.of_plain (by decide))
    · obtain ⟨k, hs, hreplace⟩ := h.exists_depth
      refine hreplace _ (fun hslash => ?_) (ih hs)
      subst hslash
      have hshape : ∀ w ∈ commandWords, w.head? = some '\\' ∧ '\\' ∉ w.tail := by decide
      have hdollar : ∀ w ∈ commandWords, '$' ∉ w := notMem_commandWords (by decide) (by decide) (by decide)
      obtain ⟨w, hw, hprefix⟩ := h.of_slash.1
      obtain ⟨hslash, hname⟩ := hshape w hw
      obtain ⟨v, rfl⟩ := List.head?_eq_some_iff.1 hslash
      have hchars : ∀ c ∈ v, c ≠ '$' ∧ c ≠ '\\' := fun c hc =>
        ⟨fun h => hdollar _ hw (List.mem_cons_of_mem _ (h ▸ hc)), fun h => hname (h ▸ hc)⟩
      exact ⟨_, hw, (List.prefix_cons_inj _).2 (prefix_dropShifts hchars ((List.prefix_cons_inj _).1 hprefix))⟩

theorem IsWritten.expressionBody (h : IsWritten s) : IsWhole (expressionBody s) :=
  IsWritten.isWhole (grouped_dropShifts h.stripDisplay)

/-! ## A single row -/

/-- No two backslashes stand side by side. -/
def HasNoBreak (s : List Char) : Prop := s.IsChain fun c d => c = '\\' → d ≠ '\\'

theorem hasNoBreak_of_notMem (h : '\\' ∉ s) : HasNoBreak s := by
  refine (List.pairwise_of_forall_mem_list fun c _ d hd _ hslash => ?_).isChain
  exact h (hslash ▸ hd)

/-- Behind a backslash of a grouped text stands a letter. -/
theorem hasNoBreak_of_grouped {P : List Char → Prop} {e : Nat} (hP : ∀ s, P s → StartsWord s) (h : Grouped P d s e) :
    HasNoBreak s := by
  have hplain : ∀ {c s}, c ≠ '\\' → HasNoBreak s → HasNoBreak (c :: s) := fun hc hs =>
    List.isChain_cons.2 ⟨fun d _ hslash => absurd hslash hc, hs⟩
  induction h with
  | nil => exact .nil
  | opening _ ih => exact hplain (by decide) ih
  | closing _ ih => exact hplain (by decide) ih
  | slash h _ ih =>
    refine List.isChain_cons.2 ⟨fun d hd _ => ?_, ih⟩
    obtain ⟨c, t, hs, hc⟩ := hP _ h
    obtain rfl := (List.cons.inj hs).2
    obtain rfl := Option.some.inj hd
    exact (isPlain_of_isCommandLetter hc).1
  | blank hc _ ih => exact hplain (isPlain_of_isBlank hc).1 ih
  | ink hc _ _ ih => exact hplain hc.1 ih

/-- What a text goes on with does not matter, as long as no backslash comes in. -/
theorem HasNoBreak.append_of_head (h : HasNoBreak (a ++ s)) (ht : HasNoBreak t)
    (hhead : ∀ c ∈ t.head?, c ∈ s.head? ∨ c = openMark) : HasNoBreak (a ++ t) := by
  obtain ⟨ha, -, hseam⟩ := List.isChain_append.1 h
  refine List.isChain_append.2 ⟨ha, ht, fun x hx y hy hslash => ?_⟩
  rcases hhead y hy with hy | rfl
  · exact hseam x hx y hy hslash
  · decide

/-- **Protecting commands** brings no two backslashes together: between the pieces of the text that are left stand
tokens. -/
theorem hasNoBreak_protectFrom (h : HasNoBreak s) : HasNoBreak (Placeholders.protectFrom n covered s).2 ∧
    (covered = 0 → ∀ c ∈ (Placeholders.protectFrom n covered s).2.head?, c ∈ s.head? ∨ c = openMark) := by
  have hsplit : ∀ {c : Char} {s : List Char} (k : Nat), c :: s = c :: s.take k ++ s.drop k := by simp
  fun_induction Placeholders.protectFrom n covered s with
  | case1 => exact ⟨.nil, by simp⟩
  | case2 n covered c s kind k hm token hcov spans out hrec ih =>
    rw [hrec] at ih
    rw [hsplit k] at h
    obtain ⟨hout, hhead⟩ := ih (List.IsChain.right_of_append h)
    refine ⟨?_, fun hzero => absurd hzero (by omega)⟩
    rcases Nat.lt_or_ge covered token.length with hlt | hge
    · have hend : covered - (k + 1) = 0 := by
        have := List.length_take_le k s
        simp only [token, List.length_cons] at hlt
        omega
      have hrest : HasNoBreak (token.drop covered ++ s.drop k) := by
        rw [← List.drop_append_of_le_length hlt.le]
        exact List.IsChain.drop h covered
      exact hrest.append_of_head hout (hhead hend)
    · rw [List.drop_eq_nil_of_le hge]
      exact hout
  | case3 n covered c s kind k hm token hcov hword tail spans out hrec ih =>
    rw [hrec] at ih
    rw [hsplit k] at h
    have hplain : '\\' ∉ placeholder n := fun hmem => absurd (isTokenChar_of_mem_placeholder hmem) (by decide)
    refine ⟨List.isChain_append.2 ⟨hasNoBreak_of_notMem hplain, (ih (List.IsChain.right_of_append h)).1,
      fun x hx y _ hslash => ?_⟩, fun _ c hc => Or.inr (Option.some.inj hc).symm⟩
    exact absurd (hslash ▸ List.mem_of_getLast? hx) hplain
  | case4 n covered c s kind k hm token hcov hword spans out hrec ih =>
    rw [hrec] at ih
    rw [hsplit k] at h
    obtain ⟨hout, hhead⟩ := ih (List.IsChain.right_of_append h)
    exact ⟨HasNoBreak.append_of_head h hout (hhead rfl), fun _ d hd => Or.inl hd⟩

theorem not_lineBreak_infix_protect (h : HasNoBreak s) : ¬ lineBreak <:+: (Placeholders.empty.protect s).2 := by
  intro hbreak
  have hguarded : HasNoBreak (Placeholders.empty.protect s).2 := (hasNoBreak_protectFrom h).1
  have hpair := List.IsChain.infix hguarded hbreak
  exact List.isChain_pair.1 hpair rfl rfl

/-! ## Phrases -/

theorem head?_toList_append {a : String} {c : Char} (h : a.toList.head? = some c) (b : String) :
    (a ++ b).toList.head? = some c := by
  rw [String.toList_append, List.head?_append, h, Option.some_or]

/-- The remarks on braces are told from the other ones by how they start. -/
theorem isAboutBrace_of_message {remark : Remark} (h : remark.message.toList.head? = some 'u') :
    IsAboutBrace remark := by
  have hother : ∀ c, remark.message.toList.head? = some c → c ≠ 'u' → IsAboutBrace remark := fun c hc hne =>
    absurd (Option.some.inj (hc.symm.trans h)) hne
  cases remark with
  | unclosedGroup => exact Or.inl rfl
  | unmatchedBrace => exact Or.inr rfl
  | missingOperand marker =>
    exact hother '\'' (head?_toList_append (head?_toList_append (by decide) _) _) (by decide)
  | missingArguments command arity =>
    refine hother '\\' ?_ (by decide)
    exact head?_toList_append (head?_toList_append (head?_toList_append (head?_toList_append (by decide) _) _) _) _
  | strayEnd => exact hother '\\' (by decide) (by decide)
  | unnamedEnvironment => exact hother '\\' (by decide) (by decide)
  | unclosedEnvironment name =>
    exact hother '\\' (head?_toList_append (head?_toList_append (by decide) _) _) (by decide)
  | unknownCommand name => exact hother 'n' (head?_toList_append (by decide) _) (by decide)
  | unknownEnvironment name => exact hother 'n' (head?_toList_append (by decide) _) (by decide)

/-- **Whole text is transliterated**, and no diagnostic is about a brace. -/
theorem exists_transliteration (h : IsWhole (expressionBody s)) :
    ∃ t, transliterate? s = some t ∧ ∀ d ∈ t.diagnostics, d.message.toList.head? ≠ some 'u' := by
  have hpieces : ∀ s, IsWhole s → ∀ piece ∈ pieces s, piece.Has (fun r => ¬ IsAboutBrace r) IsWhole := by
    intro s hs piece hpiece
    obtain ⟨hremarks, htexts⟩ := whole_pieces hs
    refine ⟨fun r hr => hremarks r (hr ▸ hpiece), fun t ht => (htexts t ?_).1⟩
    exact List.mem_flatMap.2 ⟨piece, hpiece, ht⟩
  have hbreak := not_lineBreak_infix_protect (hasNoBreak_of_grouped (fun s => StartsCommand.startsWord) h)
  have hfuel : (expressionBody s).length < nestingBound (expressionBody s) :=
    Nat.lt_of_lt_of_le (Nat.lt_succ_self _) (Nat.le_mul_of_pos_left _ (Nat.succ_pos _))
  obtain ⟨c, hc⟩ := Option.isSome_iff_exists.1 (isSome_convert_of_isWhole h hfuel)
  refine ⟨c.transliteration, by rw [transliterate?, convertBody_of_not_break _ hbreak, hc, Option.map_some], ?_⟩
  intro d hd hfirst
  obtain ⟨remark, hremark, rfl⟩ := List.mem_map.1 hd
  exact remarks_of_convert hpieces h hc remark hremark (isAboutBrace_of_message hfirst)

/-- **The groups of a phrase.** In every word of what a phrase without braces and backslashes turns into, the braces
are balanced and none is escaped, for behind a backslash stands a letter. So are its brace tokens, unless the first
percent sign stands inside a group: it starts a comment that hides the closing brace. The transliteration has a
result, which tells of no unclosed and no unmatched brace. -/
theorem toLatex_groups (hs : ∀ c ∈ s, IsPlain c) :
    (∀ w ∈ (toLatex s).splitOnP isBlank,
      level? 0 (w.filterMap braceOf?) = some 0 ∧
      (∀ a b, w = a ++ '\\' :: b → ∃ c ∈ b.head?, isCommandLetter c = true) ∧
      (HasBalancedBraces w ↔ level? 0 ((w.takeWhile (· != '%')).filterMap braceOf?) = some 0)) ∧
    ∃ t, transliterate? (toLatex s) = some t ∧ transliterate (toLatex s) = t ∧
      ∀ d ∈ t.diagnostics, d ≠ Remark.unclosedGroup.toDiagnostic ∧ d ≠ Remark.unmatchedBrace.toDiagnostic := by
  have hwritten : IsWritten (toLatex s) := grouped_toLatex hs
  have hstarts : ∀ s, StartsWith commandWords s → StartsWord s := fun s h => StartsCommand.startsWord (Or.inl h)
  refine ⟨fun w hw => ?_, ?_⟩
  · have hcut : ∀ a b c, isBlank c = true → StartsWith commandWords (a ++ c :: b) → StartsWith commandWords a :=
      fun a b c hc h => h.of_append (by simpa using notMem_commandWords_of_isBlank hc)
    obtain ⟨hblank, hgrouped⟩ := hwritten.words hcut w hw
    refine ⟨hgrouped.level, ?_, ?_⟩
    · rintro a b rfl
      obtain ⟨c, t, heq, hc⟩ := hstarts _ hgrouped.slash_of_append
      obtain rfl := (List.cons.inj heq).2
      exact ⟨c, rfl, hc⟩
    · rw [HasBalancedBraces, filterMap_opens?_of_grouped hstarts hgrouped hblank]
  · obtain ⟨t, ht, hdiagnostics⟩ := exists_transliteration hwritten.expressionBody
    refine ⟨t, ht, by rw [transliterate, ht, Option.getD_some], fun d hd => ⟨?_, ?_⟩⟩
    · rintro rfl
      exact hdiagnostics _ hd (by decide)
    · rintro rfl
      exact hdiagnostics _ hd (by decide)

/-- A fraction in the upper bound of a sum, behind a root and a subscript. -/
theorem toLatex_groups_nested :
    let s := "square root of 3rd power subscript pi sum from i=1 to fraction a/b".toList
    (∀ c ∈ s, IsPlain c) ∧
    (∀ w ∈ (toLatex s).splitOnP isBlank,
      level? 0 (w.filterMap braceOf?) = some 0 ∧
      (∀ a b, w = a ++ '\\' :: b → ∃ c ∈ b.head?, isCommandLetter c = true) ∧
      (HasBalancedBraces w ↔ level? 0 ((w.takeWhile (· != '%')).filterMap braceOf?) = some 0)) ∧
    ∃ t, transliterate? (toLatex s) = some t ∧ transliterate (toLatex s) = t ∧
      ∀ d ∈ t.diagnostics, d ≠ Remark.unclosedGroup.toDiagnostic ∧ d ≠ Remark.unmatchedBrace.toDiagnostic := by
  intro s
  have hs : ∀ c ∈ s, IsPlain c := by simp [s, IsPlain]
  exact ⟨hs, toLatex_groups hs⟩

/-- The percent sign of the radicand hides the brace that closes its group. -/
theorem not_hasBalancedBraces_percent :
    let s := "square root of 50%".toList
    (∀ c ∈ s, IsPlain c) ∧ (toLatex s).splitOnP isBlank = ["\\sqrt\x7b50%\x7d".toList] ∧
      (tokens "\\sqrt\x7b50%\x7d".toList).filterMap Token.opens? = [true] ∧
      ¬ HasBalancedBraces "\\sqrt\x7b50%\x7d".toList := by
  refine ⟨by simp [IsPlain], ?_⟩
  decide +kernel

end MathMarkup.Phrase
