import MathMarkup.Tex.Sanitize
import MathMarkup.Proofs.Text.Search
import MathMarkup.Proofs.Text.Tokens
import Mathlib.Data.List.Infix
import Mathlib.Logic.Relation

/-!
# Which commands that touch files are left

Commands are taken out in one pass over the characters, while the tokens of a text tell what is a
command. The two agree on most texts, and differ in three ways: a command is left when a word character
ends its name that is no letter of a name (`\input_`), a command comes up when what was taken out kept
its letters apart, and characters are taken out that no command starts with, behind the first backslash
of a line break and in a comment.

Main theorem `sanitize_exact`: where none of this happens, exactly the commands that touch files go.
-/

namespace MathMarkup.Tex

open Text

variable {s t a b r rest tail u v o : List Char} {c : Char} {p : List Char × List Char}

/-- Is it a command that reads or writes files? -/
def Token.touchesFiles (token : Token) : Bool := token.word?.any fileCommands.contains

/-- The text after what is taken out at its start. -/
def TakenOut (s rest : List Char) : Prop := fileCommandRule s = some ([], rest)

/-- What can be taken out of a text starts a token of it, and does not hide in another one. -/
def Exposed (s : List Char) : Prop :=
  ∀ a b rest, s = a ++ b → TakenOut b rest → ∃ token ∈ tokens s, token.offset = byteLength a

/-- Commands that touch files can be taken out of the text, and leave no new ones. -/
structure Removable (s : List Char) : Prop where
  /-- Behind the name and a number comes no word character. -/
  ended : ∀ b, '\\' :: b <:+ s → b.takeWhile isCommandLetter ∈ fileCommands →
    ∀ c ∈ ((b.dropWhile isCommandLetter).dropWhile isDecimalDigit).head?, isWord c = false
  /-- The letters of such a name are not kept apart by what is taken out. -/
  apart : ∀ u c v t rest, '\\' :: (u ++ t) <:+ s → u ++ c :: v ∈ fileCommands →
    ¬ Relation.TransGen TakenOut t (c :: rest)

/-! ## Names -/

theorem isWord_of_isCommandLetter (hc : isCommandLetter c = true) : isWord c = true :=
  isWord_of_isLetter (isLetter_of_isAlpha hc)

theorem isDecimalDigit_of_isCommandLetter (hc : isCommandLetter c = true) : isDecimalDigit c = false := by
  have hrange := toNat_of_isAlpha hc
  -- the letters stand between the first two ranges of digits
  rw [isDecimalDigit, digitRanges, inRanges, if_neg (by omega), inRanges, if_pos (by omega), Bool.or_false]
  exact decide_eq_false (by omega)

theorem ne_slash_of_isCommandLetter (hc : isCommandLetter c = true) : c ≠ '\\' := by
  rintro rfl
  cases hc

theorem isCommandLetter_of_mem_fileCommands {name : List Char} (h : name ∈ fileCommands) :
    ∀ c ∈ name, isCommandLetter c = true := by
  have hall : ∀ name ∈ fileCommands, name.all isCommandLetter = true := by decide
  exact List.all_eq_true.1 (hall name h)

/-- No name starts another one. -/
theorem eq_of_prefix_of_mem_fileCommands {x y : List Char} (hx : x ∈ fileCommands) (hy : y ∈ fileCommands)
    (h : x <+: y) : x = y := by
  have hall : ∀ x ∈ fileCommands, ∀ y ∈ fileCommands, x <+: y → x = y := by decide
  exact hall x hx y hy h

/-! ## What the rule takes out -/

theorem findSome?_fileCommands : (fileCommands.findSome? fun name => after? name b) = some r ↔
    ∃ name ∈ fileCommands, b = name ++ r := by
  constructor
  · intro h
    obtain ⟨name, hname, hafter⟩ := List.exists_of_findSome?_eq_some h
    exact ⟨name, hname, after?_eq_some_iff.1 hafter⟩
  · rintro ⟨name, hname, rfl⟩
    cases hfind : fileCommands.findSome? fun name' => after? name' (name ++ r) with
    | none => simpa using List.findSome?_eq_none_iff.1 hfind name hname
    | some r' =>
      obtain ⟨name', hname', hafter⟩ := List.exists_of_findSome?_eq_some hfind
      have heq : name ++ r = name' ++ r' := after?_eq_some_iff.1 hafter
      have hsame : name = name' := by
        rcases List.prefix_or_prefix_of_prefix ⟨r, rfl⟩ (heq ▸ List.prefix_append name' r') with h | h
        · exact eq_of_prefix_of_mem_fileCommands hname hname' h
        · exact (eq_of_prefix_of_mem_fileCommands hname' hname h).symm
      rw [hsame, List.append_cancel_left_eq] at heq
      rw [heq]

theorem isSome_afterNumber? : (afterNumber? r).isSome = true ↔
    ∀ c ∈ (r.dropWhile isDecimalDigit).head?, isWord c = false := by
  rw [afterNumber?]
  cases r.dropWhile isDecimalDigit with
  | nil => simp
  | cons c rest => cases hc : isWord c <;> simp [hc]

/-- Digits, and what is no word character, end a name. -/
theorem isCommandLetter_head_of_afterNumber? (h : afterNumber? r = some tail) :
    ∀ c ∈ r.head?, isCommandLetter c = false := by
  intro c hc
  cases r with
  | nil => cases hc
  | cons d r =>
    obtain rfl : d = c := Option.some.inj hc
    refine Bool.eq_false_iff.2 fun hletter => ?_
    have hdrop : (d :: r).dropWhile isDecimalDigit = d :: r :=
      List.dropWhile_cons_of_neg (by simp [isDecimalDigit_of_isCommandLetter hletter])
    have hword := isSome_afterNumber?.1 (Option.isSome_of_eq_some h) d (by rw [hdrop]; rfl)
    rw [isWord_of_isCommandLetter hletter] at hword
    cases hword

/-- The rule takes out a name, with what may follow it. -/
theorem fileCommandRule_eq_some_iff : fileCommandRule s = some p ↔
    ∃ b tail, s = '\\' :: b ∧ b.takeWhile isCommandLetter ∈ fileCommands ∧
      afterNumber? (b.dropWhile isCommandLetter) = some tail ∧ p = ([], afterFlatGroup (trimStart tail)) := by
  simp only [fileCommandRule, Option.bind_eq_bind, Option.bind_eq_some_iff, after?_eq_some_iff,
    findSome?_fileCommands, Option.pure_def, Option.some.injEq]
  constructor
  · rintro ⟨b, rfl, r, ⟨name, hname, rfl⟩, tail, hnumber, rfl⟩
    obtain ⟨htake, hdrop⟩ := takeWhile_append_of_head (isCommandLetter_of_mem_fileCommands hname)
      (isCommandLetter_head_of_afterNumber? hnumber)
    exact ⟨name ++ r, tail, rfl, by rw [htake]; exact hname, by rw [hdrop]; exact hnumber, rfl⟩
  · rintro ⟨b, tail, rfl, hname, hnumber, rfl⟩
    exact ⟨b, rfl, b.dropWhile isCommandLetter, ⟨_, hname, List.takeWhile_append_dropWhile.symm⟩, tail,
      hnumber, rfl⟩

theorem fileCommandRule_of_ne (hc : c ≠ '\\') : fileCommandRule (c :: s) = none := by
  rw [Option.eq_none_iff_forall_ne_some]
  intro p hp
  obtain ⟨b, tail, hs, -⟩ := fileCommandRule_eq_some_iff.1 hp
  exact hc (List.cons.inj hs).1

theorem afterNumber?_suffix (h : afterNumber? r = some tail) : tail <:+ r := by
  rw [afterNumber?] at h
  split at h
  · rw [Option.some.injEq] at h
    exact h ▸ List.nil_suffix
  · rename_i c rest hdrop
    split at h
    · cases h
    · rw [Option.some.injEq] at h
      rw [← h, ← hdrop]
      exact List.dropWhile_suffix _

theorem afterFlatGroup_suffix (s : List Char) : afterFlatGroup s <:+ s := by
  unfold afterFlatGroup
  split
  · rename_i t
    split
    · rename_i body rest hbody
      rw [flatBody?] at hbody
      split at hbody
      · rename_i rest' hdrop
        simp only [Option.some.injEq, Prod.mk.injEq] at hbody
        have hsuffix : '}' :: rest' <:+ t := hdrop ▸ List.dropWhile_suffix _
        rw [← hbody.2]
        exact (List.suffix_cons '}' rest').trans (hsuffix.trans (List.suffix_cons '{' t))
      · cases hbody
    · exact List.suffix_rfl
  · exact List.suffix_rfl

/-- Something is written for what is taken out: nothing; and a backslash at least goes. -/
theorem takenOut_of_rule (h : fileCommandRule s = some p) :
    TakenOut s p.2 ∧ ∃ b, s = '\\' :: b ∧ p.2 <:+ b := by
  obtain ⟨b, tail, rfl, hname, hnumber, rfl⟩ := fileCommandRule_eq_some_iff.1 h
  refine ⟨h, b, rfl, ?_⟩
  have htail : tail <:+ b := (afterNumber?_suffix hnumber).trans (List.dropWhile_suffix _)
  exact (afterFlatGroup_suffix _).trans ((List.dropWhile_suffix _).trans htail)

theorem TakenOut.suffix (h : TakenOut s rest) : ∃ b, s = '\\' :: b ∧ rest <:+ b := (takenOut_of_rule h).2

theorem TakenOut.length_lt (h : TakenOut s rest) : rest.length < s.length := by
  obtain ⟨b, rfl, hsuffix⟩ := h.suffix
  exact Nat.lt_succ_of_le hsuffix.length_le

theorem TakenOut.name_mem (h : TakenOut s rest) :
    ∃ b, s = '\\' :: b ∧ b.takeWhile isCommandLetter ∈ fileCommands := by
  obtain ⟨b, tail, hs, hname, -⟩ := fileCommandRule_eq_some_iff.1 h
  exact ⟨b, hs, hname⟩

/-! ## The pass over the text -/

theorem sanitize_nil : sanitize [] = [] := substitute_nil

theorem sanitize_cons (h : fileCommandRule (c :: s) = none) : sanitize (c :: s) = c :: sanitize s :=
  substitute_cons_of_none h

theorem TakenOut.sanitize_eq (h : TakenOut s rest) : sanitize s = sanitize rest := by
  obtain ⟨b, rfl, hsuffix⟩ := h.suffix
  exact substitute_cons_of_some h hsuffix.length_le

theorem sanitize_eq_of_run (h : Relation.TransGen TakenOut s rest) : sanitize s = sanitize rest := by
  induction h with
  | single h => exact h.sanitize_eq
  | tail _ h ih => exact ih.trans h.sanitize_eq

/-- The pass keeps a character, or goes on behind what it takes out. -/
theorem sanitize_induction {motive : List Char → Prop} (nil : motive [])
    (kept : ∀ c s, fileCommandRule (c :: s) = none → motive s → motive (c :: s))
    (taken : ∀ s rest, TakenOut s rest → motive rest → motive s) (s : List Char) : motive s := by
  fun_induction substitute fileCommandRule s with
  | case1 => exact nil
  | case2 c s hrule ih => exact kept c s hrule ih
  | case3 c s out rest hrule hlen ih => exact taken (c :: s) rest (takenOut_of_rule hrule).1 ih
  | case4 c s out rest hrule hlen =>
    obtain ⟨b, hb, hsuffix⟩ := (takenOut_of_rule hrule).1.suffix
    obtain ⟨-, rfl⟩ := List.cons.inj hb
    exact absurd hsuffix.length_le hlen

theorem length_sanitize_le (s : List Char) : (sanitize s).length ≤ s.length := by
  induction s using sanitize_induction with
  | nil => rw [sanitize_nil]
  | kept c s hrule ih =>
    rw [sanitize_cons hrule, List.length_cons, List.length_cons]
    exact Nat.succ_le_succ ih
  | taken s rest htaken ih =>
    rw [htaken.sanitize_eq]
    exact ih.trans htaken.length_lt.le

theorem not_takenOut_of_sanitize_eq_self (h : sanitize s = s) (hs : s = a ++ b) : ¬ TakenOut b rest := by
  induction s using sanitize_induction generalizing a with
  | nil =>
    obtain ⟨-, rfl⟩ := List.append_eq_nil_iff.1 hs.symm
    exact fun htaken => Nat.not_lt_zero _ htaken.length_lt
  | kept c s hrule ih =>
    rw [sanitize_cons hrule, List.cons.injEq] at h
    cases a with
    | nil =>
      rw [List.nil_append] at hs
      rw [TakenOut, ← hs, hrule]
      exact (Option.some_ne_none _).symm
    | cons d a => exact ih h.2 (List.cons.inj hs).2
  | taken s rest' htaken ih =>
    -- the rest is too short
    have hle := length_sanitize_le rest'
    rw [← htaken.sanitize_eq, h] at hle
    exact absurd htaken.length_lt (Nat.not_lt.2 hle)

/-- A text stays as it is exactly when it holds nothing that can be taken out. -/
theorem sanitize_eq_self_iff : sanitize s = s ↔ ∀ a b rest, s = a ++ b → ¬ TakenOut b rest := by
  constructor
  · exact fun h a b rest hs => not_takenOut_of_sanitize_eq_self h hs
  · intro h
    refine substitute_of_none fun a b hs _ => ?_
    rw [Option.eq_none_iff_forall_ne_some]
    exact fun p hp => h a b p.2 hs (takenOut_of_rule hp).1

/-- The first character that is left stands behind what is taken out in front of it. -/
theorem exists_of_sanitize_eq_cons (s : List Char) (h : sanitize s = c :: o) :
    ∃ t, Relation.ReflTransGen TakenOut s (c :: t) ∧ sanitize t = o := by
  induction s using sanitize_induction with
  | nil =>
    rw [sanitize_nil] at h
    cases h
  | kept d s hrule _ =>
    rw [sanitize_cons hrule, List.cons.injEq] at h
    exact ⟨s, h.1 ▸ .refl, h.2⟩
  | taken s rest htaken ih =>
    rw [htaken.sanitize_eq] at h
    obtain ⟨t, hpath, ht⟩ := ih h
    exact ⟨t, .head htaken hpath, ht⟩

/-- What is left together stood together, or what is taken out kept it apart. -/
theorem together_or_apart (h : sanitize s = v ++ o) : (∃ t, s = v ++ t ∧ sanitize t = o) ∨
    ∃ u c w t rest, v = u ++ c :: w ∧ s = u ++ t ∧ Relation.TransGen TakenOut t (c :: rest) := by
  induction v generalizing s with
  | nil => exact Or.inl ⟨s, rfl, h⟩
  | cons c v ih =>
    obtain ⟨t, hpath, ht⟩ := exists_of_sanitize_eq_cons s h
    rcases Relation.reflTransGen_iff_eq_or_transGen.1 hpath with hs | hpath
    · rcases ih ht with ⟨t', rfl, ht'⟩ | ⟨u, d, w, t', rest, rfl, rfl, hrun⟩
      · exact Or.inl ⟨t', hs.symm, ht'⟩
      · exact Or.inr ⟨c :: u, d, w, t', rest, rfl, hs.symm, hrun⟩
    · exact Or.inr ⟨[], c, v, s, t, rfl, rfl, hpath⟩

theorem Removable.suffix (h : Removable s) (ht : t <:+ s) : Removable t :=
  ⟨fun b hb => h.ended b (hb.trans ht), fun u c v t' rest hu => h.apart u c v t' rest (hu.trans ht)⟩

/-- The name behind a backslash that is left is not one of those. -/
theorem Removable.not_mem_of_kept (h : Removable ('\\' :: s)) (hrule : fileCommandRule ('\\' :: s) = none) :
    (sanitize s).takeWhile isCommandLetter ∉ fileCommands := by
  intro hname
  have hsplit : sanitize s =
      (sanitize s).takeWhile isCommandLetter ++ (sanitize s).dropWhile isCommandLetter :=
    List.takeWhile_append_dropWhile.symm
  rcases together_or_apart hsplit with ⟨t, hs, ht⟩ | ⟨u, c, w, t, rest, hu, rfl, hpath⟩
  · -- no letter follows the name in the text either
    have hhead : ∀ c ∈ t.head?, isCommandLetter c = false := by
      intro c hc
      obtain ⟨t', rfl⟩ := List.head?_eq_some_iff.1 hc
      refine Bool.eq_false_iff.2 fun hletter => ?_
      rw [sanitize_cons (fileCommandRule_of_ne (ne_slash_of_isCommandLetter hletter))] at ht
      have hnot := List.head?_dropWhile_not isCommandLetter (sanitize s)
      rw [← ht] at hnot
      simp [hletter] at hnot
    obtain ⟨htake, hdrop⟩ := takeWhile_append_of_head (isCommandLetter_of_mem_fileCommands hname) hhead
    rw [← hs] at htake hdrop
    have hended := h.ended s List.suffix_rfl (by rw [htake]; exact hname)
    obtain ⟨tail, htail⟩ := Option.isSome_iff_exists.1 (isSome_afterNumber?.2 hended)
    rw [fileCommandRule_eq_some_iff.2 ⟨s, tail, rfl, by rw [htake]; exact hname, htail, rfl⟩] at hrule
    cases hrule
  · exact h.apart u c w t rest List.suffix_rfl (hu ▸ hname) hpath

/-- Behind no backslash that is left stands one of the names. -/
theorem Removable.not_mem_of_sanitize (h : Removable s) :
    ∀ a b, sanitize s = a ++ '\\' :: b → b.takeWhile isCommandLetter ∉ fileCommands := by
  intro a b hab
  induction s using sanitize_induction generalizing a with
  | nil =>
    rw [sanitize_nil] at hab
    simp at hab
  | kept c s hrule ih =>
    rw [sanitize_cons hrule] at hab
    cases a with
    | nil =>
      obtain ⟨rfl, rfl⟩ := List.cons.inj hab
      exact h.not_mem_of_kept hrule
    | cons d a => exact ih (h.suffix (List.suffix_cons c s)) a (List.cons.inj hab).2
  | taken s rest htaken ih =>
    obtain ⟨t, rfl, hsuffix⟩ := htaken.suffix
    rw [htaken.sanitize_eq] at hab
    exact ih (h.suffix (hsuffix.trans (List.suffix_cons _ t))) a hab

/-! ## Tokens -/

theorem Token.touchesFiles_iff {token : Token} : token.touchesFiles = true ↔
    ∃ name ∈ fileCommands, token.word? = some name := by
  rw [touchesFiles, Option.any_eq_true]
  simp only [List.contains_iff_mem]
  constructor
  · rintro ⟨name, hword, hname⟩
    exact ⟨name, hname, hword⟩
  · rintro ⟨name, hname, hword⟩
    exact ⟨name, hword, hname⟩

theorem ne_nil_of_mem_fileCommands {name : List Char} (h : name ∈ fileCommands) : name ≠ [] := by
  rintro rfl
  revert h
  decide

/-- Such a command stands behind a backslash of the text. -/
theorem exists_of_touchesFiles {token : Token} (ht : token ∈ tokens s) (hfiles : token.touchesFiles = true) :
    ∃ a b, s = a ++ '\\' :: b ∧ b.takeWhile isCommandLetter ∈ fileCommands := by
  obtain ⟨name, hname, hword⟩ := Token.touchesFiles_iff.1 hfiles
  obtain ⟨a, c, b, k, rfl, -, hmunch, htext⟩ := exists_munch_of_mem_tokensFrom ht
  have hcut : Token.mk token.kind (c :: b.take k) token.offset = token := by rw [← htext]
  obtain ⟨rfl, -, htake⟩ := (word?_munch hmunch token.offset).1 (hcut ▸ hword)
  exact ⟨a, b, rfl, htake ▸ hname⟩

/-- What is exposed is a command. -/
theorem Exposed.exists_touchesFiles (h : Exposed s) (hs : s = a ++ b) (htaken : TakenOut b rest) :
    ∃ token ∈ tokens s, token.touchesFiles = true := by
  obtain ⟨token, ht, hoffset⟩ := h a b rest hs htaken
  obtain ⟨b, rfl, hname⟩ := htaken.name_mem
  obtain ⟨a', c, b', k, hs', hoffset', hmunch, htext⟩ := exists_munch_of_mem_tokensFrom ht
  obtain ⟨rfl, htail⟩ := eq_of_byteLength_eq (hs.symm.trans hs') (by omega)
  obtain ⟨rfl, rfl⟩ := List.cons.inj htail
  have hcut : Token.mk token.kind ('\\' :: b.take k) token.offset = token := by rw [← htext]
  refine ⟨token, ht, Token.touchesFiles_iff.2 ⟨_, hname, ?_⟩⟩
  rw [← hcut]
  exact (word?_munch hmunch token.offset).2 ⟨rfl, ne_nil_of_mem_fileCommands hname, rfl⟩

/-- It is enough to look at the ends of a text. -/
theorem Removable.of_tails
    (hended : ∀ x ∈ s.tails, x.tail.takeWhile isCommandLetter ∈ fileCommands →
      (afterNumber? (x.tail.dropWhile isCommandLetter)).isSome)
    (hapart : ∀ x ∈ s.tails, x.head? = some '\\' → ∀ name ∈ fileCommands, ∀ n < name.length,
      name.take n = x.tail.take n → (fileCommandRule (x.tail.drop n)).isSome →
        (sanitize (x.tail.drop n)).head? ≠ name[n]?) : Removable s := by
  constructor
  · intro b hb hname
    exact isSome_afterNumber?.1 (hended ('\\' :: b) ((List.mem_tails _ _).2 hb) hname)
  · intro u c v t rest hu hname hrun
    obtain ⟨t', hfirst, -⟩ := Relation.TransGen.head'_iff.1 hrun
    have hletter : isCommandLetter c = true :=
      isCommandLetter_of_mem_fileCommands hname c (List.mem_append_right u List.mem_cons_self)
    refine hapart _ ((List.mem_tails _ _).2 hu) rfl _ hname u.length (by simp) (by simp) ?_ ?_
    · rw [List.tail_cons, List.drop_left]
      exact Option.isSome_of_eq_some hfirst
    · rw [List.tail_cons, List.drop_left, sanitize_eq_of_run hrun,
        sanitize_cons (fileCommandRule_of_ne (ne_slash_of_isCommandLetter hletter))]
      simp

/-- **Exactly the commands that touch files are taken out**: none is left of a text from which they can
be removed, and a text without them stays as it is if and only if nothing that looks like one hides in
another token. -/
theorem sanitize_exact (s : List Char) :
    (Removable s → ∀ token ∈ tokens (sanitize s), token.touchesFiles = false) ∧
    ((∀ token ∈ tokens s, token.touchesFiles = false) → (sanitize s = s ↔ Exposed s)) := by
  constructor
  · intro h token ht
    rw [Bool.eq_false_iff]
    intro hfiles
    obtain ⟨a, b, hab, hname⟩ := exists_of_touchesFiles ht hfiles
    exact h.not_mem_of_sanitize a b hab hname
  · intro hnone
    rw [sanitize_eq_self_iff]
    constructor
    · exact fun h a b rest hs htaken => absurd htaken (h a b rest hs)
    · intro h a b rest hs htaken
      obtain ⟨token, ht, hfiles⟩ := h.exists_touchesFiles hs htaken
      rw [hnone token ht] at hfiles
      cases hfiles

/-- A name in two parts, of which only one is taken out for good, and a line break in front of what is
longer than a name. -/
theorem sanitize_exact_split_name :
    (Removable "\\in\\write18{x} put".toList ∧
      sanitize "\\in\\write18{x} put".toList = "\\in put".toList ∧
      ∀ token ∈ tokens (sanitize "\\in\\write18{x} put".toList), token.touchesFiles = false) ∧
    Exposed "\\\\input_".toList ∧ sanitize "\\\\input_".toList = "\\\\input_".toList := by
  have hremovable : Removable "\\in\\write18{x} put".toList :=
    .of_tails (by decide +kernel) (by decide +kernel)
  have hexposed : Exposed "\\\\input_".toList := by
    intro a b rest hab htaken
    have hnone : ∀ x ∈ "\\\\input_".toList.tails, fileCommandRule x = none := by decide +kernel
    rw [TakenOut, hnone b ((List.mem_tails _ _).2 ⟨a, hab.symm⟩)] at htaken
    cases htaken
  exact ⟨⟨hremovable, by cbv, (sanitize_exact _).1 hremovable⟩, hexposed,
    ((sanitize_exact _).2 (by decide +kernel)).2 hexposed⟩

/-- Not every text is served so: what is taken out can join a name, and a line break can lose what
stands behind it. -/
theorem sanitize_inexact :
    sanitize "\\in\\input{x}put".toList = "\\input".toList ∧
    (∃ token ∈ tokens (sanitize "\\in\\input{x}put".toList), token.touchesFiles = true) ∧
    (∀ token ∈ tokens "a \\\\load".toList, token.touchesFiles = false) ∧
    sanitize "a \\\\load".toList = "a \\".toList := by
  refine ⟨by cbv, ⟨⟨.command, "\\input".toList, 0⟩, ?_, ?_⟩, ?_, by cbv⟩ <;> decide +kernel

end MathMarkup.Tex
