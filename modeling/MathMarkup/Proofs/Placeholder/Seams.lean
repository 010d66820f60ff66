import MathMarkup.Proofs.Conversion.Shifts
import MathMarkup.Proofs.Normal.Silence
import MathMarkup.Proofs.Normal.Verbatim
import MathMarkup.Proofs.Placeholder.SharedMap
import MathMarkup.Proofs.Rows.Grid
import MathMarkup.Proofs.Text.Groups

/-!
# Where a text ends for placeholders

A text whose groups are closed, without comments and openings of environments, is protected by itself when a
blank follows it (`protect_append`): its last command takes nothing from behind the blank. What is
written for it can be told from the text without the arguments of its commands (`uncut?_protect`).
-/

namespace MathMarkup.Tex

open Text

variable {c : Char} {d n : Nat} {s t name rest : List Char} {p : Placeholders}

/-! ## Arguments behind a name -/

/-- The group at the start of a closed text ends in it, and what is behind the group is closed. -/
theorem Closes.splitGroup?_open (h : Closes d ('{' :: s)) :
    ∃ group rest, splitGroup? ('{' :: s) = some (group, rest) ∧ Closes d rest := by
  obtain ⟨g, r, rfl, hg, hr⟩ := (closes_open_iff.1 h).exists_close (Nat.le_refl 1)
  refine ⟨'{' :: g, r, ?_, hr⟩
  rw [splitGroup?, closeGroups?_append hg]
  rfl

theorem splitGroup?_append {group : List Char} (h : splitGroup? s = some (group, rest)) (t : List Char) :
    splitGroup? (s ++ t) = some (group, rest ++ t) := by
  unfold splitGroup? at h
  split at h
  · simp only [Option.map_eq_some_iff, Prod.exists, Prod.mk.injEq] at h
    obtain ⟨g, r, hg, rfl, rfl⟩ := h
    rw [List.cons_append, splitGroup?, closeGroups?_append hg]
    rfl
  · cases h

theorem splitGroups_of_splitGroup? {group : List Char} (h : splitGroup? s = some (group, rest)) :
    splitGroups s = (group :: (splitGroups rest).1, (splitGroups rest).2) := by
  rw [splitGroups]
  split
  · rename_i h'
    rw [h] at h'
    cases h'
  · rename_i h'
    obtain ⟨rfl, rfl⟩ := Prod.mk.inj (Option.some.inj (h.symm.trans h'))
    rfl

/-- The groups at the start of a closed text do not depend on what follows, unless it is a group. -/
theorem Closes.splitGroups_append (h : Closes d s) (ht : t.head? ≠ some '{') :
    splitGroups (s ++ t) = ((splitGroups s).1, (splitGroups s).2 ++ t) ∧ Closes d (splitGroups s).2 := by
  induction hlength : s.length using Nat.strongRecOn generalizing s with
  | ind length ih =>
    subst hlength
    by_cases hs : s.head? = some '{'
    · obtain ⟨s, rfl⟩ := List.head?_eq_some_iff.1 hs
      obtain ⟨group, rest, hgroup, hrest⟩ := h.splitGroup?_open
      have hlt : rest.length < ('{' :: s).length := by
        obtain ⟨happend, hne⟩ := append_of_splitGroup? hgroup
        have := congrArg List.length happend
        have := List.length_pos_iff.2 hne
        simp only [List.length_append] at *
        omega
      obtain ⟨hsplit, hclosed⟩ := ih _ hlt hrest rfl
      rw [splitGroups_of_splitGroup? (splitGroup?_append hgroup t), splitGroups_of_splitGroup? hgroup, hsplit]
      exact ⟨rfl, hclosed⟩
    · have happend : (s ++ t).head? ≠ some '{' := by
        cases s with
        | nil => exact ht
        | cons c s => exact hs
      rw [splitGroups_of_head hs, splitGroups_of_head happend]
      exact ⟨rfl, h⟩

/-! ## Along a text that can be protected by itself -/

/-- Every group is closed, or is one that is open in front of the text; nothing is read as a comment, and no
environment opens. -/
structure IsApart (s : List Char) : Prop where
  closed : ∃ d, Closes d s
  silent : Mode.plain.Silent s
  noBegin : ¬ beginCommand ++ ['{'] <:+: s

theorem closes_word_iff (hname : IsWordBefore name rest) : Closes d ('\\' :: name ++ rest) ↔ Closes d rest := by
  obtain ⟨c, name, rfl⟩ := List.exists_cons_of_ne_nil hname.ne_nil
  have hname := (List.forall_mem_cons.1 hname.letters).2
  rw [List.cons_append, List.cons_append, closes_escaped_iff,
    closes_append_iff_of_isPlain fun c hc => isPlain_of_isCommandLetter (hname c hc)]

/-- Groups leave no escape behind. -/
theorem after_splitGroups (h : Mode.plain.Silent (splitGroups s).1.flatten) :
    Mode.plain.after (splitGroups s).1.flatten = .plain := by
  rcases List.eq_nil_or_concat (splitGroups s).1.flatten with hnil | ⟨x, c, hconcat⟩
  · rw [hnil]
    rfl
  · have hlast : c ∈ (splitGroups s).1.flatten.getLast? := by rw [hconcat]; simp
    have hbrace := getLast?_splitGroups s c hlast
    exact h.after_eq_plain ⟨c, hlast, by rw [hbrace]; decide⟩

/-- What a command leaves of a text can be protected by itself again. -/
theorem IsApart.behind (h : IsApart ('\\' :: name ++ rest)) (hname : IsWordBefore name rest) :
    Mode.plain.Silent (splitGroups rest).1.flatten ∧ IsApart (splitGroups rest).2 := by
  have hgroups := append_of_splitGroups rest
  obtain ⟨d, hclosed⟩ := h.closed
  rw [closes_word_iff hname] at hclosed
  have hsilent := h.silent
  rw [silent_append, after_name hname.ne_nil hname.letters Mode.noConfusion, ← hgroups, silent_append] at hsilent
  obtain ⟨-, hflat, hbehind⟩ := hsilent
  rw [after_splitGroups hflat] at hbehind
  have hnil := (hclosed.splitGroups_append (t := []) (by simp)).2
  refine ⟨hflat, ⟨d, hnil⟩, hbehind, fun hbegin => h.noBegin (hbegin.trans ?_)⟩
  exact ⟨'\\' :: name ++ (splitGroups rest).1.flatten, [], by simp [hgroups]⟩

/-- A command takes the groups behind it, whatever follows the text. -/
theorem IsApart.commandTail_eq (h : IsApart ('\\' :: name ++ rest)) (hname : IsWordBefore name rest)
    (ht : t.head? ≠ some '{') :
    commandTail ('\\' :: name) (rest ++ t) = (splitGroups rest).1.flatten := by
  obtain ⟨d, hclosed⟩ := h.closed
  have hsplit := (((closes_word_iff hname).1 hclosed).splitGroups_append ht).1
  have hgroups := append_of_splitGroups rest
  rw [commandTail, hsplit]
  cases hfirst : (splitGroups rest).1 with
  | nil => rfl
  | cons group groups =>
    have hne : '\\' :: name ≠ beginCommand := by
      intro hbegin
      have hopen : rest.head? = some '{' := by
        by_contra hhead
        rw [splitGroups_of_head hhead] at hfirst
        cases hfirst
      obtain ⟨u, rfl⟩ := List.head?_eq_some_iff.1 hopen
      exact h.noBegin ⟨[], u, by rw [hbegin]; simp⟩
    simp only [if_neg hne]

theorem IsApart.of_escaped (h : IsApart ('\\' :: c :: s)) : IsApart s := by
  obtain ⟨d, hclosed⟩ := h.closed
  exact ⟨⟨d, closes_escaped_iff.1 hclosed⟩, h.silent.2.2, not_infix_behind (a := ['\\', c]) h.noBegin⟩

theorem IsApart.of_char (hslash : c ≠ '\\') (hpercent : c ≠ '%') (h : IsApart (c :: s)) : IsApart s := by
  obtain ⟨d, hclosed⟩ := h.closed
  have hsilent := h.silent.2
  rw [next_eq_plain hslash hpercent Mode.noConfusion] at hsilent
  refine ⟨?_, hsilent, not_infix_behind (a := [c]) h.noBegin⟩
  by_cases hclose : c = '}'
  · subst hclose
    obtain ⟨d', -, hrest⟩ := closes_close_iff.1 hclosed
    exact ⟨d', hrest⟩
  by_cases hopen : c = '{'
  · subst hopen
    exact ⟨d + 1, closes_open_iff.1 hclosed⟩
  · exact ⟨d, (closes_cons_iff_of_isPlain ⟨hslash, hopen, hclose⟩).1 hclosed⟩

/-- Induction along a text that can be protected by itself: a name goes with the groups behind it. -/
@[elab_as_elim]
theorem IsApart.induction {motive : ∀ s, IsApart s → Prop} (nil : ∀ h, motive [] h)
    (word : ∀ name rest (hname : IsWordBefore name rest) (h : IsApart ('\\' :: name ++ rest)),
      motive (splitGroups rest).2 (h.behind hname).2 → motive ('\\' :: name ++ rest) h)
    (escaped : ∀ c rest (_ : isCommandLetter c = false) (h : IsApart ('\\' :: c :: rest)),
      motive rest h.of_escaped → motive ('\\' :: c :: rest) h)
    (char : ∀ c rest (hslash : c ≠ '\\') (hpercent : c ≠ '%') (h : IsApart (c :: rest)),
      motive rest (h.of_char hslash hpercent) → motive (c :: rest) h)
    (s : List Char) (h : IsApart s) : motive s h := by
  refine silent_induction (motive := fun s => ∀ h, motive s h) nil (fun h => ?_) ?_ ?_ ?_ s h.silent h
  · obtain ⟨d, hclosed⟩ := h.closed
    exact absurd hclosed not_closes_slash
  · intro name rest hname _ ih h
    have hsuffix : (splitGroups rest).2 <:+ rest := ⟨_, append_of_splitGroups rest⟩
    exact word name rest hname h (ih _ hsuffix (h.behind hname).2.silent _)
  · exact fun c rest hc ih h => escaped c rest hc h (ih _)
  · exact fun c rest hslash hpercent ih h => char c rest hslash hpercent h (ih _)

/-! ## Protecting -/

namespace Placeholders

/-- The map with one more span. -/
def add (p : Placeholders) (span : List Char) : Placeholders := ⟨p.spans ++ [span]⟩

theorem protect_nil (p : Placeholders) : p.protect [] = (p, []) := by simp [protect, protectFrom]

theorem protect_char (hslash : c ≠ '\\') (hpercent : c ≠ '%') (p : Placeholders) (s : List Char) :
    p.protect (c :: s) = ((p.protect s).1, c :: (p.protect s).2) := by
  rw [protect, (protectFrom_char hslash hpercent s).1]
  rfl

theorem protect_escaped (hc : isCommandLetter c = false) (p : Placeholders) (s : List Char) :
    p.protect ('\\' :: c :: s) = ((p.protect s).1, '\\' :: c :: (p.protect s).2) := by
  rw [protect, protectFrom_escaped hc]
  rfl

end Placeholders

/-- A command and the groups behind it are one span. -/
theorem IsApart.protect_word (h : IsApart ('\\' :: name ++ rest)) (hname : IsWordBefore name rest)
    (ht : ∀ c ∈ t.head?, isBlank c = true) (p : Placeholders) :
    p.protect ('\\' :: name ++ rest ++ t) =
      let r := (p.add ('\\' :: name ++ (splitGroups rest).1.flatten)).protect ((splitGroups rest).2 ++ t)
      (r.1, placeholder p.size ++ r.2) := by
  have hword : IsWordBefore name (rest ++ t) := by
    refine ⟨hname.ne_nil, hname.letters, fun c hc => ?_⟩
    cases rest with
    | nil => exact isCommandLetter_eq_false_of_isBlank (ht c hc)
    | cons d rest => exact hname.behind c hc
  have hbrace : t.head? ≠ some '{' := fun hhead => absurd (ht '{' hhead) (by decide)
  have htail := h.commandTail_eq hname hbrace
  have hgroups : rest ++ t = (splitGroups rest).1.flatten ++ ((splitGroups rest).2 ++ t) := by
    rw [← List.append_assoc, append_of_splitGroups]
  have hcovered := (h.behind hname).1.protectFrom_tail (getLast?_splitGroups rest) (p.size + 1)
    ((splitGroups rest).2 ++ t)
  rw [← hgroups] at hcovered
  have hsize : (p.add ('\\' :: name ++ (splitGroups rest).1.flatten)).size = p.size + 1 := List.length_append
  simp only [Placeholders.protect, hsize]
  rw [List.append_assoc, protectFrom_word hword, htail, hcovered]
  simp [Placeholders.add]

/-- **Protecting a text and then one that starts with a blank** is protecting them in a row. -/
theorem IsApart.protect_append (h : IsApart s) (ht : ∀ c ∈ t.head?, isBlank c = true) (p : Placeholders) :
    p.protect (s ++ t) = (((p.protect s).1.protect t).1, (p.protect s).2 ++ ((p.protect s).1.protect t).2) := by
  induction s, h using IsApart.induction generalizing p with
  | nil h =>
    rw [p.protect_nil]
    rfl
  | word name rest hname h ih =>
    have hself := h.protect_word (t := []) hname (by simp) p
    rw [List.append_nil, List.append_nil] at hself
    rw [h.protect_word hname ht, hself, ih, List.append_assoc]
  | escaped c rest hc h ih =>
    rw [List.cons_append, List.cons_append, Placeholders.protect_escaped hc, Placeholders.protect_escaped hc, ih]
    rfl
  | char c rest hslash hpercent h ih =>
    rw [List.cons_append, Placeholders.protect_char hslash hpercent, Placeholders.protect_char hslash hpercent, ih]
    rfl

/-! ## Outside the arguments of commands -/

/-- The text without the brace groups right behind its command names. -/
def outsideArguments : List Char → List Char
  | [] => []
  | c :: s =>
    if c = '\\' then
      match s with
      | [] => [c]
      | d :: t =>
        if isCommandLetter d then
          c :: (d :: t).takeWhile isCommandLetter ++
            outsideArguments (splitGroups ((d :: t).dropWhile isCommandLetter)).2
        else c :: d :: outsideArguments t
    else c :: outsideArguments s
termination_by s => s.length
decreasing_by
  · have hgroups := congrArg List.length (append_of_splitGroups ((d :: t).dropWhile isCommandLetter))
    have hname := length_dropWhile_le isCommandLetter (d :: t)
    simp only [List.length_append, List.length_cons] at *
    omega
  · simp only [List.length_cons]
    omega
  · simp only [List.length_cons]
    omega

theorem outsideArguments_word (hname : IsWordBefore name rest) :
    outsideArguments ('\\' :: name ++ rest) = '\\' :: name ++ outsideArguments (splitGroups rest).2 := by
  obtain ⟨d, name, rfl⟩ := List.exists_cons_of_ne_nil hname.ne_nil
  obtain ⟨htake, hdrop⟩ := takeWhile_append_of_head hname.letters hname.behind
  have hd := hname.letters d List.mem_cons_self
  rw [List.cons_append] at htake hdrop
  rw [List.cons_append, List.cons_append, outsideArguments, if_pos rfl, if_pos hd, htake, hdrop]

theorem outsideArguments_escaped (hc : isCommandLetter c = false) (s : List Char) :
    outsideArguments ('\\' :: c :: s) = '\\' :: c :: outsideArguments s := by
  rw [outsideArguments, if_pos rfl, if_neg (by simp [hc])]

theorem outsideArguments_char (hslash : c ≠ '\\') (s : List Char) :
    outsideArguments (c :: s) = c :: outsideArguments s := by
  rw [outsideArguments.eq_def]
  exact if_neg hslash

theorem uncut?_name (hname : IsWordBefore name rest) (t : List Char) :
    uncut? false ('\\' :: name ++ t) = uncut? false t := by
  have hplain : ∀ c, isCommandLetter c = true → c ≠ '\\' ∧ c ≠ '&' := fun c hc => by
    constructor <;> (rintro rfl; cases hc)
  obtain ⟨d, name, rfl⟩ := List.exists_cons_of_ne_nil hname.ne_nil
  obtain ⟨hd, hletters⟩ := List.forall_mem_cons.1 hname.letters
  have hname : uncut? false ('\\' :: d :: name) = uncut? false name := by
    simp [uncut?, (hplain d hd).1]
  rw [uncut?_append, hname, uncut?_of_plain fun c hc => hplain c (hletters c hc)]
  rfl

theorem uncut?_placeholder (n : Nat) (t : List Char) : uncut? false (placeholder n ++ t) = uncut? false t := by
  have hplain : ∀ c ∈ placeholder n, c ≠ '\\' ∧ c ≠ '&' := by
    intro c hc
    constructor <;>
      · rintro rfl
        exact notMem_placeholder (by decide) n hc
  rw [uncut?_append, uncut?_of_plain hplain]
  rfl

/-- What is written for a text is cut where the text is cut outside the arguments of its commands. -/
theorem IsApart.uncut?_protect (h : IsApart s) (p : Placeholders) :
    uncut? false (p.protect s).2 = uncut? false (outsideArguments s) := by
  induction s, h using IsApart.induction generalizing p with
  | nil h =>
    rw [p.protect_nil, outsideArguments]
  | word name rest hname h ih =>
    have hself := h.protect_word (t := []) hname (by simp) p
    rw [List.append_nil, List.append_nil] at hself
    rw [hself, outsideArguments_word hname, uncut?_placeholder, uncut?_name hname]
    exact ih _
  | escaped c rest hc h ih =>
    rw [Placeholders.protect_escaped hc, outsideArguments_escaped hc]
    simp [uncut?, ih p]
  | char c rest hslash hpercent h ih =>
    rw [Placeholders.protect_char hslash hpercent, outsideArguments_char hslash]
    simp [uncut?, hslash, ih p]

/-- Every `c` in the text stands behind an odd number of backslashes. -/
def OnlyEscaped (c : Char) (s : List Char) : Prop :=
  ∀ a b, s = a ++ c :: b → trailingBackslashes a % 2 = 1

theorem onlyEscaped_iff :
    OnlyEscaped c s ↔ ∀ i < s.length, s[i]? = some c → trailingBackslashes (s.take i) % 2 = 1 := by
  constructor
  · intro h i hi hget
    obtain ⟨hi, rfl⟩ := List.getElem?_eq_some_iff.1 hget
    exact h (s.take i) (s.drop (i + 1)) (by simp)
  · rintro h a b rfl
    simpa using h a.length (by simp) (by simp)

instance : Decidable (OnlyEscaped c s) := decidable_of_iff _ onlyEscaped_iff.symm

theorem OnlyEscaped.of_append {x : List Char} {d : Char} (hd : d ≠ '\\') (h : OnlyEscaped c (x ++ d :: s)) :
    OnlyEscaped c s := by
  rintro a b rfl
  have := h (x ++ d :: a) b (by simp)
  rwa [trailingBackslashes_append hd] at this

theorem OnlyEscaped.of_append_left (h : OnlyEscaped c (s ++ t)) : OnlyEscaped c s := by
  rintro a b rfl
  exact h a (b ++ t) (by simp)

/-- Percent signs behind an odd number of backslashes start no comment. -/
theorem OnlyEscaped.silent (h : OnlyEscaped '%' s) : Mode.plain.Silent s := by
  induction s using List.reverseRecOn with
  | nil => exact Mode.noConfusion
  | append_singleton s c ih =>
    have hs := ih h.of_append_left
    refine silent_append.2 ⟨hs, hs.after_ne_comment, ?_⟩
    cases hafter : Mode.plain.after s with
    | escaped => exact Mode.noConfusion
    | comment => exact absurd hafter hs.after_ne_comment
    | plain =>
      have hpercent : c ≠ '%' := by
        rintro rfl
        have hodd := h s [] rfl
        have heven := (trailingBackslashes_of_after Mode.noConfusion s).2 hafter
        omega
      by_cases hslash : c = '\\'
      · rw [hslash]
        exact Mode.noConfusion
      · rw [next_eq_plain hslash hpercent Mode.noConfusion]
        exact Mode.noConfusion

/-- Line breaks and tabs that are not escaped are what a text is cut at. -/
theorem IsApart.uncut?_outside (h : IsApart s) (hbreak : ¬ lineBreak <:+: outsideArguments s)
    (htab : OnlyEscaped '&' (outsideArguments s)) : uncut? false (outsideArguments s) = some false := by
  induction s, h using IsApart.induction with
  | nil h =>
    rw [outsideArguments]
    rfl
  | word name rest hname h ih =>
    rw [outsideArguments_word hname] at hbreak htab ⊢
    rw [uncut?_name hname]
    refine ih (not_infix_behind hbreak) ?_
    rcases List.eq_nil_or_concat name with rfl | ⟨front, d, rfl⟩
    · exact absurd rfl hname.ne_nil
    · have hd : d ≠ '\\' := by
        rintro rfl
        exact absurd (hname.letters '\\' (by simp)) (by decide)
      exact OnlyEscaped.of_append (x := '\\' :: front) hd (by simpa using htab)
  | escaped c rest hc h ih =>
    rw [outsideArguments_escaped hc] at hbreak htab ⊢
    have hslash : c ≠ '\\' := by
      rintro rfl
      exact hbreak (lineBreak_prefix_iff.2 ⟨_, rfl⟩).isInfix
    have hcut : uncut? false ('\\' :: c :: outsideArguments rest) = uncut? false (outsideArguments rest) := by
      simp [uncut?, hslash]
    rw [hcut]
    exact ih (not_infix_behind (a := ['\\', c]) hbreak) (OnlyEscaped.of_append (x := ['\\']) hslash htab)
  | char c rest hslash hpercent h ih =>
    rw [outsideArguments_char hslash] at hbreak htab ⊢
    have hamp : c ≠ '&' := by
      rintro rfl
      exact absurd (htab [] _ rfl) (by decide)
    rw [uncut?_cons hslash hamp]
    exact ih (not_infix_behind (a := [c]) hbreak) (OnlyEscaped.of_append (x := []) hslash htab)

end MathMarkup.Tex
