import MathMarkup.Proofs.Normal.Covered
import MathMarkup.Proofs.Normal.Display
import MathMarkup.Proofs.Rows.Carried

/-!
# Arguments of `\text` in a text without other braces

A text weaves arguments of `\text` into pieces without braces (`Weaves`). As long as each of them starts
in plain text, protecting finds every one, whatever the argument before it holds: a comment that is open
behind an argument is written as it stands, and the walk goes on at the end of its line.

Main statement: `found_of_weaves`.
-/

namespace MathMarkup.Tex

open Text

variable {m : Mode} {n : Nat} {c : Char} {a s t x y z : List Char} {as : List (List Char)}
  {r : List (List Char) × List Char}

/-! ## Flat texts -/

/-- No brace, and backslashes in pairs at the end. -/
structure IsFlat (s : List Char) : Prop where
  plain : ∀ c ∈ s, isBrace c = false
  even : trailingBackslashes s % 2 = 0

instance : Decidable (IsFlat s) :=
  decidable_of_iff ((s.all fun c => !isBrace c) = true ∧ trailingBackslashes s % 2 = 0)
    ⟨fun h => ⟨by simpa using h.1, h.2⟩, fun h => ⟨by simpa using h.plain, h.even⟩⟩

/-- `\text` with its argument. -/
def textSpan (a : List Char) : List Char := textOpen ++ a ++ ['}']

theorem textSpan_eq (a : List Char) : textSpan a = '\\' :: ['t', 'e', 'x', 't'] ++ '{' :: (a ++ ['}']) := by
  simp [textSpan, textOpen]

/-- Two backslashes more do not change what the backslashes at the end do. -/
theorem trailingBackslashes_pair (s : List Char) :
    trailingBackslashes ('\\' :: '\\' :: s) % 2 = trailingBackslashes s % 2 := by
  have hreverse : ('\\' :: '\\' :: s).reverse = s.reverse ++ ['\\', '\\'] := by simp
  rw [trailingBackslashes, trailingBackslashes, hreverse, List.takeWhile_append]
  split
  · rename_i hall
    rw [List.length_append, hall]
    exact Nat.add_mod_right _ 2
  · rfl

/-- A character that is no backslash, or is escaped, is not counted. -/
theorem even_tail (h : trailingBackslashes (c :: s) % 2 = 0) (hc : c ≠ '\\') : trailingBackslashes s % 2 = 0 := by
  rwa [← List.nil_append (c :: s), trailingBackslashes_append hc] at h

theorem even_escaped (h : trailingBackslashes ('\\' :: c :: s) % 2 = 0) : trailingBackslashes s % 2 = 0 := by
  by_cases hc : c = '\\'
  · rwa [hc, trailingBackslashes_pair] at h
  · have hsplit : '\\' :: c :: s = ['\\'] ++ c :: s := rfl
    rwa [hsplit, trailingBackslashes_append hc] at h

/-- A flat text is a group on its own. -/
theorem closeGroups?_flat (hplain : ∀ c ∈ a, isBrace c = false) (heven : trailingBackslashes a % 2 = 0)
    (s : List Char) :
    closeGroups? 1 (a ++ '}' :: s) = some (a ++ ['}'], s) := by
  induction hlen : a.length using Nat.strongRecOn generalizing a with
  | ind len ih =>
    subst hlen
    cases a with
    | nil => exact closeGroups?_last (Nat.le_refl 1) s
    | cons c a =>
      obtain ⟨hc, ha⟩ := List.forall_mem_cons.1 hplain
      by_cases hslash : c = '\\'
      · subst hslash
        cases a with
        | nil => cases heven
        | cons d a =>
          obtain ⟨-, ha⟩ := List.forall_mem_cons.1 ha
          have hlt : a.length < ('\\' :: d :: a).length := Nat.lt_succ_of_lt (Nat.lt_succ_self _)
          rw [List.cons_append, List.cons_append, closeGroups?_escaped, ih a.length hlt ha (even_escaped heven) rfl]
          rfl
      · have hbrace : IsPlain c := by
          simp only [isBrace, Bool.or_eq_false_iff, beq_eq_false_iff_ne] at hc
          exact ⟨hslash, hc⟩
        rw [List.cons_append, closeGroups?_cons_of_isPlain hbrace,
          ih a.length (Nat.lt_succ_self _) ha (even_tail heven hslash) rfl]
        rfl

theorem splitGroups_of_head (hs : s.head? ≠ some '{') : splitGroups s = ([], s) := by
  have hnone : splitGroup? s = none := by
    unfold splitGroup?
    split
    · exact absurd rfl hs
    · rfl
  rw [splitGroups]
  split
  · rfl
  · rename_i hsome
    rw [hnone] at hsome
    cases hsome

theorem commandTail_of_head (command : List Char) (hs : s.head? ≠ some '{') : commandTail command s = [] := by
  rw [commandTail, splitGroups_of_head hs]

/-- The argument of `\text` is all that belongs to it. -/
theorem commandTail_text (ha : IsFlat a) (hs : s.head? ≠ some '{') :
    commandTail ['\\', 't', 'e', 'x', 't'] ('{' :: (a ++ ['}']) ++ s) = '{' :: (a ++ ['}']) := by
  have hgroup : splitGroup? ('{' :: (a ++ ['}']) ++ s) = some ('{' :: (a ++ ['}']), s) := by
    rw [List.cons_append, List.append_assoc, List.singleton_append, splitGroup?, closeGroups?_flat ha.plain ha.even]
    rfl
  have hgroups : splitGroups ('{' :: (a ++ ['}']) ++ s) = (['{' :: (a ++ ['}'])], s) := by
    rw [splitGroups]
    split
    · rename_i hnone
      rw [hgroup] at hnone
      cases hnone
    · rename_i hsome
      rw [hgroup, Option.some.injEq, Prod.mk.injEq] at hsome
      obtain ⟨rfl, rfl⟩ := hsome
      rw [splitGroups_of_head hs]
  rw [commandTail, hgroups]
  simp [beginCommand]

/-! ## Texts that weave arguments -/

/-- Between pieces without braces stand these arguments of `\text`, each of them in plain text. The text is
read from the mode. -/
def Weaves : Mode → List (List Char) → List Char → Prop
  | _, [], s => ∀ c ∈ s, isBrace c = false
  | m, a :: as, s => ∃ x z, s = x ++ (textSpan a ++ z) ∧ (∀ c ∈ x, isBrace c = false) ∧ m.after x = .plain ∧
      IsFlat a ∧ Weaves (Mode.plain.after (textSpan a)) as z

theorem Weaves.head (h : Weaves m as s) : s.head? ≠ some '{' := by
  intro hbrace
  obtain ⟨t, rfl⟩ := List.head?_eq_some_iff.1 hbrace
  cases as with
  | nil => exact absurd (h '{' List.mem_cons_self) (by decide)
  | cons a as =>
    obtain ⟨x, z, hs, hx, -⟩ := h
    cases x with
    | nil => cases hs
    | cons d x =>
      obtain ⟨rfl, -⟩ := List.cons.inj hs
      exact absurd (hx '{' List.mem_cons_self) (by decide)

theorem after_textSpan_ne (a : List Char) : Mode.plain.after (textSpan a) ≠ .escaped := by
  intro h
  rw [textSpan, after_append] at h
  exact absurd (next_eq_escaped h) (by decide)

/-! ## Protecting -/

/-- A walk found the arguments of `\text`, in order; no other span and nothing outside of spans holds a
brace. -/
structure Found (as : List (List Char)) (r : List (List Char) × List Char) : Prop where
  inOrder : (as.map textSpan).Sublist r.1
  spans : ∀ span ∈ r.1, span ∈ as.map textSpan ∨ ∀ c ∈ span, isBrace c = false
  outside : ∀ c ∈ r.2, isBrace c = false

theorem Found.writeFirst (h : Found as r) (hs : ∀ c ∈ s, isBrace c = false) : Found as (writeFirst s r) :=
  ⟨h.inOrder, h.spans, fun c hc => (List.mem_append.1 hc).elim (hs c) (h.outside c)⟩

theorem isBrace_of_mem_placeholder (h : c ∈ placeholder n) : isBrace c = false := by
  refine Bool.eq_false_iff.2 fun hbrace => ?_
  simp only [isBrace, Bool.or_eq_true, beq_iff_eq] at hbrace
  rcases hbrace with rfl | rfl <;> exact absurd (isTokenChar_of_mem_placeholder h) (by decide)

/-- A span without braces is found besides. -/
theorem Found.span (h : Found as r) (hs : ∀ c ∈ s, isBrace c = false) : Found as (s :: r.1, placeholder n ++ r.2) :=
  ⟨h.inOrder.cons s, List.forall_mem_cons.2 ⟨Or.inr hs, h.spans⟩,
    fun c hc => (List.mem_append.1 hc).elim isBrace_of_mem_placeholder (h.outside c)⟩

/-- The span of an argument is found first. -/
theorem Found.text (h : Found as r) (a : List Char) : Found (a :: as) (textSpan a :: r.1, placeholder n ++ r.2) :=
  ⟨h.inOrder.cons_cons (textSpan a),
    List.forall_mem_cons.2 ⟨Or.inl List.mem_cons_self, fun span hspan => (h.spans span hspan).imp_left
      (List.mem_cons_of_mem _)⟩,
    fun c hc => (List.mem_append.1 hc).elim isBrace_of_mem_placeholder (h.outside c)⟩

/-- A text without braces has spans without braces only. -/
theorem found_of_flat (hs : ∀ c ∈ s, isBrace c = false) (n : Nat) : Found [] (Placeholders.protectFrom n 0 s) := by
  refine ⟨List.nil_sublist _, fun span hspan => Or.inr fun c hc => ?_, fun c hc => ?_⟩
  · exact hs c ((slash_infix_of_mem_protectFrom hspan).2.subset hc)
  · rw [protectFrom_snd] at hc
    obtain ⟨item, hitem, hc⟩ := List.mem_flatMap.1 hc
    cases item with
    | char d =>
      obtain rfl : c = d := by simpa [Item.render] using hc
      exact hs c (mem_of_mem_charsOf_itemsFrom (mem_charsOf.2 hitem))
    | token k => exact isBrace_of_mem_placeholder hc

/-- **A piece in front of a backslash** that is read in plain text is walked over on its own. -/
theorem Found.piece (h : ∀ n, Found as (Placeholders.protectFrom n 0 ('\\' :: y))) (hx : ∀ c ∈ x, isBrace c = false)
    (hplain : Mode.plain.after x = .plain) (n : Nat) : Found as (Placeholders.protectFrom n 0 (x ++ '\\' :: y)) := by
  induction hlen : x.length using Nat.strongRecOn generalizing x n with
  | ind len ih =>
    subst hlen
    cases x with
    | nil => exact h n
    | cons c x =>
      obtain ⟨kind, k, hm⟩ : ∃ kind k, munch c x = (kind, k) := ⟨_, _, rfl⟩
      have hmunch : munch c (x ++ '\\' :: y) = (kind, k) := by rw [munch_append_slash hplain, hm]
      have hle := munch_le_length hm
      have htoken : ∀ d ∈ c :: x.take k, isBrace d = false := fun d hd => hx d (mem_of_mem_token hd)
      have hdrop : ∀ d ∈ x.drop k, isBrace d = false := fun d hd =>
        hx d (List.mem_cons_of_mem _ (List.mem_of_mem_drop hd))
      have hbehind : Mode.plain.after (x.drop k) = .plain := by
        by_cases hrest : x.drop k = []
        · rw [hrest]
          rfl
        · rw [← after_drop hm hrest, hplain]
      have hlt : (x.drop k).length < (c :: x).length := by
        rw [List.length_drop, List.length_cons]
        omega
      have hrec := fun n => ih _ hlt hdrop hbehind n rfl
      have htake : (x ++ '\\' :: y).take k = x.take k := List.take_append_of_le_length hle
      have hrest : (x ++ '\\' :: y).drop k = x.drop k ++ '\\' :: y := List.drop_append_of_le_length hle
      rw [← htake] at htoken
      rw [List.cons_append]
      by_cases hword : isWordCommand kind (c :: (x ++ '\\' :: y).take k) = true
      · obtain ⟨name, rest, rfl, hsplit, hname, rfl⟩ := exists_word_of_munch hmunch hword
        rw [hsplit, List.drop_left] at hrest
        rw [hsplit, List.take_left] at htoken
        have hhead : rest.head? ≠ some '{' := by
          rw [hrest]
          intro hbrace
          cases hcut : x.drop name.length with
          | nil =>
            rw [hcut] at hbrace
            cases hbrace
          | cons d t =>
            rw [hcut] at hbrace hdrop
            obtain rfl : d = '{' := Option.some.inj hbrace
            exact absurd (hdrop '{' List.mem_cons_self) (by decide)
        have hfound := hrec (n + 1)
        rw [← hrest] at hfound
        rw [hsplit, ← List.cons_append, protectFrom_word hname, commandTail_of_head _ hhead, List.append_nil]
        exact hfound.span htoken
      · rw [protectFrom_of_munch hmunch (Bool.eq_false_iff.2 hword), hrest]
        have hfound := (hrec n).writeFirst htoken
        rwa [List.drop_zero, Nat.zero_sub]

/-- **Protecting finds the arguments** that a text weaves, wherever the walk before it left off. -/
theorem found_of_weaves (h : Weaves m as s) (hm : m ≠ .escaped) (n : Nat) : Found as (resume m n s) := by
  induction as generalizing m s n with
  | nil =>
    cases m with
    | escaped => exact absurd rfl hm
    | plain => exact found_of_flat h n
    | comment =>
      have hline := found_of_flat (s := s.dropWhile isInLine) (fun c hc => h c ((List.dropWhile_suffix _).subset hc)) n
      exact hline.writeFirst fun c hc => h c ((List.takeWhile_prefix _).subset hc)
  | cons a as ih =>
    obtain ⟨x, z, rfl, hx, hplain, ha, hz⟩ := h
    -- the argument, and what comes behind it
    have htext : ∀ n, Found (a :: as) (Placeholders.protectFrom n 0 (textSpan a ++ z)) := by
      intro n
      have hword : IsWordBefore ['t', 'e', 'x', 't'] ('{' :: (a ++ ['}']) ++ z) :=
        ⟨by decide, List.all_eq_true.1 (by decide), fun c hc => Option.some.inj hc ▸ rfl⟩
      have hlast : ('{' :: (a ++ ['}'])).getLast? = some '}' := by rw [← List.cons_append, List.getLast?_concat]
      have hmode : Mode.plain.after (textSpan a) = Mode.plain.after ('{' :: (a ++ ['}'])) := by
        rw [textSpan_eq, after_append]
        rfl
      have hfound := ih hz (after_textSpan_ne a) (n + 1)
      rw [hmode, ← protectFrom_covered_close hlast] at hfound
      have hspan := hfound.text a (n := n)
      rw [textSpan_eq, List.append_assoc, protectFrom_word hword, commandTail_text ha hz.head]
      rwa [textSpan_eq] at hspan
    cases m with
    | escaped => exact absurd rfl hm
    | plain => exact Found.piece htext hx hplain n
    | comment =>
      -- the comment ends in the piece in front of the argument
      rcases comment_cases x with hline | ⟨b, d, y, rfl, hline, hd⟩
      · rw [after_comment hline] at hplain
        cases hplain
      · have hend : ∀ e ∈ (d :: y ++ (textSpan a ++ z)).head?, isInLine e = false := fun e he => Option.some.inj he ▸ hd
        rw [after_append, after_comment hline, after_comment_cons hd] at hplain
        rw [resume_comment, List.append_assoc, (takeWhile_append_of_head hline hend).1,
          (takeWhile_append_of_head hline hend).2]
        have hfound := Found.piece htext (fun c hc => hx c (List.mem_append_right b hc)) hplain n
        exact hfound.writeFirst fun c hc => hx c (List.mem_append_left _ hc)

/-! ## Display delimiters -/

theorem Weaves.of_append_right (h : Weaves m as (s ++ t)) (ht : ∀ c ∈ t, isBrace c = false) : Weaves m as s := by
  induction as generalizing m s with
  | nil => exact fun c hc => h c (List.mem_append_left t hc)
  | cons a as ih =>
    obtain ⟨x, z, hs, hx, hplain, ha, hz⟩ := h
    rw [← List.append_assoc] at hs
    rcases List.append_eq_append_iff.1 hs with ⟨y, hsy, hty⟩ | ⟨y, rfl, rfl⟩
    · -- what is cut off holds no brace, so the argument is left whole
      rcases List.eq_nil_or_concat y with rfl | ⟨y, c, rfl⟩
      · obtain rfl : t = z := hty
        rw [List.append_nil] at hsy
        exact ⟨x, [], by rw [List.append_nil, hsy], hx, hplain, ha, ih (s := []) hz⟩
      · have hlast := congrArg List.getLast? hsy
        rw [textSpan, ← List.append_assoc, List.getLast?_concat, List.concat_eq_append, ← List.append_assoc,
          List.getLast?_concat] at hlast
        obtain rfl : '}' = c := Option.some.inj hlast
        exact absurd (ht '}' (by rw [hty]; simp)) (by decide)
    · exact ⟨x, y, List.append_assoc _ _ _, hx, hplain, ha, ih hz⟩

/-- What is taken away in front of the first argument leaves plain text. -/
theorem Weaves.of_append_left (h : Weaves .plain as (t ++ s)) (hplain : Mode.plain.after t = .plain)
    (hcut : ∀ x z, t ++ s = x ++ (textOpen ++ z) → Mode.plain.after x = .plain → t <+: x) : Weaves .plain as s := by
  cases as with
  | nil => exact fun c hc => h c (List.mem_append_right t hc)
  | cons a as =>
    obtain ⟨x, z, hs, hx, hafter, ha, hz⟩ := h
    have hopen : x ++ (textSpan a ++ z) = x ++ (textOpen ++ (a ++ ('}' :: z))) := by simp [textSpan]
    obtain ⟨y, rfl⟩ := hcut x _ (hs.trans hopen) hafter
    rw [after_append, hplain] at hafter
    rw [List.append_assoc, List.append_cancel_left_eq] at hs
    exact ⟨y, z, hs, fun c hc => hx c (List.mem_append_right t hc), hafter, ha, hz⟩

/-- A text without backslashes in front of an argument lies in front of its command. -/
theorem prefix_of_append_textOpen (ht : '\\' ∉ t) (h : t ++ s = x ++ (textOpen ++ z)) : t <+: x := by
  rcases List.append_eq_append_iff.1 h with ⟨y, rfl, -⟩ | ⟨y, rfl, hy⟩
  · exact List.prefix_append t y
  · cases y with
    | nil => exact ⟨[], by simp⟩
    | cons c y =>
      obtain ⟨rfl, -⟩ := List.cons.inj hy
      exact absurd (List.mem_append_right x List.mem_cons_self) ht

theorem Weaves.trim (h : Weaves .plain as s) : Weaves .plain as (trim s) := by
  obtain ⟨a, b, hs, ha, hb⟩ := append_trim s
  rw [hs] at h
  have hbrace : ∀ c ∈ b, isBrace c = false := by
    intro c hc
    obtain ⟨-, hopen, hclose⟩ := isPlain_of_isBlank (hb c hc)
    simp [isBrace, hopen, hclose]
  have hplain := plain_of_isBlank ha
  have hslash : '\\' ∉ a := fun hmem => (hplain '\\' hmem).1 rfl
  exact (h.of_append_right hbrace).of_append_left (after_of_plain hplain) fun _ _ h _ =>
    prefix_of_append_textOpen hslash h

theorem Weaves.stripDelimiters (h : Weaves .plain as s) (hs : stripDelimiters? s = some t) : Weaves .plain as t := by
  rw [stripDelimiters?, Option.orElse_eq_orElse, Option.orElse_eq_or, Option.or_eq_some_iff] at hs
  rcases hs with hs | ⟨-, hs⟩
  · rw [betweenDollars?, Option.filter_eq_some_iff, between?_eq_some_iff] at hs
    obtain ⟨rfl, -⟩ := hs
    refine Weaves.of_append_right (t := ['$', '$']) (h.of_append_left rfl fun _ _ h _ => ?_) (by simp [isBrace])
    exact prefix_of_append_textOpen (by decide) h
  · rw [betweenBrackets?, Option.filter_eq_some_iff, between?_eq_some_iff] at hs
    obtain ⟨rfl, -⟩ := hs
    refine Weaves.of_append_right (t := ['\\', ']']) (h.of_append_left rfl fun x z h hx => ?_)
      (by simp [isBrace])
    -- the bracket is no letter of the command
    rcases x with _ | ⟨c, _ | ⟨d, x⟩⟩
    · simp [textOpen] at h
    · obtain ⟨rfl, -⟩ := List.cons.inj h
      cases hx
    · obtain ⟨rfl, hd⟩ := List.cons.inj h
      obtain ⟨rfl, -⟩ := List.cons.inj hd
      exact List.prefix_append ['\\', '['] x

/-- No environment encloses the whole text. -/
theorem Weaves.stripEnvironment?_eq_none (h : Weaves m as s) : stripEnvironment? s = none := by
  rw [stripEnvironment?, List.findSome?_eq_none_iff]
  intro name _
  cases hstrip : between? (beginOf name) (endOf name) s with
  | none => rfl
  | some t =>
    rw [between?_eq_some_iff] at hstrip
    have hbegin : s = ['\\', 'b', 'e', 'g', 'i', 'n'] ++ '{' :: (name ++ '}' :: (t ++ endOf name)) := by
      simp [hstrip, beginOf]
    cases as with
    | nil => exact absurd (h '{' (by simp [hbegin])) (by decide)
    | cons a as =>
      obtain ⟨x, z, hs, hx, -⟩ := h
      have htext : s = (x ++ ['\\', 't', 'e', 'x', 't']) ++ '{' :: (a ++ '}' :: z) := by
        simp [hs, textSpan, textOpen]
      have hopen : '{' ∉ x := fun hmem => absurd (hx '{' hmem) (by decide)
      obtain ⟨hword, -⟩ := eq_of_append_cons (by simp [hopen]) (by decide) (htext.symm.trans hbegin)
      have hlast := congrArg List.getLast? hword
      rw [List.getLast?_append, Option.or_of_isSome rfl] at hlast
      exact absurd hlast (by decide)

theorem Weaves.stripDisplay (h : Weaves .plain as s) : Weaves .plain as (stripDisplay s) := by
  have hstripped : Weaves .plain as ((stripDelimiters? (Text.trim s)).getD (Text.trim s)) := by
    cases hstrip : stripDelimiters? (Text.trim s) with
    | none => exact h.trim
    | some t => exact h.trim.stripDelimiters hstrip
  rw [Tex.stripDisplay, hstripped.trim.stripEnvironment?_eq_none]
  exact hstripped.trim.trim

end MathMarkup.Tex
