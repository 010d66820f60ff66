import MathMarkup.Proofs.Normal.Covered
import MathMarkup.Proofs.Normal.Frame

/-!
# Normalizing opens no comment

The spans of commands end with a brace, so that they leave plain text behind (`Settles`). Rows are cut in
plain text and joined behind a space, and what a cosmetic rule writes is read like what it matched
(`KeepsSilence`). So a text without comments is normalized to one without comments
(`exists_of_normalizeBody`), whatever placeholder characters it holds.
-/

namespace MathMarkup.Tex

open Text

variable {rule : List Char → Option (List Char × List Char)} {m : Mode} {n : Nat}
  {s t x y name body rest out row : List Char} {rows : List (List Char)}

/-! ## Texts that leave plain text behind -/

/-- Read from anywhere but a comment, the text holds no comment and leaves plain text. -/
def Settles (s : List Char) : Prop := ∀ m : Mode, m ≠ .comment → m.Silent s ∧ m.after s = .plain

theorem Settles.append (hx : Settles x) (hsilent : Mode.plain.Silent y) (hy : Mode.plain.after y = .plain) :
    Settles (x ++ y) := by
  intro m hm
  obtain ⟨hfirst, hplain⟩ := hx m hm
  rw [silent_append, after_append, hplain]
  exact ⟨⟨hfirst, hsilent⟩, hy⟩

theorem Settles.silent_append_iff (hx : Settles x) (hm : m ≠ .comment) :
    m.Silent (x ++ t) ↔ Mode.plain.Silent t := by
  rw [silent_append, (hx m hm).2, and_iff_right (hx m hm).1]

/-- Words that settle can take each other's place. -/
theorem Settles.exchange (hx : Settles x) (hy : Settles y) (h : m.Silent (x ++ t)) : m.Silent (y ++ t) :=
  (hy.silent_append_iff h.ne_comment).2 ((hx.silent_append_iff h.ne_comment).1 h)

theorem settles_name (hne : name ≠ []) (hletters : ∀ c ∈ name, isCommandLetter c = true) : Settles ('\\' :: name) :=
  fun _ hm => ⟨silent_name hne hletters hm, after_name hne hletters hm⟩

theorem settles_of_plain (hne : s ≠ []) (hs : ∀ c ∈ s, c ≠ '\\' ∧ c ≠ '%') : Settles s := by
  intro m hm
  have hsilent := silent_of_plain hs hm
  exact ⟨hsilent, hsilent.after_eq_plain ⟨s.getLast hne, List.getLast?_eq_some_getLast hne,
    (hs _ (List.getLast_mem hne)).1⟩⟩

theorem settles_placeholder (n : Nat) : Settles (placeholder n) := by
  refine settles_of_plain (List.cons_ne_nil _ _) fun c hc => ?_
  constructor <;> (rintro rfl; exact absurd (isTokenChar_of_mem_placeholder hc) (by decide))

/-- It is enough to look at the two modes that are no comment. -/
theorem settles_of_modes (hplain : Mode.plain.Silent s ∧ Mode.plain.after s = .plain)
    (hescaped : Mode.escaped.Silent s ∧ Mode.escaped.after s = .plain) : Settles s := by
  intro m hm
  cases m with
  | plain => exact hplain
  | escaped => exact hescaped
  | comment => exact absurd rfl hm

/-! ## Protected text -/

theorem Mode.Silent.protectFrom_tail (h : Mode.plain.Silent x) (hlast : ∀ c ∈ x.getLast?, c = '}') (n : Nat)
    (y : List Char) : Placeholders.protectFrom n x.length (x ++ y) = Placeholders.protectFrom n 0 y := by
  by_cases hne : x = []
  · rw [hne]
    rfl
  · have hclose := List.getLast?_eq_some_getLast hne
    rw [protectFrom_covered_close (hlast _ hclose ▸ hclose), resume_of_ne h.after_ne_comment]

/-- In a text without comments a span leaves plain text behind, and the walk goes on there as at the start of a
text. -/
theorem protectFrom_span (hname : IsWordBefore name rest) (h : Mode.plain.Silent rest) (n : Nat) :
    ∃ tail y, rest = tail ++ y ∧ commandTail ('\\' :: name) rest = tail ∧ Mode.plain.Silent tail ∧
      Mode.plain.after tail = .plain ∧ Mode.plain.Silent y ∧
      Placeholders.protectFrom n 0 ('\\' :: name ++ rest) =
        (('\\' :: name ++ tail) :: (Placeholders.protectFrom (n + 1) 0 y).1,
          placeholder n ++ (Placeholders.protectFrom (n + 1) 0 y).2) := by
  obtain ⟨y, hy⟩ := commandTail_prefix_rest ('\\' :: name) rest
  have hlast := getLast?_commandTail ('\\' :: name) rest
  rw [protectFrom_word hname]
  refine ⟨commandTail ('\\' :: name) rest, y, hy.symm, rfl, ?_⟩
  generalize commandTail ('\\' :: name) rest = tail at hy hlast ⊢
  subst hy
  obtain ⟨htail, hy⟩ := silent_append.1 h
  have hplain : Mode.plain.after tail = .plain := by
    by_cases hne : tail = []
    · rw [hne]
      rfl
    · refine htail.after_eq_plain ⟨tail.getLast hne, List.getLast?_eq_some_getLast hne, ?_⟩
      rw [hlast _ (List.getLast?_eq_some_getLast hne)]
      decide
  rw [hplain] at hy
  exact ⟨htail, hplain, hy, by rw [htail.protectFrom_tail hlast]⟩

/-- **Protecting** opens no comment, and the spans settle. -/
theorem silent_protectFrom (h : Mode.plain.Silent s) (n : Nat) :
    Mode.plain.Silent (Placeholders.protectFrom n 0 s).2 ∧
      ∀ span ∈ (Placeholders.protectFrom n 0 s).1, Settles span := by
  induction hlen : s.length using Nat.strongRecOn generalizing s n with
  | ind len ih =>
    cases s with
    | nil => exact ⟨by simpa [Placeholders.protectFrom] using h, by simp [Placeholders.protectFrom]⟩
    | cons c s =>
      obtain ⟨kind, k, hm⟩ : ∃ kind k, munch c s = (kind, k) := ⟨_, _, rfl⟩
      by_cases hword : isWordCommand kind (c :: s.take k) = true
      · obtain ⟨name, rest, rfl, rfl, hname, -⟩ := exists_word_of_munch hm hword
        have hsettles := settles_name hname.ne_nil hname.letters
        rw [← List.cons_append, hsettles.silent_append_iff Mode.noConfusion] at h
        obtain ⟨tail, y, rfl, -, htail, hplain, hy, hwalk⟩ := protectFrom_span hname h n
        rw [← List.cons_append, hwalk]
        have hlt : y.length < len := by
          rw [← hlen, List.length_cons, List.length_append, List.length_append]
          omega
        obtain ⟨hout, hspans⟩ := ih y.length hlt hy (n + 1) rfl
        refine ⟨((settles_placeholder n).silent_append_iff Mode.noConfusion).2 hout, ?_⟩
        exact List.forall_mem_cons.2 ⟨hsettles.append htail hplain, hspans⟩
      · obtain ⟨hkind, hbehind⟩ := h.munch hm
        obtain ⟨htoken, hplain⟩ := silent_token hm hkind
        rw [protectFrom_of_munch hm (Bool.eq_false_iff.2 hword), List.drop_zero, Nat.zero_sub]
        by_cases hrest : s.drop k = []
        · rw [hrest]
          exact ⟨by simpa [writeFirst, Placeholders.protectFrom] using htoken,
            by simp [writeFirst, Placeholders.protectFrom]⟩
        · have hlt : (s.drop k).length < len := by
            rw [← hlen, List.length_cons, List.length_drop]
            omega
          obtain ⟨hout, hspans⟩ := ih _ hlt hbehind n rfl
          exact ⟨silent_append.2 ⟨htoken, by rwa [hplain hrest]⟩, hspans⟩

/-! ## Rows -/

theorem Mode.Silent.of_blanks (ha : ∀ c ∈ x, isBlank c = true) (h : Mode.plain.Silent (x ++ s)) :
    Mode.plain.Silent s := by
  rw [silent_append, after_of_plain (plain_of_isBlank ha)] at h
  exact h.2

theorem Mode.Silent.trimStart (h : Mode.plain.Silent s) : Mode.plain.Silent (trimStart s) := by
  rw [← trimStart_append s] at h
  exact h.of_blanks isBlank_of_mem_takeWhile

theorem Mode.Silent.trim (h : Mode.plain.Silent s) : Mode.plain.Silent (trim s) := by
  obtain ⟨a, b, hs, ha, -⟩ := append_trim s
  rw [hs, silent_append] at h
  exact h.1.of_blanks ha

theorem Mode.Silent.afterLineBreaks (h : Mode.plain.Silent s) : Mode.plain.Silent (afterLineBreaks s) := by
  fun_induction Tex.afterLineBreaks s with
  | case1 s ih => exact ih (Mode.Silent.trimStart h.2.2)
  | case2 s => exact h

/-- Rows are cut in plain text. -/
theorem silent_of_mem_breakRows (h : Mode.plain.Silent s) (hrow : row ∈ breakRows s) : Mode.plain.Silent row := by
  fun_induction breakRows s with
  | case1 s hnone => rwa [List.mem_singleton.1 hrow]
  | case2 s first rest hsome ih =>
    obtain ⟨rfl, hfirst⟩ := (breakOn?_eq_some_iff (by simp [lineBreak])).1 hsome
    rw [List.append_assoc, silent_append] at h
    obtain ⟨hsilent, hbehind⟩ := h
    -- the break is the first one, so no backslash stands in front of it
    have hplain : Mode.plain.after first = .plain := by
      by_cases hne : first = []
      · rw [hne]
        rfl
      · refine hsilent.after_eq_plain ⟨first.getLast hne, List.getLast?_eq_some_getLast hne, fun hslash => hfirst ?_⟩
        refine ⟨first.dropLast, [], ?_⟩
        conv => rhs; rw [← List.dropLast_append_getLast hne, hslash]
        simp [lineBreak]
    rcases List.mem_cons.1 hrow with rfl | hrow
    · exact hsilent
    · rw [hplain] at hbehind
      exact ih (Mode.Silent.trimStart hbehind.2.2).afterLineBreaks hrow

theorem settles_rowBreak : Settles [' ', '\\', '\\', ' '] := settles_of_modes (by decide) (by decide)

theorem silent_joinRows (h : ∀ row ∈ rows, Mode.plain.Silent row) : Mode.plain.Silent (joinRows rows) := by
  have hbehind : ∀ (rows : List (List Char)) (m : Mode), (∀ row ∈ rows, Mode.plain.Silent row) → m ≠ .comment →
      m.Silent (rows.flatMap fun row => [' ', '\\', '\\', ' '] ++ row) := by
    intro rows
    induction rows with
    | nil => exact fun m _ hm => hm
    | cons row rows ih =>
      intro m h hm
      obtain ⟨hrow, hrows⟩ := List.forall_mem_cons.1 h
      rw [List.flatMap_cons, List.append_assoc, settles_rowBreak.silent_append_iff hm, silent_append]
      exact ⟨hrow, ih _ hrows hrow.after_ne_comment⟩
  cases rows with
  | nil => exact Mode.noConfusion
  | cons row rows =>
    obtain ⟨hrow, hrows⟩ := List.forall_mem_cons.1 h
    rw [joinRows_cons, silent_append]
    exact ⟨hrow, hbehind rows _ hrows hrow.after_ne_comment⟩

theorem silent_anchored (h : Mode.plain.Silent row) : Mode.plain.Silent (anchored row) := by
  unfold anchored
  split
  · exact h
  · exact ⟨Mode.noConfusion, Mode.noConfusion, h⟩

theorem silent_inFrame (h : Mode.plain.Silent s) : Mode.plain.Silent (inFrame s) := by
  rw [inFrame, List.append_assoc, silent_append]
  refine ⟨by decide, silent_append.2 ⟨h, ?_⟩⟩
  have hclosing : Settles alignClosing := settles_of_modes (by decide) (by decide)
  exact (hclosing _ h.after_ne_comment).1

/-- **The line normalizer** opens no comment. -/
theorem silent_normalizeLines (h : Mode.plain.Silent s) : Mode.plain.Silent (normalizeLines s) := by
  have hrows : ∀ row ∈ splitRows (collapseLineBreaks s), Mode.plain.Silent row := by
    intro row hrow
    rw [splitRows, splitOn_collapseLineBreaks, List.mem_filter, List.mem_map] at hrow
    obtain ⟨⟨row, hmem, rfl⟩, -⟩ := hrow
    exact (silent_of_mem_breakRows h hmem).trim
  rw [normalizeLines_eq_inFrame]
  refine silent_inFrame (silent_joinRows fun row hrow => ?_)
  cases hsplit : splitRows (collapseLineBreaks s) with
  | nil =>
    rw [hsplit] at hrow
    cases hrow
  | cons first rows =>
    rw [hsplit] at hrow hrows
    rcases List.mem_cons.1 hrow with rfl | hrow
    · exact hrows _ List.mem_cons_self
    · obtain ⟨row, hmem, rfl⟩ := List.mem_map.1 hrow
      exact silent_anchored (hrows row (List.mem_cons_of_mem _ hmem))

/-! ## Substitutions -/

/-- What the rule writes is read like what it matched: it opens no comment, in it or behind it. -/
def KeepsSilence (rule : List Char → Option (List Char × List Char)) : Prop :=
  ∀ (m : Mode) s out rest, rule s = some (out, rest) → m.Silent s → m.Silent (out ++ rest)

theorem KeepsSilence.silent_substitute (h : KeepsSilence rule) (hs : m.Silent s) : m.Silent (substitute rule s) := by
  fun_induction substitute rule s generalizing m with
  | case1 => exact hs
  | case2 c s hnone ih => exact ⟨hs.1, ih hs.2⟩
  | case3 c s out rest hsome hlen ih =>
    obtain ⟨hout, hrest⟩ := silent_append.1 (h m _ _ _ hsome hs)
    exact silent_append.2 ⟨hout, ih hrest⟩
  | case4 c s out rest hsome hlen ih => exact ⟨hs.1, ih hs.2⟩

theorem keepsSilence_spacing {accepts : Char → Bool} {space : List Char} (hspace : Settles space) :
    KeepsSilence (spacing accepts space) := by
  intro m s out rest h hs
  obtain ⟨c, -, rfl, rfl⟩ := spacing_eq_some_iff.1 h
  have hopen : Settles textOpen := settles_of_modes (by decide) (by decide)
  have hspaced : Settles (space ++ textOpen) := hspace.append (by decide) (by decide)
  exact ⟨hs.1, hopen.exchange hspaced hs.2⟩

theorem silent_close (h : m.Silent ('}' :: s)) : Mode.plain.Silent s := by
  have := h.2
  rwa [next_eq_plain (by decide) (by decide) h.1] at this

theorem keepsSilence_doubledBracesRule : KeepsSilence doubledBracesRule := by
  intro m s out rest h hs
  obtain ⟨body, -, rfl, rfl⟩ := doubledBracesRule_eq_some_iff.1 h
  have hopen : Settles textOpen := settles_of_modes (by decide) (by decide)
  have hm := hs.ne_comment
  rw [hopen.silent_append_iff hm] at hs
  obtain ⟨hbody, hclose⟩ : Mode.plain.Silent body ∧ (Mode.plain.after body).Silent ('}' :: '}' :: rest) :=
    silent_append.1 hs.2
  rw [List.append_assoc, List.append_assoc, hopen.silent_append_iff hm, silent_append]
  have hrest : ((Mode.plain.after body).next '}').Silent rest := by
    rw [next_eq_plain (by decide) (by decide) hclose.1]
    exact silent_close (silent_close hclose)
  exact ⟨hbody, hclose.1, hrest⟩

theorem getLast?_of_closeNested? {opened : Nat} (h : closeNested? n opened s = some (body, rest)) :
    body.getLast? = some '}' := by
  induction s generalizing opened body rest with
  | nil => cases h
  | cons c s ih =>
    have hstep : ∀ opened, ((closeNested? n opened s).map fun read => (c :: read.1, read.2)) = some (body, rest) →
        body.getLast? = some '}' := fun opened => getLast?_of_map_append (fun _ _ => ih) [c]
    simp only [closeNested?] at h
    split at h
    · rename_i hc
      split at h
      · obtain ⟨rfl, -⟩ := Prod.mk.inj (Option.some.inj h)
        rw [hc]
        rfl
      · exact hstep _ h
    · split at h
      · split at h
        · exact hstep _ h
        · cases h
      · exact hstep _ h

theorem getLast?_splitNested (s : List Char) : ∀ c ∈ (splitNested s).1.getLast?, c = '}' := by
  fun_induction splitNested s with
  | case1 => simp
  | case2 t hnone => simp
  | case4 c t hc => simp
  | case3 t body rest hsome groups rest' hrec ih =>
    rw [hrec] at ih
    intro c hc
    have hbody := getLast?_of_closeNested? hsome
    have hne : body ≠ [] := by
      rintro rfl
      cases hbody
    rw [List.cons_append, ← List.singleton_append, ← List.append_assoc, List.getLast?_append, List.singleton_append,
      List.getLast?_cons_of_ne_nil hne, hbody] at hc
    cases hlast : groups.getLast? with
    | some d =>
      rw [hlast, Option.some_or] at hc
      exact Option.some.inj hc ▸ ih d hlast
    | none =>
      rw [hlast, Option.none_or] at hc
      exact (Option.some.inj hc).symm

/-- What a color applies to ends with no backslash. -/
theorem getLast?_of_colored? (h : colored? s = some (out, rest)) : ∃ c ∈ out.getLast?, c ≠ '\\' := by
  cases s with
  | nil => cases h
  | cons c s =>
    by_cases hslash : c = '\\'
    · rw [hslash, colored?_slash] at h
      split at h
      · cases h
      · rename_i hne
        obtain ⟨rfl, -⟩ := Prod.mk.inj (Option.some.inj h)
        rw [List.getLast?_append, List.getLast?_cons_of_ne_nil hne]
        cases hlast : (splitNested (s.dropWhile Char.isAlpha)).1.getLast? with
        | some d =>
          rw [Option.some_or]
          refine ⟨d, rfl, ?_⟩
          rw [getLast?_splitNested _ d hlast]
          decide
        | none =>
          rw [Option.none_or, List.getLast?_eq_some_getLast hne]
          refine ⟨_, rfl, fun hd => ?_⟩
          have hletter := List.mem_takeWhile_imp (List.getLast_mem hne)
          rw [hd] at hletter
          cases hletter
    · obtain ⟨rfl, -⟩ := eq_of_colored?_ne hslash h
      exact ⟨c, rfl, hslash⟩

theorem keepsSilence_coloredTokenRule : KeepsSilence coloredTokenRule := by
  intro m s out rest h hs
  obtain ⟨color, behind, token, -, rfl, htoken, rfl⟩ := coloredTokenRule_eq_some h
  have hopen : Settles colorOpen := settles_of_modes (by decide) (by decide)
  have hm := hs.ne_comment
  have hlast := getLast?_of_colored? htoken
  rw [append_of_colored? htoken, hopen.silent_append_iff hm] at hs
  obtain ⟨hcolor, hbehind⟩ := silent_append.1 hs
  have hclosed := silent_close hbehind
  obtain ⟨hsilent, hrest⟩ := silent_append.1 hclosed
  have hplain := hsilent.after_eq_plain hlast
  rw [hplain] at hrest
  have hbrace : Mode.plain.Silent ('{' :: (token ++ '}' :: rest)) := by
    have hbehind : (Mode.plain.after token).Silent ('}' :: rest) := by
      rw [hplain]
      exact ⟨Mode.noConfusion, hrest⟩
    exact ⟨Mode.noConfusion, silent_append.2 ⟨hsilent, hbehind⟩⟩
  have hwritten : Mode.plain.Silent (color ++ '}' :: '{' :: (token ++ '}' :: rest)) := by
    refine silent_append.2 ⟨hcolor, hbehind.1, ?_⟩
    rwa [next_eq_plain (by decide) (by decide) hbehind.1]
  have hout : colorOpen ++ color ++ ['}', '{'] ++ token ++ ['}'] ++ rest =
      colorOpen ++ (color ++ '}' :: '{' :: (token ++ '}' :: rest)) := by simp
  rw [hout, hopen.silent_append_iff hm]
  exact hwritten

/-- **The cosmetic fixes** open no comment. -/
theorem silent_cosmetic (h : Mode.plain.Silent s) : Mode.plain.Silent (cosmetic s) := by
  have hthin : KeepsSilence thinSpaceRule :=
    thinSpaceRule_eq_spacing ▸ keepsSilence_spacing (settles_of_modes (by decide) (by decide))
  have hspace : KeepsSilence spaceRule :=
    spaceRule_eq_spacing ▸ keepsSilence_spacing (settles_of_modes (by decide) (by decide))
  exact hspace.silent_substitute (keepsSilence_coloredTokenRule.silent_substitute
    (keepsSilence_doubledBracesRule.silent_substitute (hthin.silent_substitute h)))

/-! ## Restoring -/

/-- Writes `new` for every `word`. -/
def exchange (word new : List Char) (s : List Char) : Option (List Char × List Char) := (after? word s).map (new, ·)

theorem exchange_eq_some (h : exchange x y s = some (out, rest)) : s = x ++ rest ∧ out = y := by
  rw [exchange, Option.map_eq_some_iff] at h
  obtain ⟨r, hr, heq⟩ := h
  obtain ⟨rfl, rfl⟩ := Prod.mk.inj heq
  exact ⟨after?_eq_some_iff.1 hr, rfl⟩

theorem keepsSilence_exchange (hx : Settles x) (hy : Settles y) : KeepsSilence (exchange x y) := by
  intro m s out rest h hs
  obtain ⟨rfl, rfl⟩ := exchange_eq_some h
  exact hx.exchange hy hs

theorem keepsFrame_exchange (n : Nat) (span : List Char) : KeepsFrame (exchange (placeholder n) span) where
  opening := by
    intro i (hi : i < 15) s
    interval_cases i <;> rfl
  closing := by
    intro i (hi : i < 13)
    interval_cases i <;> rfl
  inside := by
    intro s out rest h
    have hspace : ' ' ∉ placeholder n := fun hmem =>
      absurd (isTokenChar_of_mem_placeholder hmem) (by decide)
    obtain ⟨t, -, ht⟩ := exists_of_append_word hspace (exchange_eq_some h).1
    exact ⟨t, ht⟩

/-- **Putting spans back** into rows keeps the frame, and spans that settle open no comment. -/
theorem exists_restore_inFrame (p : Placeholders) (s : List Char) : ∃ t, p.restore (inFrame s) = inFrame t ∧
    ((∀ span ∈ p.spans, Settles span) → Mode.plain.Silent (inFrame s) → Mode.plain.Silent (inFrame t)) := by
  have hentries : ∀ entry ∈ p.entries, ∃ n, entry.1 = placeholder n ∧ entry.2 ∈ p.spans := by
    intro entry hentry
    obtain ⟨⟨span, n⟩, hmem, rfl⟩ := List.mem_map.1 hentry
    exact ⟨n, rfl, (List.mem_zipIdx' hmem).2 ▸ List.getElem_mem _⟩
  rw [Placeholders.restore]
  generalize p.entries = entries at hentries
  induction entries generalizing s with
  | nil => exact ⟨s, rfl, fun _ h => h⟩
  | cons entry entries ih =>
    obtain ⟨word, span⟩ := entry
    obtain ⟨⟨n, hn, hmem⟩, hrest⟩ := List.forall_mem_cons.1 hentries
    obtain rfl : word = placeholder n := hn
    obtain ⟨r, hr⟩ := (keepsFrame_exchange n span).exists_substitute s
    obtain ⟨t, ht, hsilent⟩ := ih r hrest
    refine ⟨t, ?_, fun hspans hs => hsilent hspans ?_⟩
    · have hstep : replaceAll (placeholder n) span (inFrame s) = inFrame r := hr
      rw [List.foldl_cons, ← ht, ← hstep]
    · rw [← hr]
      exact (keepsSilence_exchange (settles_placeholder n) (hspans _ hmem)).silent_substitute hs

/-! ## The body -/

/-- What a protected pass without errors gives is the restored text, without placeholder characters. -/
theorem of_withCommandsProtected {stage : String} {pass : List Char → List Char} {r : List Char}
    (h : withCommandsProtected stage s (fun t => .ok (pass t)) = .ok r) :
    r = (Placeholders.empty.protect s).1.restore (pass (Placeholders.empty.protect s).2) ∧ hasMark r = false := by
  simp only [withCommandsProtected, bind, Except.bind] at h
  split at h
  · cases h
  · split at h
    · cases h
    · rename_i hmark
      obtain rfl := Except.ok.inj h
      exact ⟨rfl, Bool.eq_false_iff.2 hmark⟩

/-- Whatever the expression, without an error the normal form is in the frame. It is read without comments
when the bare expression holds none. -/
theorem exists_of_normalizeBody (h : normalizeBody s = .ok body) : ∃ t, body = inFrame t ∧
    (Mode.plain.Silent (stripDisplay s) → Mode.plain.Silent (inFrame t)) := by
  simp only [normalizeBody, bind, Except.bind] at h
  split at h
  · cases h
  · rename_i aligned haligned
    obtain rfl := Except.ok.inj h
    obtain ⟨hrestored, hmark⟩ := of_withCommandsProtected haligned
    rw [normalizeLines_eq_inFrame] at hrestored
    obtain ⟨restored, hframed, hsilent⟩ := exists_restore_inFrame (Placeholders.empty.protect (stripDisplay s)).1
      (joinRows (anchorRows (splitRows (collapseLineBreaks (Placeholders.empty.protect (stripDisplay s)).2))))
    rw [hframed] at hrestored
    subst hrestored
    obtain ⟨fixed, hfixed, -⟩ := exists_cosmetic_inFrame restored hmark
    refine ⟨fixed, hfixed, fun hs => ?_⟩
    obtain ⟨hout, hspans⟩ := silent_protectFrom hs 0
    rw [← hfixed]
    exact silent_cosmetic (hsilent hspans (silent_normalizeLines hout))

end MathMarkup.Tex
