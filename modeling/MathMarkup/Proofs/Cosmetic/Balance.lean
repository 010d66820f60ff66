import MathMarkup.Proofs.Normal.Places
import MathMarkup.Proofs.Normal.Silence
import MathMarkup.Proofs.Text.Levels

/-!
# The cosmetic fixes keep groups closed

The cosmetic rules take every brace for a brace, the lexer only one that is not escaped. `Mode.braces` are
the braces of a text as the lexer reads them, and `Mode.Leaves` tells how many groups a text leaves open. No
rule changes what a text without comments leaves open (`KeepsLevel`): a brace that is put in or taken out is
never escaped, and it has its partner in the same match.

Main theorem: `hasBalancedBraces_cosmetic`.
-/

namespace MathMarkup.Tex

open Text

variable {m : Mode} {c : Char} {s t body : List Char} {d e : Nat}
variable {rule : List Char → Option (List Char × List Char)}

/-! ## Braces and groups -/

/-- Whether the token is a brace, and then whether it opens a group. -/
def Token.opens? (t : Token) : Option Bool :=
  match t.kind with
  | .lbrace => some true
  | .rbrace => some false
  | _ => none

/-- The brace tokens of the text are balanced: none closes a group that was never opened, and all groups
are closed in the end. -/
def HasBalancedBraces (s : List Char) : Prop := level? 0 ((tokens s).filterMap Token.opens?) = some 0

instance (s : List Char) : Decidable (HasBalancedBraces s) := inferInstanceAs (Decidable (_ = _))

/-! ## Braces as the lexer reads them -/

/-- The brace that the text starts with. -/
def braceAt? : List Char → Option Bool
  | '{' :: _ => some true
  | '}' :: _ => some false
  | _ => none

theorem braceAt?_eq_none (hc : isBrace c = false) (s : List Char) : braceAt? (c :: s) = none := by
  simp only [isBrace, Bool.or_eq_false_iff, beq_eq_false_iff_ne] at hc
  unfold braceAt?
  split
  · rename_i h
    exact absurd (List.cons.inj h).1 hc.1
  · rename_i h
    exact absurd (List.cons.inj h).1 hc.2
  · rfl

theorem braceAt?_append (hs : s ≠ []) (t : List Char) : braceAt? (s ++ t) = braceAt? s := by
  obtain ⟨c, s, rfl⟩ := List.exists_cons_of_ne_nil hs
  unfold braceAt?
  simp only [List.cons_append]
  split <;> simp_all

/-- The braces of a text that is read in this mode, as far as they are read as they stand. -/
def Mode.braces (m : Mode) (s : List Char) : List Bool := (m.places s).filterMap braceAt?

/-- **The brace tokens** of a text are its braces that are read as they stand. -/
theorem filterMap_opens? (s : List Char) : (tokens s).filterMap Token.opens? = Mode.plain.braces s := by
  have hspecial : ∀ c s, isSpecial c = false → braceAt? (c :: s) = none := by
    intro c s hc
    refine braceAt?_eq_none (Bool.eq_false_iff.2 fun hbrace => ?_) s
    simp only [isBrace, Bool.or_eq_true, beq_iff_eq] at hbrace
    rcases hbrace with rfl | rfl <;> cases hc
  have htoken : ∀ offset c s kind k, munch c s = (kind, k) →
      Token.opens? ⟨kind, c :: s.take k, offset⟩ = braceAt? (c :: s) := by
    intro offset c s kind k h
    by_cases hopen : c = '{'
    · subst hopen
      obtain ⟨rfl, rfl⟩ := Prod.mk.inj h
      rfl
    by_cases hclose : c = '}'
    · subst hclose
      obtain ⟨rfl, rfl⟩ := Prod.mk.inj h
      rfl
    have hbrace : isBrace c = false := by simp [isBrace, hopen, hclose]
    rw [braceAt?_eq_none hbrace]
    have hfits := fits_munch h
    cases kind with
    | lbrace => exact absurd (List.cons.inj hfits).1 hopen
    | rbrace => exact absurd (List.cons.inj hfits).1 hclose
    | _ => rfl
  calc (tokens s).filterMap Token.opens?
      = ((withRest (tokens s)).map Prod.fst).filterMap Token.opens? := by rw [map_fst_withRest]
    _ = (withRest (tokens s)).filterMap (Token.opens? ∘ Prod.fst) := List.filterMap_map
    _ = Mode.plain.braces s := filterMap_withRest hspecial htoken

theorem braces_append (m : Mode) (s t : List Char) : m.braces (s ++ t) = m.braces s ++ (m.after s).braces t :=
  filterMap_places_append (fun _ hx => braceAt?_append hx t) m s

theorem braces_of_flat (hs : ∀ c ∈ s, isBrace c = false) (m : Mode) : m.braces s = [] := by
  refine List.filterMap_eq_nil_iff.2 fun x hx => ?_
  obtain ⟨c, y, rfl⟩ := List.exists_cons_of_ne_nil (ne_nil_of_mem_places hx)
  exact braceAt?_eq_none (hs c ((suffix_of_mem_places hx).subset List.mem_cons_self)) y

/-! ## What a text leaves open -/

/-- Read in this mode with `d` groups open in front of it, the text leaves `e` groups open, and nothing of it
is read as a comment. -/
structure Mode.Leaves (m : Mode) (d : Nat) (s : List Char) (e : Nat) : Prop where
  silent : m.Silent s
  level : level? d (m.braces s) = some e

theorem leaves_append : m.Leaves d (s ++ t) e ↔ ∃ d', m.Leaves d s d' ∧ (m.after s).Leaves d' t e := by
  constructor
  · rintro ⟨hsilent, hlevel⟩
    rw [silent_append] at hsilent
    rw [braces_append, level?_append, Option.bind_eq_some_iff] at hlevel
    obtain ⟨d', hs, ht⟩ := hlevel
    exact ⟨d', ⟨hsilent.1, hs⟩, ⟨hsilent.2, ht⟩⟩
  · rintro ⟨d', hs, ht⟩
    refine ⟨silent_append.2 ⟨hs.silent, ht.silent⟩, ?_⟩
    rw [braces_append, level?_append, hs.level]
    exact ht.level

theorem leaves_plain_iff :
    Mode.plain.Leaves 0 s 0 ↔ (∀ t ∈ tokens s, t.kind ≠ .comment) ∧ HasBalancedBraces s := by
  rw [HasBalancedBraces, filterMap_opens?, ← silent_iff_tokens]
  exact ⟨fun h => ⟨h.silent, h.level⟩, fun h => ⟨h.1, h.2⟩⟩

/-- What the rule writes leaves the same groups open as what it matched. -/
def KeepsLevel (rule : List Char → Option (List Char × List Char)) : Prop :=
  ∀ (m : Mode) d e s out rest, rule s = some (out, rest) → m.Leaves d s e → m.Leaves d (out ++ rest) e

theorem KeepsLevel.substitute (h : KeepsLevel rule) (hs : m.Leaves d s e) : m.Leaves d (substitute rule s) e := by
  have hkeep : ∀ {c s t d e} {m : Mode}, (∀ {d} {m : Mode}, m.Leaves d s e → m.Leaves d t e) →
      m.Leaves d (c :: s) e → m.Leaves d (c :: t) e := by
    intro c s t d e m ih hs
    obtain ⟨d', hc, hs⟩ := (leaves_append (s := [c])).1 hs
    exact (leaves_append (s := [c])).2 ⟨d', hc, ih hs⟩
  fun_induction Text.substitute rule s generalizing m d with
  | case1 => exact hs
  | case2 c s hnone ih => exact hkeep ih hs
  | case3 c s out rest hsome hlen ih =>
    obtain ⟨d', hout, hrest⟩ := leaves_append.1 (h m d e _ _ _ hsome hs)
    exact leaves_append.2 ⟨d', hout, ih hrest⟩
  | case4 c s out rest hsome hlen ih => exact hkeep ih hs

/-! ## The rules -/

theorem braces_open (hm : m ≠ .comment) {word : List Char}
    (hword : word = textOpen ∨ word = colorOpen) (s : List Char) :
    m.braces (word ++ s) = true :: Mode.plain.braces s := by
  rw [braces_append]
  rcases hword with rfl | rfl
  · cases m with
    | comment => exact absurd rfl hm
    | plain => rfl
    | escaped => rfl
  · cases m with
    | comment => exact absurd rfl hm
    | plain => rfl
    | escaped => rfl

/-- Behind a closing brace the text is read as it stands. -/
theorem braces_close (hm : m ≠ .comment) (s : List Char) :
    m.braces ('}' :: s) = m.braces ['}'] ++ Mode.plain.braces s := by
  have happend := braces_append m ['}'] s
  have hplain : m.after ['}'] = .plain := next_eq_plain (by decide) (by decide) hm
  rwa [hplain] at happend

theorem keepsLevel_spacing {accepts : Char → Bool} {space : List Char} (hspace : Settles space)
    (hflat : ∀ c ∈ space, isBrace c = false) : KeepsLevel (spacing accepts space) := by
  intro m d e s out rest h hs
  refine ⟨keepsSilence_spacing hspace m s out rest h hs.silent, ?_⟩
  obtain ⟨c, -, rfl, rfl⟩ := spacing_eq_some_iff.1 h
  have hnext : m.next c ≠ .comment := hs.silent.2.ne_comment
  have hplain : (m.next c).after space = .plain := (hspace _ hnext).2
  have hbraces : (m.next c).braces (space ++ (textOpen ++ rest)) = (m.next c).braces (textOpen ++ rest) := by
    rw [braces_append, braces_of_flat hflat, hplain, braces_open Mode.noConfusion (Or.inl rfl),
      braces_open hnext (Or.inl rfl), List.nil_append]
  have hlevel := hs.level
  rw [← List.singleton_append, braces_append] at hlevel
  have hout : c :: (space ++ textOpen) ++ rest = [c] ++ (space ++ (textOpen ++ rest)) := by simp
  rw [hout, braces_append]
  exact hbraces ▸ hlevel

theorem keepsLevel_doubledBracesRule : KeepsLevel doubledBracesRule := by
  intro m d e s out rest h hs
  refine ⟨keepsSilence_doubledBracesRule m s out rest h hs.silent, ?_⟩
  obtain ⟨body, hbody, rfl, rfl⟩ := doubledBracesRule_eq_some_iff.1 h
  have hm := hs.silent.ne_comment
  have hopen : Settles textOpen := settles_of_modes (by decide) (by decide)
  have hafter : Mode.plain.after body ≠ .comment := by
    have hbehind := (hopen.silent_append_iff hm).1 hs.silent
    exact (silent_append.1 hbehind.2).2.ne_comment
  have hlevel := hs.level
  have hdoubled : Mode.plain.braces ('{' :: (body ++ '}' :: '}' :: rest)) =
      true :: (Mode.plain.after body).braces ['}'] ++ false :: Mode.plain.braces rest := by
    have hbrace := braces_append .plain ['{'] (body ++ '}' :: '}' :: rest)
    have hinner : Mode.plain.braces (body ++ '}' :: '}' :: rest) =
        (Mode.plain.after body).braces ['}'] ++ false :: Mode.plain.braces rest := by
      rw [braces_append, braces_of_flat hbody, braces_close hafter, braces_close (m := .plain) Mode.noConfusion]
      rfl
    exact hbrace.trans (congrArg (true :: ·) hinner)
  have hsingle : Mode.plain.braces (body ++ '}' :: rest) =
      (Mode.plain.after body).braces ['}'] ++ Mode.plain.braces rest := by
    rw [braces_append, braces_of_flat hbody, braces_close hafter]
    rfl
  have hout : textOpen ++ body ++ ['}'] ++ rest = textOpen ++ (body ++ '}' :: rest) := by simp
  rw [braces_open hm (Or.inl rfl), hdoubled] at hlevel
  rw [hout, braces_open hm (Or.inl rfl), hsingle]
  -- the brace behind the text is escaped when a backslash ends the text
  cases hmode : Mode.plain.after body with
  | comment => exact absurd hmode hafter
  | plain =>
    rw [hmode] at hlevel
    exact hlevel
  | escaped =>
    rw [hmode] at hlevel
    exact hlevel

theorem keepsLevel_coloredTokenRule : KeepsLevel coloredTokenRule := by
  intro m d e s out rest h hs
  refine ⟨keepsSilence_coloredTokenRule m s out rest h hs.silent, ?_⟩
  obtain ⟨color, behind, token, hcolor, rfl, htoken, rfl⟩ := coloredTokenRule_eq_some h
  have hm := hs.silent.ne_comment
  have hopen : Settles colorOpen := settles_of_modes (by decide) (by decide)
  rw [append_of_colored? htoken] at hs
  have hcolored := (silent_append.1 ((hopen.silent_append_iff hm).1 hs.silent)).2
  have hafter : Mode.plain.after color ≠ .comment := hcolored.ne_comment
  have hplain : Mode.plain.after token = .plain :=
    (silent_append.1 (silent_close hcolored)).1.after_eq_plain (getLast?_of_colored? htoken)
  have hcolors : ∀ x, m.braces (colorOpen ++ (color ++ '}' :: x)) =
      true :: (Mode.plain.after color).braces ['}'] ++ Mode.plain.braces x := by
    intro x
    rw [braces_open hm (Or.inr rfl), braces_append, braces_of_flat hcolor, braces_close hafter]
    rfl
  have hout : colorOpen ++ color ++ ['}', '{'] ++ token ++ ['}'] ++ rest =
      colorOpen ++ (color ++ '}' :: ('{' :: (token ++ '}' :: rest))) := by simp
  have hbraced : Mode.plain.braces ('{' :: (token ++ '}' :: rest)) =
      true :: (Mode.plain.braces token ++ false :: Mode.plain.braces rest) := by
    have hbrace := braces_append .plain ['{'] (token ++ '}' :: rest)
    have hinner : Mode.plain.braces (token ++ '}' :: rest) =
        Mode.plain.braces token ++ false :: Mode.plain.braces rest := by
      rw [braces_append, hplain, braces_close Mode.noConfusion]
      rfl
    exact hbrace.trans (congrArg (true :: ·) hinner)
  have hlevel := hs.level
  rw [hcolors, braces_append, hplain, level?_append, Option.bind_eq_some_iff] at hlevel
  obtain ⟨d₁, hfront, hlevel⟩ := hlevel
  rw [level?_append, Option.bind_eq_some_iff] at hlevel
  obtain ⟨d₂, hinside, hrest⟩ := hlevel
  rw [hout, hcolors, hbraced, level?_append, hfront, Option.bind_some, level?_open, level?_append,
    level?_succ hinside, Option.bind_some, level?_close, hrest]

/-! ## All fixes -/

/-- **The cosmetic fixes keep braces balanced.** A text without comment tokens whose brace tokens are balanced
has no comment token and balanced brace tokens behind the fixes. -/
theorem hasBalancedBraces_cosmetic (s : List Char) (hcomments : ∀ t ∈ tokens s, t.kind ≠ .comment)
    (hbraces : HasBalancedBraces s) :
    (∀ t ∈ tokens (cosmetic s), t.kind ≠ .comment) ∧ HasBalancedBraces (cosmetic s) := by
  have hthin : KeepsLevel thinSpaceRule := thinSpaceRule_eq_spacing ▸
    keepsLevel_spacing (settles_of_modes (by decide) (by decide)) (by simp [Sign.text, isBrace])
  have hspace : KeepsLevel spaceRule := spaceRule_eq_spacing ▸
    keepsLevel_spacing (settles_of_modes (by decide) (by decide)) (by simp [Sign.text, isBrace])
  have hleaves : Mode.plain.Leaves 0 s 0 := leaves_plain_iff.2 ⟨hcomments, hbraces⟩
  exact leaves_plain_iff.1 (hspace.substitute (keepsLevel_coloredTokenRule.substitute
    (keepsLevel_doubledBracesRule.substitute (hthin.substitute hleaves))))

/-- Escaped braces where the rules cut: in a text with doubled braces, in a color, and in what it applies to. -/
theorem hasBalancedBraces_cosmetic_escaped :
    let s := "5\\text\x7b\x7ba\\\x7d\x7d\x7d\\color\x7bred\\\x7dx\x7d\\color\x7bb\x7d\\sqrt\x7b\\\x7d\x7d\\%".toList
    (∀ t ∈ tokens s, t.kind ≠ .comment) ∧ HasBalancedBraces s ∧
      (∀ t ∈ tokens (cosmetic s), t.kind ≠ .comment) ∧ HasBalancedBraces (cosmetic s) := by
  intro s
  have hcomments : ∀ t ∈ tokens s, t.kind ≠ .comment := by decide +kernel
  have hbraces : HasBalancedBraces s := by decide +kernel
  exact ⟨hcomments, hbraces, hasBalancedBraces_cosmetic s hcomments hbraces⟩

end MathMarkup.Tex
