import Mathlib.Data.List.Chain
import MathMarkup.Proofs.Cosmetic.Balance
import MathMarkup.Proofs.Delimiter.Pairing
import MathMarkup.Proofs.Normal.Nested
import MathMarkup.Proofs.Normal.Protection

/-!
# Braces without a fault

Where the pairing of delimiters finds no fault, the braces among them fit (`Balanced.level_braces`). They are all
the brace tokens of the text, unless `\left` or `\right` takes one along (`filterMap_brace?_delimitersOf`), and as
far as groups go, they are the braces among its signs (`level_braces_spell`).

Main theorem: `level_of_unpaired`.
-/

namespace MathMarkup.Tex

open Text Sign

variable {ds : List Delimiter} {left right : Delimiter} {ts : List Token} {us vs : List Sign} {u : Sign} {m : Mode}
  {s : List Char} {d e : Nat} {colors : Bool}

/-! ## Braces among delimiters -/

/-- Whether the delimiter is a brace on its own, and then whether it opens a group. -/
def Delimiter.brace? (d : Delimiter) : Option Bool :=
  if d.sized = false ∧ d.bracket.shape = .brace then some d.bracket.opening else none

/-- A brace makes a pair with a brace only. -/
theorem Delimiter.MakePair.braces (h : left.MakePair right) :
    (left.brace? = some true ∧ right.brace? = some false) ∨ (left.brace? = none ∧ right.brace? = none) := by
  rcases h.alike with ⟨hleft, hright⟩ | ⟨hleft, hright, hshape⟩
  · exact Or.inr ⟨by simp [brace?, hleft], by simp [brace?, hright]⟩
  · by_cases hbrace : left.bracket.shape = .brace
    · exact Or.inl ⟨by simp [brace?, hleft, hbrace, h.opening], by simp [brace?, hright, ← hshape, hbrace, h.closing]⟩
    · exact Or.inr ⟨by simp [brace?, hbrace], by simp [brace?, ← hshape, hbrace]⟩

theorem Balanced.level_braces (h : Balanced ds) (d : Nat) : level? d (ds.filterMap Delimiter.brace?) = some d := by
  induction h generalizing d with
  | nil => simp
  | @pair a b left right _ _ hpair iha ihb =>
    rw [List.filterMap_append, level?_append, iha, Option.bind_some]
    rcases hpair.braces with ⟨hleft, hright⟩ | ⟨hleft, hright⟩
    · rw [List.filterMap_cons_some hleft, List.filterMap_append, level?_open, level?_append, ihb, Option.bind_some,
        List.filterMap_cons_some hright]
      simp
    · rw [List.filterMap_cons_none hleft, List.filterMap_append, level?_append, ihb, Option.bind_some,
        List.filterMap_cons_none hright]
      simp

/-- No brace stands right behind `\left` or `\right`. -/
def NoSizedBrace (ts : List Token) : Prop := ts.IsChain fun t next => t.side?.isSome → next.opens? = none

instance (ts : List Token) : Decidable (NoSizedBrace ts) :=
  inferInstanceAs (Decidable (ts.IsChain fun t next => t.side?.isSome → next.opens? = none))

theorem shape_ne_brace_of_lookup {command : String} {b : Bracket} (h : bracketCommands.lookup command = some b) :
    b.shape ≠ .brace := by
  obtain ⟨before, after, heq, -⟩ := List.lookup_eq_some_iff.1 h
  have hall : ∀ p ∈ bracketCommands, p.2.shape ≠ .brace := by decide
  exact hall (command, b) (heq ▸ List.mem_append_right before List.mem_cons_self)

theorem Token.opens?_of_side? {t : Token} (h : t.side?.isSome) : t.opens? = none := by
  have hkind : t.kind = .command := by
    unfold side? at h
    split at h
    · rename_i hkind
      exact beq_iff_eq.1 hkind
    · cases h
  rw [opens?, hkind]

/-- A bracket that stands alone is a brace when its token is one. -/
theorem Token.brace?_of_bracket? {t : Token} {b : Bracket} (h : t.bracket? = some b) :
    Delimiter.brace? ⟨b, t.offset, false⟩ = t.opens? := by
  obtain ⟨kind, text, offset⟩ := t
  cases kind with
  | command =>
    have hshape := shape_ne_brace_of_lookup (h : bracketCommands.lookup _ = some b)
    simp [Delimiter.brace?, hshape, opens?]
  | lbrace | rbrace | lbracket | rbracket | lparen | rparen =>
    obtain rfl := Option.some.inj h
    rfl
  | _ => cases h

theorem Token.opens?_of_bracket?_eq_none {t : Token} (h : t.bracket? = none) : t.opens? = none := by
  obtain ⟨kind, text, offset⟩ := t
  cases kind with
  | lbrace | rbrace => cases h
  | _ => rfl

theorem filterMap_brace?_delimitersOf (h : NoSizedBrace ts) :
    (delimitersOf ts).filterMap Delimiter.brace? = ts.filterMap Token.opens? := by
  fun_induction delimitersOf ts with
  | case1 => rfl
  | case2 t opening hside =>
    have hopens := Token.opens?_of_side? (t := t) (by rw [hside]; rfl)
    rw [List.filterMap_cons_none hopens]
    rfl
  | case3 t opening hside next ts carried ih =>
    have hsome : t.side?.isSome := by rw [hside]; rfl
    rw [List.filterMap_cons_none (by simp [Delimiter.brace?]), List.filterMap_cons_none (Token.opens?_of_side? hsome),
      List.filterMap_cons_none (h.rel hsome)]
    exact ih h.tail.tail
  | case4 t ts hside b hbracket ih =>
    rw [List.filterMap_cons, List.filterMap_cons, ih h.tail, Token.brace?_of_bracket? hbracket]
  | case5 t ts hside hbracket ih =>
    rw [List.filterMap_cons_none (Token.opens?_of_bracket?_eq_none hbracket), ih h.tail]

/-! ## Braces among signs -/

theorem braces_cons (u : Sign) (us : List Sign) : braces (u :: us) = u.brace?.toList ++ braces us := by
  rw [braces, List.filterMap_cons]
  cases u.brace? <;> rfl

theorem braces_word {name : List Char} (hname : name ≠ []) (hletters : ∀ c ∈ name, isCommandLetter c = true) :
    Mode.plain.braces ('\\' :: name) = [] ∧ Mode.plain.after ('\\' :: name) = .plain := by
  refine ⟨braces_of_flat (List.forall_mem_cons.2 ⟨rfl, fun c hc => ?_⟩) _, ?_⟩
  · have hplain := isPlain_of_isCommandLetter (hletters c hc)
    simp [isBrace, hplain.2.1, hplain.2.2]
  · exact after_name hname hletters Mode.noConfusion

/-- The braces around the name of an environment make a group of their own. -/
theorem braces_env {opening : Bool} {name : List Char} (hfits : (env opening name).FitsWith colors s) :
    Mode.plain.braces (env opening name).text = [true, false] ∧ Mode.plain.after (env opening name).text = .plain := by
  have hword := isWordBefore_envWord opening []
  obtain ⟨hnone, hafter⟩ := braces_word hword.ne_nil hword.letters
  have hname : ∀ c ∈ name, c ≠ '\\' ∧ c ≠ '%' := fun c hc => (hfits c hc).2.2
  have hflat : ∀ c ∈ name, isBrace c = false := fun c hc => by simp [isBrace, (hfits c hc).1, (hfits c hc).2.1]
  have htext : (env opening name).text = ('\\' :: envWord opening) ++ (['{'] ++ (name ++ ['}'])) := by
    cases opening <;> simp [text, beginOf, endOf, envWord]
  rw [htext, braces_append, braces_append, braces_append, hnone, hafter, after_append, hafter, after_append,
    after_append]
  have hopen : Mode.plain.after ['{'] = .plain := rfl
  rw [hopen, braces_of_flat hflat, after_of_plain hname]
  exact ⟨rfl, rfl⟩

/-- The mode in which a sign is read as such: plain text, or behind a backslash in front of a blank. -/
def Mode.Awaits (m : Mode) (s : List Char) : Prop :=
  m = .plain ∨ m = .escaped ∧ ∀ c ∈ s.head?, Text.isBlank c = true

/-- Behind a sign the next one is read as such. -/
theorem Mode.Awaits.text (hm : m.Awaits (u.text ++ s)) (hfits : u.FitsWith colors s) :
    (m.after u.text).Awaits s ∧ ∀ d, level? d (m.braces u.text) = level? d u.brace?.toList := by
  rcases hm with rfl | ⟨rfl, hblank⟩
  · cases u with
    | char c =>
      refine ⟨Or.inl (after_of_plain (List.forall_mem_singleton.2 hfits)), fun d => ?_⟩
      by_cases hopen : c = '{'
      · subst hopen
        rfl
      by_cases hclose : c = '}'
      · subst hclose
        rfl
      · rw [Sign.text, braces_of_flat (by simp [isBrace, hopen, hclose])]
        simp [brace?, hopen, hclose]
    | escaped c => exact ⟨Or.inl rfl, fun _ => rfl⟩
    | slash => exact ⟨Or.inr ⟨rfl, hfits⟩, fun _ => rfl⟩
    | word name =>
      obtain ⟨hnone, hafter⟩ := braces_word hfits.1 hfits.2.1
      exact ⟨Or.inl hafter, fun d => congrArg (level? d) hnone⟩
    | env opening name =>
      obtain ⟨hpair, hafter⟩ := braces_env hfits
      refine ⟨Or.inl hafter, fun d => ?_⟩
      rw [hpair]
      simp [brace?]
  · rw [List.head?_append_of_ne_nil _ u.text_ne_nil] at hblank
    cases u with
    | char c =>
      obtain ⟨-, hopen, hclose⟩ := isPlain_of_isBlank (hblank c rfl)
      have hbrace : (char c).brace? = none := by simp [brace?, hopen, hclose]
      refine ⟨Or.inl rfl, fun d => ?_⟩
      rw [hbrace]
      rfl
    | escaped | slash | word => exact absurd (hblank '\\' rfl) (by decide)
    | env opening name => cases opening <;> exact absurd (hblank '\\' rfl) (by decide)

theorem level_braces_spell (h : ReadableWith colors us) (hm : m.Awaits (spell us)) (d : Nat) :
    level? d (m.braces (spell us)) = level? d (braces us) := by
  induction us generalizing m d with
  | nil => rfl
  | cons u us ih =>
    obtain ⟨hafter, hlevel⟩ := hm.text h.2.1
    rw [spell_cons, braces_append, braces_cons, level?_append, level?_append, hlevel]
    exact congrArg _ (funext fun e => ih h.2.2 hafter e)

/-- In front of a backslash that starts a sign text is read as it stands. -/
theorem after_spell (h : ReadableWith colors (us ++ vs)) (hvs : (spell vs).head? = some '\\')
    (hm : m.Awaits (spell (us ++ vs))) : m.after (spell us) = .plain := by
  induction us generalizing m with
  | nil =>
    rcases hm with rfl | ⟨-, hblank⟩
    · rfl
    · exact absurd (hblank '\\' hvs) (by decide)
  | cons u us ih =>
    rw [spell_cons, after_append]
    exact ih h.2.2 (hm.text h.2.1).1

/-- **Where no pairing fault is found** the braces among the signs fit. -/
theorem level_of_unpaired (h : ReadableWith colors us) (hunpaired : unpaired (delimiters (spell us)) = [])
    (hsized : NoSizedBrace ((tokens (spell us)).filter fun t => !t.kind.isTrivia)) : level? 0 (braces us) = some 0 := by
  have htrivia : ((tokens (spell us)).filter fun t => !t.kind.isTrivia).filterMap Token.opens? =
      (tokens (spell us)).filterMap Token.opens? := by
    rw [List.filterMap_filter]
    refine congrFun (congrArg List.filterMap (funext fun t => ?_)) _
    obtain ⟨kind, text, offset⟩ := t
    cases kind <;> rfl
  have hlevel := (unpaired_eq_nil_iff.1 hunpaired).level_braces 0
  rwa [delimiters, filterMap_brace?_delimitersOf hsized, htrivia, filterMap_opens?,
    level_braces_spell h (Or.inl rfl)] at hlevel

end MathMarkup.Tex
