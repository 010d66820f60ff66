import MathMarkup.Proofs.Normal.Fixes

/-!
# Fixed texts are settled

Behind a character that needs a space no `\text` is left (`quiet_spaceRule`), and no argument of `\text`
is in doubled braces (`quiet_doubledBracesRule`). Spaces, and what is written with the command that it
starts with, make no word that a rule looks for (`Finds.quiet_spaced`, `Finds.none_cons_substitute`).

Main theorem: fixing a fixed text changes nothing (`Readable.cosmetic_cosmetic`).
-/

namespace MathMarkup.Tex

open Text Sign

variable {us : List Sign} {c : Char} {s t w body : List Char}

/-! ## Spaces -/

theorem not_spacesItself : ∀ c, (!spacesItself c) = true → spacesItself c = false := fun c hc => by simpa using hc

/-- The space behind a character. -/
def spaceGap (c : Char) (s : List Char) : List Char := gap (fun c => !spacesItself c) [' '] c s

theorem substitute_spaceRule_cons (c : Char) (s : List Char) :
    substitute spaceRule (c :: s) = c :: (spaceGap c s ++ substitute spaceRule s) := by
  rw [spaceRule_eq_spacing]
  exact substitute_spacing_cons not_spacesItself c s

theorem substitute_spaceRule_textOpen (s : List Char) :
    substitute spaceRule (textOpen ++ s) = textOpen ++ substitute spaceRule s := by
  rw [spaceRule_eq_spacing]
  exact substitute_spacing_textOpen not_spacesItself s

/-- A space is written, and only before `\text`. -/
theorem spaceGap_cases (c : Char) (s : List Char) :
    (spaceGap c s = [] ∧ (spacesItself c = false → ¬ textOpen <+: s)) ∨
    (spaceGap c s = [' '] ∧ spacesItself c = false ∧ textOpen <+: s) := by
  by_cases h : (!spacesItself c) = true ∧ textOpen <+: s
  · exact Or.inr ⟨if_pos h, not_spacesItself c h.1, h.2⟩
  · refine Or.inl ⟨if_neg h, fun hc hs => h ⟨by simp [hc], hs⟩⟩

/-- Behind every `d` of the text a closing brace comes before any opening one. -/
def ClosesAfter (d : Char) (w : List Char) : Prop :=
  ∀ x z, w = x ++ d :: z → ∃ b r, z = b ++ '}' :: r ∧ ∀ c ∈ b, isBrace c = false

theorem ClosesAfter.of_cons {d : Char} (h : ClosesAfter d (c :: w)) : ClosesAfter d w :=
  fun x z hxz => h (c :: x) z (by rw [hxz]; rfl)

theorem closesAfter_of_notMem {d : Char} (h : d ∉ w) : ClosesAfter d w := by
  rintro x z rfl
  exact absurd (List.mem_append_right x List.mem_cons_self) h

/-- A word of closed texts in which no space can have been written was there before. -/
theorem prefix_of_prefix_spaced (hw : ClosesAfter ' ' w) (h : w <+: substitute spaceRule s) : w <+: s := by
  induction w generalizing s with
  | nil => exact List.nil_prefix
  | cons c w ih =>
    cases s with
    | nil => simp at h
    | cons d s =>
      rw [substitute_spaceRule_cons, List.cons_prefix_cons] at h
      obtain ⟨rfl, h⟩ := h
      rw [List.cons_prefix_cons]
      refine ⟨rfl, ?_⟩
      rcases spaceGap_cases c s with ⟨hgap, -⟩ | ⟨hgap, -, rest, rfl⟩
      · rw [hgap] at h
        exact ih hw.of_cons h
      · -- the space stands before `\text`, which opens a group
        rw [hgap, substitute_spaceRule_textOpen] at h
        cases w with
        | nil => exact List.nil_prefix
        | cons e w =>
          rw [List.singleton_append, List.cons_prefix_cons] at h
          obtain ⟨rfl, r, hr⟩ := h
          obtain ⟨b, r', rfl, hb⟩ := hw [c] w rfl
          rw [List.append_assoc] at hr
          exact absurd hr (close_ne_textOpen hb)

/-- **Behind a character that needs a space** no `\text` is left. -/
theorem quiet_spaceRule (s : List Char) : Quiet spaceRule (substitute spaceRule s) := by
  induction s with
  | nil =>
    rw [substitute_nil]
    intro y hy
    rw [List.suffix_nil.1 hy]
    rfl
  | cons c s ih =>
    rw [substitute_spaceRule_cons]
    rcases spaceGap_cases c s with ⟨hgap, hnot⟩ | ⟨hgap, -⟩
    · rw [hgap, List.nil_append]
      refine .cons ?_ ih
      rw [spaceRule]
      split
      · rfl
      · rename_i hc
        have hrest : ¬ textOpen <+: substitute spaceRule s := fun hpre =>
          hnot (by simpa using hc) (prefix_of_prefix_spaced (closesAfter_of_notMem (by decide)) hpre)
        rw [after?_eq_none_iff.2 hrest]
        rfl
    · rw [hgap]
      refine .cons ?_ (.cons rfl ih)
      rw [spaceRule]
      split <;> rfl

theorem quiet_thinSpaceRule (h : Quiet spaceRule s) : Quiet thinSpaceRule s := by
  intro y hy
  cases y with
  | nil => rfl
  | cons c y =>
    have hspace := h _ hy
    rw [thinSpaceRule]
    split
    · rename_i hc
      rw [spaceRule, spacesItself_eq_false_of_accepted hc] at hspace
      simp only [Bool.false_eq_true, ↓reduceIte, Option.map_eq_none_iff] at hspace
      rw [hspace]
      rfl
    · rfl

/-! ## Words that rules find -/

/-- No brace of the text opens a group behind a backslash. -/
def Unopened (w : List Char) : Prop := ∀ x z, w = x ++ '\\' :: z → '{' ∉ z

theorem Unopened.of_cons (h : Unopened (c :: w)) : Unopened w := fun x z hxz => h (c :: x) z (by rw [hxz]; rfl)

theorem unopened_append {p : List Char} (hp : '\\' ∉ p) (ht : '{' ∉ t) : Unopened (p ++ t) := by
  intro x z h hz
  rcases List.append_eq_append_iff.1 h with ⟨a, rfl, rfl⟩ | ⟨a, rfl, hslash⟩
  · exact ht (List.mem_append_right a (List.mem_cons_of_mem _ hz))
  · cases a with
    | nil =>
      rw [List.nil_append] at hslash
      exact ht (hslash ▸ List.mem_cons_of_mem _ hz)
    | cons d a =>
      obtain ⟨rfl, -⟩ := List.cons.inj hslash
      exact hp (List.mem_append_right x List.mem_cons_self)

/-- A word that a rule looks for: a command with its argument, or the start of one. -/
structure IsPattern (w : List Char) : Prop where
  head : ∃ name more, w = '\\' :: (name ++ '{' :: more) ∧ ∀ c ∈ name, isBrace c = false
  /-- No other command in it opens an argument. -/
  tail : Unopened w.tail
  /-- Spaces stand in an argument that is closed behind them. -/
  spaces : ClosesAfter ' ' w
  /-- A closing brace closes a group that was opened in the word. -/
  opened : ∀ x z, w = x ++ '}' :: z → x.count '}' < x.count '{'

/-- The rule matches exactly where one of the words starts. -/
structure Finds (rule : List Char → Option (List Char × List Char)) (IsWord : List Char → Prop) : Prop where
  none_iff : ∀ s, rule s = none ↔ ∀ w, IsWord w → ¬ w <+: s
  pattern : ∀ w, IsWord w → IsPattern w

/-- What the rule matches starts with a command and the brace behind it, and both are written again. -/
def KeepsHead (rule : List Char → Option (List Char × List Char)) : Prop :=
  ∀ s out rest, rule s = some (out, rest) → rest.length < s.length ∧
    ∃ name, '\\' :: (name ++ ['{']) <+: s ∧ '\\' :: (name ++ ['{']) <+: out

section Words

variable {rule rule' : List Char → Option (List Char × List Char)} {IsWord : List Char → Prop}

/-- A text in which no such command can have been written was there before. -/
theorem KeepsHead.prefix_of_prefix (h : KeepsHead rule) (hw : Unopened w) (hpre : w <+: substitute rule s) :
    w <+: s := by
  induction w generalizing s with
  | nil => exact List.nil_prefix
  | cons c w ih =>
    cases s with
    | nil => simp at hpre
    | cons d s =>
      cases hrule : rule (d :: s) with
      | none =>
        rw [substitute_cons_of_none hrule, List.cons_prefix_cons] at hpre
        rw [List.cons_prefix_cons]
        exact ⟨hpre.1, ih hw.of_cons hpre.2⟩
      | some found =>
        obtain ⟨out, rest⟩ := found
        obtain ⟨hlen, name, hs, hout⟩ := h _ _ _ hrule
        rw [substitute_cons_of_some hrule (Nat.le_of_lt_succ hlen)] at hpre
        rcases List.prefix_or_prefix_of_prefix hpre (hout.trans (List.prefix_append out _)) with hshort | ⟨r, hr⟩
        · exact hshort.trans hs
        · rw [List.cons_append, List.append_assoc] at hr
          obtain ⟨rfl, rfl⟩ := List.cons.inj hr
          exact absurd (by simp) (hw [] _ rfl)

/-- Where a rule finds nothing it finds nothing after such a substitution of what stands behind. -/
theorem Finds.none_cons_substitute (hfinds : Finds rule IsWord) (h : KeepsHead rule') (hnone : rule (c :: s) = none) :
    rule (c :: substitute rule' s) = none := by
  rw [hfinds.none_iff] at hnone ⊢
  intro w hw hpre
  obtain ⟨name, more, rfl, -⟩ := (hfinds.pattern w hw).head
  rw [List.cons_prefix_cons] at hpre
  refine hnone _ hw (List.cons_prefix_cons.2 ⟨hpre.1, h.prefix_of_prefix (hfinds.pattern _ hw).tail hpre.2⟩)

/-- **Spaces** make no word. -/
theorem Finds.quiet_spaced (hfinds : Finds rule IsWord) (h : Quiet rule s) : Quiet rule (substitute spaceRule s) := by
  induction s with
  | nil => simpa using h
  | cons c s ih =>
    have hhead : rule (substitute spaceRule (c :: s)) = none := by
      rw [hfinds.none_iff]
      intro w hw hpre
      exact (hfinds.none_iff _).1 (h _ List.suffix_rfl) w hw
        (prefix_of_prefix_spaced (hfinds.pattern w hw).spaces hpre)
    have hrest := ih (Quiet.of_append (a := [c]) h)
    rw [substitute_spaceRule_cons] at hhead ⊢
    rcases spaceGap_cases c s with ⟨hgap, -⟩ | ⟨hgap, -⟩
    · rw [hgap] at hhead ⊢
      exact .cons hhead hrest
    · rw [hgap] at hhead ⊢
      refine .cons hhead (.cons ?_ hrest)
      rw [hfinds.none_iff]
      rintro w hw hpre
      obtain ⟨name, more, rfl, -⟩ := (hfinds.pattern w hw).head
      exact absurd (List.cons_prefix_cons.1 hpre).1 (by decide)

end Words

/-! ## Doubled braces -/

theorem count_eq_zero_of_flat (hbody : ∀ c ∈ body, isBrace c = false) : body.count '{' = 0 ∧ body.count '}' = 0 := by
  constructor <;> exact List.count_eq_zero.2 fun hmem => absurd (hbody _ hmem) (by decide)

/-- In front of a closing brace more groups are open than closed, when they all open before the first one. -/
theorem count_lt_of_append {p x z : List Char} (hp : '}' ∉ p) (ht : t.count '}' ≤ p.count '{')
    (h : p ++ t = x ++ '}' :: z) : x.count '}' < x.count '{' := by
  have hcount := List.count_eq_zero.2 hp
  rcases List.append_eq_append_iff.1 h with ⟨a, rfl, rfl⟩ | ⟨a, rfl, hz⟩
  · rw [List.count_append, List.count_cons_self] at ht
    rw [List.count_append, List.count_append]
    omega
  · cases a with
    | nil =>
      rw [List.nil_append] at hz
      rw [List.append_nil] at ht hcount
      rw [← hz, List.count_cons_self] at ht
      omega
    | cons d a =>
      obtain ⟨rfl, -⟩ := List.cons.inj hz
      exact absurd (List.mem_append_right x List.mem_cons_self) hp

/-- An argument of `\text` in doubled braces. -/
def IsDoubled (w : List Char) : Prop :=
  ∃ body, (∀ c ∈ body, isBrace c = false) ∧ w = textOpen ++ '{' :: (body ++ ['}', '}'])

theorem isPattern_of_isDoubled (hw : IsDoubled w) : IsPattern w := by
  obtain ⟨body, hbody, rfl⟩ := hw
  have hflat := count_eq_zero_of_flat hbody
  have htail : (textOpen ++ '{' :: (body ++ ['}', '}'])).tail =
      ['t', 'e', 'x', 't', '{', '{'] ++ (body ++ ['}', '}']) := rfl
  refine ⟨⟨['t', 'e', 'x', 't'], _, rfl, by simp [isBrace]⟩, ?_, ?_, ?_⟩
  · rw [htail]
    exact unopened_append (by decide) (by simp [List.count_eq_zero.1 hflat.1])
  · intro x z hxz
    have hword : (textOpen ++ ['{']) ++ (body ++ '}' :: ['}']) = x ++ ' ' :: z := by simpa using hxz
    obtain ⟨b, rfl, hb⟩ := closes_after (by decide) hbody (by decide) hword
    exact ⟨b, _, rfl, hb⟩
  · intro x z hxz
    have hword : (textOpen ++ '{' :: body) ++ ['}', '}'] = x ++ '}' :: z := by simpa using hxz
    refine count_lt_of_append ?_ (by simp [textOpen, hflat.1]) hword
    simp [textOpen, List.count_eq_zero.1 hflat.2]

/-- **The rule for doubled braces** finds these arguments. -/
theorem finds_doubledBracesRule : Finds doubledBracesRule IsDoubled where
  none_iff s := by
    constructor
    · rintro hnone w ⟨body, hbody, rfl⟩ ⟨rest, rfl⟩
      have hmatch : textOpen ++ '{' :: (body ++ ['}', '}']) ++ rest =
          textOpen ++ '{' :: (body ++ '}' :: '}' :: rest) := by simp
      have hsome := doubledBracesRule_eq_some_iff.2 ⟨body, hbody, hmatch, rfl⟩
      rw [hnone] at hsome
      cases hsome
    · intro hnone
      refine Option.eq_none_iff_forall_ne_some.2 fun found hfound => ?_
      obtain ⟨body, hbody, rfl, -⟩ := doubledBracesRule_eq_some_iff.1 hfound
      exact hnone _ ⟨body, hbody, rfl⟩ ⟨found.2, by simp⟩
  pattern _ := isPattern_of_isDoubled

theorem keepsHead_doubledBracesRule : KeepsHead doubledBracesRule := by
  intro s out rest h
  obtain ⟨body, -, rfl, rfl⟩ := doubledBracesRule_eq_some_iff.1 h
  refine ⟨?_, ['t', 'e', 'x', 't'], ?_, ?_⟩
  · simp only [textOpen, List.length_append, List.length_cons, List.length_nil]
    omega
  · exact List.prefix_append textOpen _
  · rw [List.append_assoc]
    exact List.prefix_append textOpen _

/-- In what is written for doubled braces there are none. -/
theorem doubledBracesRule_written {body x b : List Char} (hbody : ∀ c ∈ body, isBrace c = false)
    (hxb : textOpen ++ body ++ ['}'] = x ++ b) (hne : b ≠ []) (t : List Char) :
    doubledBracesRule (b ++ t) = none := by
  rw [Option.eq_none_iff_forall_ne_some]
  intro p hafter
  obtain ⟨body', -, hmatch, -⟩ := doubledBracesRule_eq_some_iff.1 hafter
  rw [List.append_assoc] at hxb
  cases x with
  | nil =>
    rw [List.nil_append] at hxb
    rw [← hxb, List.append_assoc, List.append_cancel_left_eq, List.append_assoc] at hmatch
    exact absurd hmatch (close_ne_open (x := []) hbody (by simp))
  | cons d x =>
    obtain ⟨e, b, rfl⟩ := List.exists_cons_of_ne_nil hne
    obtain ⟨rfl, htext⟩ : e = '\\' ∧ b ++ t =
        ['t', 'e', 'x', 't'] ++ '{' :: '{' :: (body' ++ '}' :: '}' :: p.2) := by simpa [textOpen] using hmatch
    obtain ⟨-, hinside⟩ : '\\' = d ∧ ['t', 'e', 'x', 't', '{'] ++ (body ++ ['}']) = x ++ '\\' :: b := by
      simpa [textOpen] using hxb
    obtain ⟨b, rfl, hb⟩ := closes_after (by decide) hbody (by decide) hinside
    rw [List.append_assoc] at htext
    exact absurd htext (close_ne_open hb (by simp [isBrace]))

/-- **After the substitution** no argument of `\text` is in doubled braces. -/
theorem quiet_doubledBracesRule (s : List Char) :
    Quiet doubledBracesRule (substitute doubledBracesRule s) := by
  induction hlen : s.length using Nat.strongRecOn generalizing s with
  | ind len ih =>
    cases s with
    | nil =>
      rw [substitute_nil]
      intro y hy
      rw [List.suffix_nil.1 hy]
      rfl
    | cons c s =>
      rw [List.length_cons] at hlen
      cases hrule : doubledBracesRule (c :: s) with
      | none =>
        rw [substitute_cons_of_none hrule]
        exact .cons (finds_doubledBracesRule.none_cons_substitute keepsHead_doubledBracesRule hrule)
          (ih s.length (by omega) s rfl)
      | some p =>
        have hle := length_le_of_doubledBracesRule hrule
        obtain ⟨body, hbody, -, hout⟩ := doubledBracesRule_eq_some_iff.1 hrule
        rw [substitute_cons_of_some hrule hle, hout]
        exact .append (fun x b hxb hne => doubledBracesRule_written hbody hxb hne _)
          (ih p.2.length (by omega) p.2 rfl)

/-! ## All fixes -/

/-- **Fixing a fixed text** changes nothing. -/
theorem Readable.cosmetic_cosmetic (h : Readable us) : cosmetic (cosmetic (spell us)) = cosmetic (spell us) := by
  obtain ⟨thin, plain, spaced, hthin, hplain, hspaced, -, hsub₂, hsub₃, hall⟩ := h.exists_cosmetic
  have hread : Readable spaced := hspaced.readable (hplain.readable (hthin.readable h))
  have hspace : Quiet spaceRule (spell spaced) := by
    rw [← hsub₃]
    exact quiet_spaceRule _
  have hbraces : Quiet doubledBracesRule (spell spaced) := by
    rw [← hsub₃, ← hsub₂]
    exact finds_doubledBracesRule.quiet_spaced (quiet_doubledBracesRule _)
  rw [hall, cosmetic, (quiet_thinSpaceRule hspace).substitute_eq_self, hbraces.substitute_eq_self,
    hread.substitute_coloredTokenRule, hspace.substitute_eq_self]

end MathMarkup.Tex
