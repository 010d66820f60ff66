import MathMarkup.Proofs.Normal.Touch

/-!
# The cosmetic fixes, and why they settle

The two rules for spaces are one rule with parameters (`spacing`), which writes a space at every place
where a character is accepted and `\text` follows (`substitute_spacing_cons`). On a readable text each
substitution is a fix of its signs (`Readable.touched_spacing`, `Readable.touched_braces`), or does
nothing (`Readable.substitute_coloredTokenRule`).

Main theorem: what the fixes write they leave alone (`Readable.cosmetic_cosmetic`).
-/

namespace MathMarkup.Text

variable {rule : List Char → Option (List Char × List Char)} {a s : List Char} {c : Char}

/-- The rule declines at every place of the text. -/
def Quiet (rule : List Char → Option (List Char × List Char)) (s : List Char) : Prop :=
  ∀ y, y <:+ s → rule y = none

theorem Quiet.of_append (h : Quiet rule (a ++ s)) : Quiet rule s :=
  fun y hy => h y (hy.trans (List.suffix_append a s))

theorem Quiet.cons (hc : rule (c :: s) = none) (hs : Quiet rule s) : Quiet rule (c :: s) := by
  intro y hy
  rcases List.suffix_cons_iff.1 hy with rfl | hy
  · exact hc
  · exact hs y hy

theorem Quiet.append (ha : ∀ x b, a = x ++ b → b ≠ [] → rule (b ++ s) = none) (hs : Quiet rule s) :
    Quiet rule (a ++ s) := by
  induction a with
  | nil => exact hs
  | cons c a ih =>
    exact .cons (ha [] (c :: a) rfl (List.cons_ne_nil c a))
      (ih fun x b hxb hb => ha (c :: x) b (by rw [hxb]; rfl) hb)

theorem Quiet.substitute_eq_self (h : Quiet rule s) : substitute rule s = s :=
  substitute_of_none fun _ y hxy _ => h y ⟨_, hxy.symm⟩

end MathMarkup.Text

namespace MathMarkup.Tex

open Text Sign

variable {us vs : List Sign} {u v : Sign} {c : Char} {s t body : List Char} {colors : Bool}

/-! ## The first brace -/

theorem dropWhile_append_brace (hbody : ∀ c ∈ body, isBrace c = false) (hc : isBrace c = true) (s : List Char) :
    (body ++ c :: s).dropWhile (fun c => !isBrace c) = c :: s := by
  rw [List.dropWhile_append_of_pos fun d hd => by simp [hbody d hd], List.dropWhile_cons_of_neg (by simp [hc])]

/-- What closes a flat text does not open a group. -/
theorem close_ne_open {x : List Char} (hbody : ∀ c ∈ body, isBrace c = false) (hx : ∀ c ∈ x, isBrace c = false) :
    body ++ '}' :: s ≠ x ++ '{' :: t := by
  intro h
  have hdrop := congrArg (List.dropWhile fun c => !isBrace c) h
  rw [dropWhile_append_brace hbody rfl, dropWhile_append_brace hx rfl] at hdrop
  simp at hdrop

theorem close_ne_textOpen (hbody : ∀ c ∈ body, isBrace c = false) : body ++ '}' :: s ≠ textOpen ++ t :=
  close_ne_open (x := ['\\', 't', 'e', 'x', 't']) hbody (by simp [isBrace])

theorem flatBody?_eq_some_iff :
    flatBody? s = some (body, t) ↔ (∀ c ∈ body, isBrace c = false) ∧ s = body ++ '}' :: t := by
  constructor
  · intro h
    rw [flatBody?] at h
    split at h
    · rename_i rest hdrop
      obtain ⟨rfl, rfl⟩ := by simpa using h
      refine ⟨fun c hc => ?_, ?_⟩
      · have hall := List.all_takeWhile (p := fun c => !isBrace c) (l := s)
        simpa using List.all_eq_true.1 hall c hc
      · rw [← hdrop, List.takeWhile_append_dropWhile]
    · cases h
  · rintro ⟨hbody, rfl⟩
    have htake : (body ++ '}' :: t).takeWhile (fun c => !isBrace c) = body := by
      rw [List.takeWhile_append_of_pos fun d hd => by simp [hbody d hd],
        List.takeWhile_cons_of_neg (by decide), List.append_nil]
    rw [flatBody?, dropWhile_append_brace hbody rfl, htake]
    rfl

/-- Where the doubled braces are, and what they become. -/
theorem doubledBracesRule_eq_some_iff {out : List Char} : doubledBracesRule s = some (out, t) ↔
    ∃ body, (∀ c ∈ body, isBrace c = false) ∧ s = textOpen ++ '{' :: (body ++ '}' :: '}' :: t) ∧
      out = textOpen ++ body ++ ['}'] := by
  simp only [doubledBracesRule, Option.bind_eq_bind, Option.bind_eq_some_iff, Prod.exists, after?_eq_some_iff,
    flatBody?_eq_some_iff, Option.pure_def, Option.some.injEq, Prod.mk.injEq]
  constructor
  · rintro ⟨_, rfl, body, _, ⟨hbody, rfl⟩, _, rfl, rfl, rfl⟩
    exact ⟨body, hbody, by simp, rfl⟩
  · rintro ⟨body, hbody, rfl, rfl⟩
    exact ⟨_, by simp, body, _, ⟨hbody, rfl⟩, t, rfl, rfl, rfl⟩

theorem length_le_of_doubledBracesRule {out : List Char} (h : doubledBracesRule (c :: s) = some (out, t)) :
    t.length ≤ s.length := by
  obtain ⟨body, -, hmatch, -⟩ := doubledBracesRule_eq_some_iff.1 h
  have hlen := congrArg List.length hmatch
  simp only [textOpen, List.length_append, List.length_cons, List.length_nil] at hlen
  omega

/-- Behind a character that stands in a flat text before its closing brace, that brace comes first. -/
theorem closes_after {d : Char} {x z w : List Char} (hw : d ∉ w) (hbody : ∀ c ∈ body, isBrace c = false)
    (hd : d ∉ '}' :: t) (h : w ++ (body ++ '}' :: t) = x ++ d :: z) :
    ∃ b, z = b ++ '}' :: t ∧ ∀ c ∈ b, isBrace c = false := by
  rcases List.append_eq_append_iff.1 h with ⟨x', rfl, hrest⟩ | ⟨z', rfl, hrest⟩
  · rcases List.append_eq_append_iff.1 hrest with ⟨y, rfl, hend⟩ | ⟨b, rfl, hend⟩
    · exact absurd (hend ▸ List.mem_append_right y List.mem_cons_self) hd
    · cases b with
      | nil =>
        rw [List.nil_append] at hend
        exact absurd (hend ▸ List.mem_cons_self) hd
      | cons e b =>
        obtain ⟨rfl, rfl⟩ := List.cons.inj hend
        exact ⟨b, rfl, fun c hc => hbody c (by simp [hc])⟩
  · cases z' with
    | nil =>
      cases body with
      | nil =>
        rw [List.nil_append, List.nil_append] at hrest
        exact absurd (hrest ▸ List.mem_cons_self) hd
      | cons e body =>
        obtain ⟨rfl, rfl⟩ := List.cons.inj hrest
        exact ⟨body, rfl, fun c hc => hbody c (by simp [hc])⟩
    | cons e z' =>
      obtain ⟨rfl, -⟩ := List.cons.inj hrest
      exact absurd (by simp) hw

/-! ## Spaces -/

/-- A space before `\text` behind a character that is accepted. -/
def spacing (accepts : Char → Bool) (space : List Char) : List Char → Option (List Char × List Char)
  | [] => none
  | c :: s =>
    if accepts c then (after? textOpen s).map fun rest => (c :: (space ++ textOpen), rest) else none

theorem thinSpaceRule_eq_spacing :
    thinSpaceRule = spacing (fun c => c.isAlphanum || c == ')' || c == ']') (Sign.escaped ',').text := by
  funext s
  cases s <;> rfl

theorem spaceRule_eq_spacing : spaceRule = spacing (fun c => !spacesItself c) (Sign.char ' ').text := by
  funext s
  cases s with
  | nil => rfl
  | cons c s =>
    rw [spaceRule, spacing]
    cases spacesItself c <;> rfl

theorem isBlank_eq_false_of_isDigit (h : c.isDigit = true) : isBlank c = false := by
  simp only [Char.isDigit, Bool.and_eq_true, decide_eq_true_eq] at h
  have hrange : 48 ≤ c.toNat ∧ c.toNat ≤ 57 := h
  refine Bool.eq_false_iff.2 fun hblank => ?_
  simp only [isBlank, blankRanges, inRanges] at hblank
  grind

theorem spacesItself_eq_false_of_accepted (h : (c.isAlphanum || c == ')' || c == ']') = true) :
    spacesItself c = false := by
  have hblank : isBlank c = false := by
    simp only [Char.isAlphanum, Bool.or_eq_true, beq_iff_eq] at h
    rcases h with ((hletter | hdigit) | rfl) | rfl
    · exact isBlank_eq_false_of_isCommandLetter hletter
    · exact isBlank_eq_false_of_isDigit hdigit
    · rfl
    · rfl
  refine Bool.eq_false_iff.2 fun hself => ?_
  simp only [spacesItself, hblank, isBrace, Bool.false_or, Bool.or_eq_true, beq_iff_eq] at hself
  rcases hself with (((((rfl | rfl) | rfl) | rfl) | rfl) | rfl) | rfl <;> revert h <;> decide

section Spacing

variable {accepts : Char → Bool} {space : List Char}

theorem spacing_eq_none_of_not_accepts (hc : accepts c = false) : spacing accepts space (c :: s) = none := by
  simp [spacing, hc]

theorem spacing_eq_none_of_rest (hs : ¬ textOpen <+: s) : spacing accepts space (c :: s) = none := by
  rw [spacing, after?_eq_none_iff.2 hs]
  simp

theorem not_accepts_of_spacesItself (haccepts : ∀ c, accepts c = true → spacesItself c = false)
    (hc : spacesItself c = true) : accepts c = false := by
  refine Bool.eq_false_iff.2 fun h => ?_
  rw [haccepts c h] at hc
  cases hc

/-- A command with the brace behind it is left alone. -/
theorem substitute_spacing_command (haccepts : ∀ c, accepts c = true → spacesItself c = false) {name : List Char}
    (hname : '\\' ∉ name) (s : List Char) :
    substitute (spacing accepts space) ('\\' :: (name ++ '{' :: s)) =
      '\\' :: (name ++ '{' :: substitute (spacing accepts space) s) := by
  have hself : ∀ c, spacesItself c = true → accepts c = false := fun _ => not_accepts_of_spacesItself haccepts
  rw [substitute_cons_of_none (spacing_eq_none_of_not_accepts (hself '\\' (by decide)))]
  refine congrArg _ ?_
  induction name with
  | nil => exact substitute_cons_of_none (spacing_eq_none_of_not_accepts (hself '{' (by decide)))
  | cons c name ih =>
    rw [List.mem_cons, not_or] at hname
    have hrest : ¬ textOpen <+: name ++ '{' :: s := by
      rintro ⟨r, hr⟩
      cases name with
      | nil => cases hr
      | cons d name => exact hname.2 ((List.cons.inj hr).1 ▸ List.mem_cons_self)
    rw [List.cons_append, substitute_cons_of_none (spacing_eq_none_of_rest hrest), ih hname.2, List.cons_append]

/-- `\text` itself is left alone. -/
theorem substitute_spacing_textOpen (haccepts : ∀ c, accepts c = true → spacesItself c = false) (s : List Char) :
    substitute (spacing accepts space) (textOpen ++ s) = textOpen ++ substitute (spacing accepts space) s :=
  substitute_spacing_command haccepts (by decide : '\\' ∉ ['t', 'e', 'x', 't']) s

/-- A text without braces is left alone in front of the brace that closes it. -/
theorem substitute_spacing_flat (haccepts : ∀ c, accepts c = true → spacesItself c = false)
    (hbody : ∀ c ∈ body, isBrace c = false) (s : List Char) :
    substitute (spacing accepts space) (body ++ '}' :: s) = body ++ '}' :: substitute (spacing accepts space) s := by
  induction body with
  | nil =>
    have hclose := not_accepts_of_spacesItself haccepts (by decide : spacesItself '}' = true)
    exact substitute_cons_of_none (spacing_eq_none_of_not_accepts hclose)
  | cons c body ih =>
    have hrest : ¬ textOpen <+: body ++ '}' :: s := by
      rintro ⟨r, hr⟩
      exact close_ne_textOpen (List.forall_mem_cons.1 hbody).2 hr.symm
    rw [List.cons_append, substitute_cons_of_none (spacing_eq_none_of_rest hrest), ih (List.forall_mem_cons.1 hbody).2,
      List.cons_append]

/-- What is written between a character and the text behind it. -/
def gap (accepts : Char → Bool) (space : List Char) (c : Char) (s : List Char) : List Char :=
  if accepts c = true ∧ textOpen <+: s then space else []

/-- A substitution of spaces keeps every character, with the gap behind it. -/
theorem substitute_spacing_cons (haccepts : ∀ c, accepts c = true → spacesItself c = false)
    (c : Char) (s : List Char) :
    substitute (spacing accepts space) (c :: s) =
      c :: (gap accepts space c s ++ substitute (spacing accepts space) s) := by
  by_cases h : accepts c = true ∧ textOpen <+: s
  · obtain ⟨hc, rest, rfl⟩ := h
    have hrule : spacing accepts space (c :: (textOpen ++ rest)) = some (c :: (space ++ textOpen), rest) := by
      simp [spacing, hc]
    rw [substitute_cons_of_some hrule (by simp), substitute_spacing_textOpen haccepts, gap,
      if_pos ⟨hc, List.prefix_append textOpen rest⟩]
    simp
  · have hrule : spacing accepts space (c :: s) = none := by
      rw [not_and] at h
      by_cases hc : accepts c = true
      · exact spacing_eq_none_of_rest (h hc)
      · exact spacing_eq_none_of_not_accepts (by simpa using hc)
    rw [substitute_cons_of_none hrule, gap, if_neg h, List.nil_append]

/-- In front of a stretch, spaces are written into what stands before it. -/
theorem exists_substitute_spacing_append (haccepts : ∀ c, accepts c = true → spacesItself c = false)
    (space x s : List Char) :
    ∃ y, substitute (spacing accepts space) (x ++ s) = y ++ substitute (spacing accepts space) s := by
  induction x with
  | nil => exact ⟨[], rfl⟩
  | cons c x ih =>
    obtain ⟨y, hy⟩ := ih
    exact ⟨c :: (gap accepts space c (x ++ s) ++ y), by
      rw [List.cons_append, substitute_spacing_cons haccepts, hy, List.cons_append, List.append_assoc]⟩

/-- Inside a stretch behind whose characters no `\text` comes, nothing is written. -/
theorem substitute_spacing_concat (haccepts : ∀ c, accepts c = true → spacesItself c = false) {x : List Char}
    (hx : ∀ a d e z, x ++ [c] = a ++ d :: e :: z → e = '\\' → accepts d = false) (s : List Char) :
    substitute (spacing accepts space) (x ++ c :: s) =
      x ++ c :: (gap accepts space c s ++ substitute (spacing accepts space) s) := by
  induction x with
  | nil => exact substitute_spacing_cons haccepts c s
  | cons d x ih =>
    have hgap : gap accepts space d (x ++ c :: s) = [] := by
      refine if_neg ?_
      rintro ⟨hd, rest, hrest⟩
      obtain ⟨e, z, hez⟩ := List.exists_cons_of_ne_nil (l := x ++ [c]) (by simp)
      have he : e = '\\' := by
        have hsplit : x ++ c :: s = (x ++ [c]) ++ s := by simp
        rw [hsplit, hez] at hrest
        exact (List.cons.inj hrest).1.symm
      rw [hx [] d e z (by rw [List.cons_append, hez]; rfl) he] at hd
      cases hd
    rw [List.cons_append, substitute_spacing_cons haccepts, hgap,
      ih fun a d' e z hsplit => hx (d :: a) d' e z (by rw [List.cons_append, hsplit]; rfl)]
    rfl

end Spacing

/-- A readable text that starts with `\text` starts with its word. -/
theorem ReadableWith.text_of_spell (h : ReadableWith colors us) (hs : spell us = textOpen ++ s) :
    ∃ us', us = .word ['t', 'e', 'x', 't'] :: .char '{' :: us' ∧ spell us' = s := by
  have hletters : ∀ d ∈ ['t', 'e', 'x', 't'], isCommandLetter d = true := List.all_eq_true.1 (by decide)
  have hsplit : spell us = '\\' :: (['t', 'e', 'x', 't'] ++ '{' :: s) := by rw [hs]; rfl
  rcases h.word_of_spell hsplit (by simp) hletters (by decide) with ⟨us', rfl, hus'⟩ | ⟨opening, name, us', rfl⟩
  · obtain ⟨us'', rfl, hs'⟩ := h.2.2.char_cons hus' (by decide)
    exact ⟨us'', rfl, hs'⟩
  · cases opening <;> simp [text, beginOf, endOf, textOpen] at hs

/-- **A substitution of spaces** is a fix of the signs. -/
theorem Readable.touched_spacing {accepts : Char → Bool} (haccepts : ∀ c, accepts c = true → spacesItself c = false)
    (hv : v.IsSpace) (h : Readable us) :
    ∃ vs, Touched us vs ∧ substitute (spacing accepts v.text) (spell us) = spell vs := by
  induction us with
  | nil => exact ⟨[], .nil, substitute_nil⟩
  | cons u us ih =>
    obtain ⟨vs, htouched, hvs⟩ := ih h.2.2
    obtain ⟨x, c, hxc⟩ := (List.eq_nil_or_concat u.text).resolve_left u.text_ne_nil
    rw [List.concat_eq_append] at hxc
    have hinside : ∀ a d e z, x ++ [c] = a ++ d :: e :: z → e = '\\' → accepts d = false := by
      rintro a d e z hsplit rfl
      have htext : u.text = (a ++ [d]) ++ '\\' :: z := by rw [hxc, hsplit]; simp
      obtain ⟨-, had, -⟩ := Sign.eq_escaped_of_slash h.2.1 htext (by simp)
      have hd : d = '\\' := by simpa using congrArg List.getLast? had
      refine Bool.eq_false_iff.2 fun hd' => ?_
      have := haccepts d hd'
      rw [hd] at this
      cases this
    have hsub : substitute (spacing accepts v.text) (x ++ c :: spell us) = _ :=
      substitute_spacing_concat haccepts hinside (spell us)
    have hspell : spell (u :: us) = x ++ c :: spell us := by rw [spell_cons, hxc]; simp
    rw [hspell, hsub, hvs]
    by_cases hgap : accepts c = true ∧ textOpen <+: spell us
    · obtain ⟨hc, rest, hrest⟩ := hgap
      obtain ⟨us', rfl, -⟩ := h.2.2.text_of_spell hrest.symm
      have htight : u.Tight := ⟨c, by rw [hxc, List.getLast?_concat], haccepts c hc⟩
      refine ⟨u :: v :: vs, .insert htight hv htouched, ?_⟩
      rw [gap, if_pos ⟨hc, rest, hrest⟩, spell_cons, spell_cons, hxc]
      simp
    · refine ⟨u :: vs, .same u htouched, ?_⟩
      rw [gap, if_neg hgap, spell_cons, hxc]
      simp

/-! ## Doubled braces -/

/-- A sign that holds a closing brace behind a flat text is that brace, plain or escaped. -/
theorem Sign.eq_close {u : Sign} (hu : u.Fits t) (hbody : ∀ c ∈ body, isBrace c = false)
    (h : u.text = body ++ '}' :: s) :
    s = [] ∧ (u = .char '}' ∧ body = [] ∨ u = .escaped '}' ∧ body = ['\\']) := by
  have hmem : '}' ∈ u.text := by rw [h]; simp
  have hlen := congrArg List.length h
  cases u with
  | char c =>
    simp only [text, List.length_append, List.length_cons, List.length_nil] at hlen
    obtain rfl : body = [] := List.length_eq_zero_iff.1 (by omega)
    obtain ⟨rfl, rfl⟩ : c = '}' ∧ s = [] := by simpa [text] using h
    exact ⟨rfl, Or.inl ⟨rfl, rfl⟩⟩
  | escaped c =>
    cases body with
    | nil => simp [text] at h
    | cons e body =>
      simp only [text, List.length_append, List.length_cons, List.length_nil] at hlen
      obtain rfl : body = [] := List.length_eq_zero_iff.1 (by omega)
      obtain ⟨rfl, rfl, rfl⟩ : '\\' = e ∧ c = '}' ∧ s = [] := by simpa [text] using h
      exact ⟨rfl, Or.inr ⟨rfl, rfl⟩⟩
  | slash => exact absurd hmem (by decide)
  | word name =>
    have hname : '}' ∈ name := by simpa [text] using hmem
    exact absurd (hu.2.1 _ hname) (by decide)
  | env opening name =>
    cases opening with
    | true =>
      exact absurd h.symm (close_ne_open (x := ['\\', 'b', 'e', 'g', 'i', 'n']) hbody (by simp [isBrace]))
    | false => exact absurd h.symm (close_ne_open (x := ['\\', 'e', 'n', 'd']) hbody (by simp [isBrace]))

/-- The sign that holds the first closing brace behind a flat text. -/
theorem Readable.cut_close (h : Readable us) (hbody : ∀ c ∈ body, isBrace c = false)
    (hs : spell us = body ++ '}' :: s) :
    ∃ x y us', us = x ++ y :: us' ∧ spell us' = s ∧ spell x ++ y.text = body ++ ['}'] ∧
      (∀ c ∈ spell x, isBrace c = false) ∧ (y = .char '}' ∨ y = .escaped '}') := by
  induction us generalizing body with
  | nil => simp at hs
  | cons u us ih =>
    rw [spell_cons] at hs
    -- the brace comes behind a sign that is flat itself
    have hbehind : ∀ body', body = u.text ++ body' → spell us = body' ++ '}' :: s →
        ∃ x y us', u :: us = x ++ y :: us' ∧ spell us' = s ∧ spell x ++ y.text = body ++ ['}'] ∧
          (∀ c ∈ spell x, isBrace c = false) ∧ (y = .char '}' ∨ y = .escaped '}') := by
      rintro body' rfl hrest
      rw [List.forall_mem_append] at hbody
      obtain ⟨x, y, us', rfl, hus', hspell, hx, hy⟩ := ih h.2.2 hbody.2 hrest
      refine ⟨u :: x, y, us', rfl, hus', ?_, ?_, hy⟩
      · rw [spell_cons, List.append_assoc, hspell, List.append_assoc]
      · rw [spell_cons, List.forall_mem_append]
        exact ⟨hbody.1, hx⟩
    rcases List.append_eq_append_iff.1 hs with ⟨body', hbody', hrest⟩ | ⟨z, hu, hz⟩
    · exact hbehind body' hbody' hrest
    · cases z with
      | nil => exact hbehind [] (by rw [hu, List.append_nil, List.append_nil]) hz.symm
      | cons d z =>
        obtain ⟨rfl, rfl⟩ := List.cons.inj hz
        obtain ⟨rfl, ⟨rfl, rfl⟩ | ⟨rfl, rfl⟩⟩ := Sign.eq_close h.2.1 hbody hu
        · exact ⟨[], .char '}', us, rfl, rfl, rfl, by simp, Or.inl rfl⟩
        · exact ⟨[], .escaped '}', us, rfl, rfl, rfl, by simp, Or.inr rfl⟩

/-- The signs of an argument in doubled braces, before and after one pair is taken away. -/
theorem Readable.exists_braces (h : Readable us) (hbody : ∀ c ∈ body, isBrace c = false)
    (hs : spell us = '{' :: '{' :: (body ++ '}' :: '}' :: s)) :
    ∃ b us', Readable us' ∧ us'.length < us.length ∧ spell us' = s ∧ spell b = '{' :: (body ++ ['}']) ∧
      ∀ vs', Touched us' vs' → Touched us (b ++ vs') := by
  obtain ⟨us₁, rfl, hs₁⟩ := h.char_cons hs (by decide)
  obtain ⟨us₂, rfl, hs₂⟩ := h.2.2.char_cons hs₁ (by decide)
  have hrest : Readable us₂ := h.2.2.2.2
  obtain ⟨x, y, us₃, rfl, hs₃, hspell, hx, hy⟩ := hrest.cut_close hbody hs₂
  obtain ⟨us', rfl, hus'⟩ := hrest.of_append_right.2.2.char_cons hs₃ (by decide)
  refine ⟨.char '{' :: (x ++ [y]), us', hrest.of_append_right.2.2.2.2, by simp; omega, hus', ?_, ?_⟩
  · rw [spell_cons, spell_append, spell_cons, spell_nil, List.append_nil, hspell]
    rfl
  · intro vs' htouched
    have hbraces := Touched.braces hx hy htouched
    simpa using hbraces

/-- The signs up to doubled braces, which end with the word `text` or hold its letters behind a line
break; nothing is taken away in them. -/
theorem Readable.cut_textOpen {u : Sign} {x y rest : List Char} (h : Readable (u :: us))
    (hxy : u.text = x ++ y) (hy : y ≠ [])
    (hmatch : y ++ spell us = textOpen ++ '{' :: (body ++ '}' :: '}' :: rest)) :
    ∃ p us₁, u :: us = p ++ us₁ ∧ spell p = x ++ ['\\', 't', 'e', 'x', 't'] ∧
      spell us₁ = '{' :: '{' :: (body ++ '}' :: '}' :: rest) ∧
      substitute doubledBracesRule (x ++ (y ++ spell us)) =
        x ++ substitute doubledBracesRule (y ++ spell us) := by
  by_cases hx : x = []
  · subst hx
    rw [List.nil_append] at hxy
    rw [← hxy, ← spell_cons] at hmatch
    obtain ⟨us₁, hus₁, hs₁⟩ := h.text_of_spell hmatch
    refine ⟨[.word ['t', 'e', 'x', 't']], .char '{' :: us₁, hus₁, rfl, ?_, rfl⟩
    rw [spell_cons, hs₁]
    rfl
  · obtain ⟨d, z, rfl⟩ := List.exists_cons_of_ne_nil hy
    obtain ⟨rfl, htext⟩ : d = '\\' ∧ z ++ spell us = 't' :: 'e' :: 'x' :: 't' :: '{' :: '{' ::
        (body ++ '}' :: '}' :: rest) := by simpa [textOpen] using hmatch
    obtain ⟨rfl, rfl, rfl⟩ := Sign.eq_escaped_of_slash h.2.1 hxy hx
    obtain ⟨us₁, rfl, hs₁⟩ := h.2.2.chars_append (t := ['t', 'e', 'x', 't']) htext (by decide)
    refine ⟨.escaped '\\' :: ['t', 'e', 'x', 't'].map .char, us₁, rfl, rfl, hs₁, ?_⟩
    exact substitute_cons_of_none rfl

/-- **Taking doubled braces away** is a fix of the signs. -/
theorem Readable.touched_braces (h : Readable us) :
    ∃ vs, Touched us vs ∧ substitute doubledBracesRule (spell us) = spell vs := by
  induction hlen : us.length using Nat.strongRecOn generalizing us with
  | ind len ih =>
    cases us with
    | nil => exact ⟨[], .nil, substitute_nil⟩
    | cons u us =>
      by_cases hnone : ∀ x y, u.text = x ++ y → y ≠ [] → doubledBracesRule (y ++ spell us) = none
      · obtain ⟨vs, htouched, hvs⟩ := ih us.length (by rw [← hlen]; simp) h.2.2 rfl
        refine ⟨u :: vs, .same u htouched, ?_⟩
        rw [spell_cons, substitute_append_of_none hnone, hvs]
        rfl
      · simp only [Classical.not_forall] at hnone
        obtain ⟨x, y, hxy, hy, hsome⟩ := hnone
        obtain ⟨⟨out, rest⟩, hsome⟩ := Option.ne_none_iff_exists'.1 hsome
        obtain ⟨body, hbody, hmatch, rfl⟩ := doubledBracesRule_eq_some_iff.1 hsome
        obtain ⟨p, us₁, hp, hpx, hs₁, hfront⟩ := h.cut_textOpen hxy hy hmatch
        have hus₁ : Readable us₁ := (hp ▸ h).of_append_right
        obtain ⟨b, us', hus', hshort, rfl, hb, htouched⟩ := hus₁.exists_braces hbody hs₁
        have hlt : us'.length < len := by
          have hp := congrArg List.length hp
          rw [List.length_append] at hp
          omega
        obtain ⟨vs', hvs', hsub⟩ := ih us'.length hlt hus' rfl
        refine ⟨p ++ (b ++ vs'), hp ▸ (Touched.refl p).append (htouched vs' hvs'), ?_⟩
        have hrule : substitute doubledBracesRule (y ++ spell us) = textOpen ++ body ++ ['}'] ++ spell vs' := by
          obtain ⟨d, z, rfl⟩ := List.exists_cons_of_ne_nil hy
          rw [List.cons_append] at hsome ⊢
          rw [substitute_cons_of_some hsome (length_le_of_doubledBracesRule hsome), hsub]
        rw [spell_cons, hxy, List.append_assoc, hfront, hrule, spell_append, spell_append, hpx, hb]
        simp [textOpen]

/-! ## All fixes -/

/-- `\color` does not come up in a readable text. -/
theorem Readable.substitute_coloredTokenRule (h : Readable us) :
    substitute coloredTokenRule (spell us) = spell us := by
  refine substitute_of_none fun x y hxy _ => ?_
  have hnone : after? colorOpen y = none := by
    rw [after?_eq_none_iff]
    rintro ⟨q, rfl⟩
    have hw : ['c', 'o', 'l', 'o', 'r', '{'] ∈ reserved := by simp [reserved]
    obtain ⟨a, b, rfl, -, hb⟩ := h.cut_reserved (q := q) hw hxy
    obtain ⟨opening, name, us', rfl⟩ := h.of_append_right.env_of_reserved hw hb
    cases opening <;> simp [text, beginOf, endOf] at hb
  rw [coloredTokenRule, hnone]
  rfl

/-- The signs after each substitution. -/
theorem Readable.exists_cosmetic (h : Readable us) : ∃ thin plain spaced, Touched us thin ∧ Touched thin plain ∧
    Touched plain spaced ∧ substitute thinSpaceRule (spell us) = spell thin ∧
    substitute doubledBracesRule (spell thin) = spell plain ∧ substitute spaceRule (spell plain) = spell spaced ∧
    cosmetic (spell us) = spell spaced := by
  have hself : ∀ c, (!spacesItself c) = true → spacesItself c = false := fun c hc => by simpa using hc
  obtain ⟨thin, hthin, hsub₁⟩ := h.touched_spacing (fun c => spacesItself_eq_false_of_accepted) (Or.inr rfl)
  obtain ⟨plain, hplain, hsub₂⟩ := (hthin.readable h).touched_braces
  have hread : Readable plain := hplain.readable (hthin.readable h)
  obtain ⟨spaced, hspaced, hsub₃⟩ := hread.touched_spacing hself (Or.inl rfl)
  rw [← thinSpaceRule_eq_spacing] at hsub₁
  rw [← spaceRule_eq_spacing] at hsub₃
  refine ⟨thin, plain, spaced, hthin, hplain, hspaced, hsub₁, hsub₂, hsub₃, ?_⟩
  rw [cosmetic, hsub₁, hsub₂, hread.substitute_coloredTokenRule, hsub₃]

end MathMarkup.Tex
