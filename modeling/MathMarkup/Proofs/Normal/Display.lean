import MathMarkup.Proofs.Normal.Touch
import MathMarkup.Tex.Display

/-!
# Display delimiters around a readable text

A readable text can be cut behind an even number of backslashes (`ReadableWith.cut_of_even`), so that the
bare expression of a readable text is readable (`ReadableWith.exists_stripDisplay`). The other way round, an
expression between the delimiters that normalizing writes is found again (`stripDisplay_wrapDisplay`).
-/

namespace MathMarkup.Tex

open Text Sign

variable {us a b : List Sign} {u : Sign} {c : Char} {s t p q : List Char} {colors : Bool}

/-! ## Backslashes at the end -/

theorem trailingBackslashes_eq_zero (h : s.getLast? ≠ some '\\') : trailingBackslashes s = 0 := by
  rcases List.eq_nil_or_concat s with rfl | ⟨x, c, rfl⟩
  · rfl
  · rw [List.concat_eq_append] at h ⊢
    have hc : c ≠ '\\' := by simpa using h
    simp [trailingBackslashes, hc]

theorem trailingBackslashes_concat (s : List Char) :
    trailingBackslashes (s ++ ['\\']) = trailingBackslashes s + 1 := by
  simp [trailingBackslashes]

/-- Only what comes behind another character counts. -/
theorem trailingBackslashes_append (hc : c ≠ '\\') (p s : List Char) :
    trailingBackslashes (p ++ c :: s) = trailingBackslashes s := by
  have hreverse : (p ++ c :: s).reverse = s.reverse ++ c :: p.reverse := by simp
  rw [trailingBackslashes, trailingBackslashes, hreverse, List.takeWhile_append]
  split
  · rename_i hall
    rw [List.takeWhile_cons_of_neg (by simpa using hc), List.append_nil, hall]
  · rfl

theorem Sign.getLast?_text_ne (hu : u.FitsWith colors t) (hslash : u ≠ .slash) (hescaped : u ≠ .escaped '\\') :
    u.text.getLast? ≠ some '\\' := by
  cases u with
  | char c => simpa [text] using hu.1
  | escaped c => simpa [text] using hescaped
  | slash => exact absurd rfl hslash
  | word name =>
    obtain ⟨x, c, rfl⟩ := (List.eq_nil_or_concat name).resolve_left hu.1
    rw [List.concat_eq_append] at hu ⊢
    rw [text, ← List.cons_append, List.getLast?_concat, ne_eq, Option.some.injEq]
    rintro rfl
    exact absurd (hu.2.1 '\\' (by simp)) (by decide)
  | env opening name =>
    rw [Sign.getLast?_text_env]
    decide

/-- Before a sign that starts with no blank, backslashes come in pairs. -/
theorem ReadableWith.even_trailing (h : ReadableWith colors (a ++ u :: b))
    (hu : ∀ c ∈ u.text.head?, isBlank c = false) : trailingBackslashes (spell a) % 2 = 0 := by
  induction ha : a.reverse generalizing a u b with
  | nil =>
    rw [List.reverse_eq_nil_iff.1 ha]
    rfl
  | cons v r ih =>
    obtain rfl : a = r.reverse ++ [v] := by rw [← List.reverse_reverse a, ha, List.reverse_cons]
    rw [List.append_assoc, List.singleton_append] at h
    have hfits := h.of_append_right.2.1
    rw [spell_append, spell_cons, spell_nil, List.append_nil]
    by_cases hescaped : v = .escaped '\\'
    · subst hescaped
      have hpairs := ih h (by simp [text, isBlank, inRanges, blankRanges]) (by simp)
      have htext : spell r.reverse ++ (Sign.escaped '\\').text = spell r.reverse ++ ['\\'] ++ ['\\'] := by simp [text]
      rw [htext, trailingBackslashes_concat, trailingBackslashes_concat]
      omega
    · have hslash : v ≠ .slash := by
        rintro rfl
        obtain ⟨c, z, hz⟩ := List.exists_cons_of_ne_nil u.text_ne_nil
        have hblank := hfits c (by rw [spell_cons, hz]; rfl)
        rw [hu c (by rw [hz]; rfl)] at hblank
        cases hblank
      have hlast := Sign.getLast?_text_ne hfits hslash hescaped
      rw [trailingBackslashes_eq_zero]
      rwa [List.getLast?_append_of_ne_nil _ v.text_ne_nil]

/-! ## Cuts -/

/-- A cut of a spelled text is a cut between signs, or inside one. -/
theorem exists_cut (us : List Sign) (hs : spell us = p ++ q) :
    (∃ a b, us = a ++ b ∧ spell a = p ∧ spell b = q) ∨
      ∃ a u b x z, us = a ++ u :: b ∧ u.text = x ++ z ∧ x ≠ [] ∧ z ≠ [] ∧ p = spell a ++ x ∧ q = z ++ spell b := by
  induction us generalizing p with
  | nil =>
    obtain ⟨rfl, rfl⟩ := List.append_eq_nil_iff.1 hs.symm
    exact Or.inl ⟨[], [], rfl, rfl, rfl⟩
  | cons u us ih =>
    by_cases hp : p = []
    · subst hp
      exact Or.inl ⟨[], u :: us, rfl, rfl, hs⟩
    · rw [spell_cons] at hs
      rcases List.append_eq_append_iff.1 hs with ⟨p', rfl, hrest⟩ | ⟨z, hu, rfl⟩
      · rcases ih hrest with ⟨a, b, rfl, rfl, rfl⟩ | ⟨a, v, b, x, z, rfl, hv, hx, hz, rfl, rfl⟩
        · exact Or.inl ⟨u :: a, b, rfl, rfl, rfl⟩
        · exact Or.inr ⟨u :: a, v, b, x, z, rfl, hv, hx, hz, by simp, rfl⟩
      · by_cases hz : z = []
        · subst hz
          exact Or.inl ⟨[u], us, rfl, by simpa using hu, rfl⟩
        · exact Or.inr ⟨[], u, us, p, z, rfl, hu, hp, hz, rfl, rfl⟩

/-- **A readable text is cut** between signs where backslashes come in pairs or a blank follows. -/
theorem ReadableWith.cut_of_even (h : ReadableWith colors us) (hs : spell us = p ++ q)
    (heven : trailingBackslashes p % 2 = 0 ∨ ∀ c ∈ q.head?, isBlank c = true) (hbrace : '}' ∉ q)
    (hletter : ∀ c ∈ q.head?, isCommandLetter c = false) : ∃ a b, us = a ++ b ∧ spell a = p ∧ spell b = q := by
  rcases exists_cut us hs with hcut | ⟨a, u, b, x, z, rfl, hu, hx, hz, rfl, rfl⟩
  · exact hcut
  · exfalso
    have hfits := h.of_append_right.2.1
    obtain ⟨d, x, rfl⟩ := List.exists_cons_of_ne_nil hx
    obtain ⟨e, z, rfl⟩ := List.exists_cons_of_ne_nil hz
    cases u with
    | char c => simp [text] at hu
    | slash => simp [text] at hu
    | escaped c =>
      have hlen := congrArg List.length hu
      simp only [text, List.length_append, List.length_cons, List.length_nil] at hlen
      obtain rfl : x = [] := List.length_eq_zero_iff.1 (by omega)
      obtain ⟨rfl, rfl, rfl⟩ : '\\' = d ∧ c = e ∧ z = [] := by simpa [text] using hu
      rcases heven with heven | hblank
      · have hpairs := h.even_trailing fun e he => by
          obtain rfl : '\\' = e := by simpa [text] using he
          decide
        rw [trailingBackslashes_concat] at heven
        omega
      · have hc := hblank c rfl
        rw [hfits.1] at hc
        cases hc
    | word name =>
      have hmem : e ∈ name := by
        obtain ⟨-, rfl⟩ := List.cons.inj hu
        simp
      have hc := hletter e rfl
      rw [hfits.2.1 e hmem] at hc
      cases hc
    | env opening name =>
      have hlast := Sign.getLast?_text_env opening name
      rw [hu, List.getLast?_append_of_ne_nil _ (List.cons_ne_nil e z)] at hlast
      exact hbrace (List.mem_append_left _ (List.mem_of_getLast? hlast))

/-! ## The bare expression -/

theorem between?_eq_some_iff : between? p q s = some t ↔ s = p ++ (t ++ q) := by
  rw [between?, Option.bind_eq_some_iff]
  constructor
  · rintro ⟨r, hr, ht⟩
    rw [beforeEnd?, Option.map_eq_some_iff] at ht
    obtain ⟨z, hz, rfl⟩ := ht
    have hr' := congrArg List.reverse (eq_append_of_after? hz)
    rw [List.reverse_reverse, List.reverse_append, List.reverse_reverse] at hr'
    rw [eq_append_of_after? hr, hr']
  · rintro rfl
    refine ⟨t ++ q, after?_append _ _, ?_⟩
    rw [beforeEnd?, List.reverse_append, after?_append, Option.map_some, List.reverse_reverse]

theorem notMem_of_isBlank (hs : ∀ c ∈ s, isBlank c = true) (hc : isBlank c = false) : c ∉ s := by
  intro hmem
  rw [hs c hmem] at hc
  cases hc

theorem isCommandLetter_eq_false_of_isBlank (hc : isBlank c = true) : isCommandLetter c = false := by
  refine Bool.eq_false_iff.2 fun hletter => ?_
  rw [isBlank_eq_false_of_isCommandLetter hletter] at hc
  cases hc

theorem ReadableWith.exists_trim (h : ReadableWith colors us) :
    ∃ vs, ReadableWith colors vs ∧ spell vs = trim (spell us) := by
  obtain ⟨front, back, hs, hfront, hback⟩ := append_trim (spell us)
  rw [List.append_assoc] at hs
  obtain ⟨us', rfl, hs'⟩ := h.chars_append hs (notMem_of_isBlank hfront (by decide))
  have hhead : ∀ c ∈ back.head?, isBlank c = true := fun c hc => hback c (List.mem_of_mem_head? hc)
  obtain ⟨a, b, rfl, ha, -⟩ := h.of_append_right.cut_of_even hs' (Or.inr hhead)
    (notMem_of_isBlank hback (by decide)) fun c hc => isCommandLetter_eq_false_of_isBlank (hhead c hc)
  exact ⟨a, h.of_append_right.of_append_left, ha⟩

theorem ReadableWith.exists_betweenDollars (h : ReadableWith colors us) (hs : betweenDollars? (spell us) = some t) :
    ∃ vs, ReadableWith colors vs ∧ spell vs = t := by
  rw [betweenDollars?, Option.filter_eq_some_iff, between?_eq_some_iff] at hs
  obtain ⟨hs, heven⟩ := hs
  obtain ⟨us', rfl, hs'⟩ := h.chars_append hs (by decide)
  obtain ⟨a, b, rfl, ha, -⟩ := h.of_append_right.cut_of_even hs' (Or.inl (by simpa using heven)) (by decide)
    (by rintro _ ⟨⟩; rfl)
  exact ⟨a, h.of_append_right.of_append_left, ha⟩

/-- A backslash and a character that is no letter and no blank is one sign. -/
theorem ReadableWith.escaped_cons (h : ReadableWith colors us) (hs : spell us = '\\' :: c :: s)
    (hletter : isCommandLetter c = false) (hblank : isBlank c = false) :
    ∃ us', us = .escaped c :: us' ∧ spell us' = s := by
  cases us with
  | nil => simp at hs
  | cons u us =>
    cases u with
    | char d =>
      obtain ⟨rfl, -⟩ : d = '\\' ∧ spell us = c :: s := by simpa [text] using hs
      exact absurd rfl h.2.1.1
    | escaped d =>
      obtain ⟨rfl, hrest⟩ : d = c ∧ spell us = s := by simpa [text] using hs
      exact ⟨us, rfl, hrest⟩
    | slash =>
      have hs : spell us = c :: s := by simpa [text] using hs
      have hc := h.2.1 c (by rw [hs]; rfl)
      rw [hblank] at hc
      cases hc
    | word name =>
      obtain ⟨e, name, rfl⟩ := List.exists_cons_of_ne_nil h.2.1.1
      obtain ⟨rfl, -⟩ : e = c ∧ name ++ spell us = s := by simpa [text] using hs
      rw [h.2.1.2.1 e List.mem_cons_self] at hletter
      cases hletter
    | env opening name =>
      cases opening with
      | true =>
        obtain ⟨rfl, -⟩ : 'b' = c ∧ _ = s := by simpa [text, beginOf] using hs
        exact absurd hletter (by decide)
      | false =>
        obtain ⟨rfl, -⟩ : 'e' = c ∧ _ = s := by simpa [text, endOf] using hs
        exact absurd hletter (by decide)

theorem ReadableWith.exists_betweenBrackets (h : ReadableWith colors us) (hs : betweenBrackets? (spell us) = some t) :
    ∃ vs, ReadableWith colors vs ∧ spell vs = t := by
  rw [betweenBrackets?, Option.filter_eq_some_iff, between?_eq_some_iff] at hs
  obtain ⟨hs, hodd⟩ := hs
  have heven : trailingBackslashes t % 2 = 0 := by
    have hlast : (spell us).dropLast = ['\\'] ++ '[' :: t ++ ['\\'] := by
      have hconcat : spell us = (['\\'] ++ '[' :: t ++ ['\\']) ++ [']'] := by rw [hs]; simp
      rw [hconcat, List.dropLast_concat]
    rw [hlast, trailingBackslashes_concat, trailingBackslashes_append (by decide)] at hodd
    have hodd : (trailingBackslashes t + 1) % 2 = 1 := by simpa using hodd
    omega
  obtain ⟨us', rfl, hs'⟩ := h.escaped_cons hs (by decide) (by decide)
  have hrest : spell us' = t ++ ['\\', ']'] := hs'
  obtain ⟨a, b, rfl, ha, -⟩ := h.2.2.cut_of_even hrest (Or.inl heven) (by decide) (by rintro _ ⟨⟩; rfl)
  exact ⟨a, h.2.2.of_append_left, ha⟩

theorem ReadableWith.exists_stripEnvironment (h : ReadableWith colors us) (hs : stripEnvironment? (spell us) = some t) :
    ∃ vs, ReadableWith colors vs ∧ spell vs = t := by
  obtain ⟨name, hname, hs⟩ := List.exists_of_findSome?_eq_some hs
  have hbrace : '}' ∉ name := by
    simp only [wrappingEnvironments, List.mem_cons, List.not_mem_nil, or_false] at hname
    rcases hname with rfl | rfl | rfl | rfl <;> decide
  rw [between?_eq_some_iff] at hs
  have hne : us ≠ [] := by
    rintro rfl
    simp [beginOf] at hs
  obtain ⟨u, us, rfl⟩ := List.exists_cons_of_ne_nil hne
  obtain rfl : u = .env true name := h.eq_env_of_prefix hbrace ⟨_, hs.symm⟩
  have hrest : spell us = t ++ endOf name := List.append_cancel_left hs
  have hend : spell us = t ++ '\\' :: (['e', 'n', 'd', '{'] ++ (name ++ ['}'])) := by
    rw [hrest]
    simp [endOf]
  obtain ⟨a, b, rfl, ha, -⟩ := h.2.2.cut_reserved (by cases colors <;> simp [reservedWith, reserved]) hend
  exact ⟨a, h.2.2.of_append_left, ha⟩

/-- **The bare expression** of a readable text is readable. -/
theorem ReadableWith.exists_stripDisplay (h : ReadableWith colors us) :
    ∃ vs, ReadableWith colors vs ∧ spell vs = stripDisplay (spell us) := by
  obtain ⟨us₁, h₁, hs₁⟩ := h.exists_trim
  obtain ⟨us₂, h₂, hs₂⟩ : ∃ vs, ReadableWith colors vs ∧
      spell vs = (stripDelimiters? (spell us₁)).getD (spell us₁) := by
    cases hstrip : stripDelimiters? (spell us₁) with
    | none => exact ⟨us₁, h₁, rfl⟩
    | some t =>
      rw [stripDelimiters?, Option.orElse_eq_orElse, Option.orElse_eq_or, Option.or_eq_some_iff] at hstrip
      rcases hstrip with hstrip | ⟨-, hstrip⟩
      · exact h₁.exists_betweenDollars hstrip
      · exact h₁.exists_betweenBrackets hstrip
  obtain ⟨us₃, h₃, hs₃⟩ := h₂.exists_trim
  obtain ⟨us₄, h₄, hs₄⟩ : ∃ vs, ReadableWith colors vs ∧
      spell vs = (stripEnvironment? (spell us₃)).getD (spell us₃) := by
    cases hstrip : stripEnvironment? (spell us₃) with
    | none => exact ⟨us₃, h₃, rfl⟩
    | some t => exact h₃.exists_stripEnvironment hstrip
  obtain ⟨us₅, h₅, hs₅⟩ := h₄.exists_trim
  refine ⟨us₅, h₅, ?_⟩
  rw [hs₅, hs₄, hs₃, hs₂, hs₁]
  rfl

/-! ## The ends of an aligned text -/

/-- No blank starts or ends the text. -/
structure Trimmed (s : List Char) : Prop where
  head : ∀ c ∈ s.head?, isBlank c = false
  last : ∀ c ∈ s.getLast?, isBlank c = false

theorem Trimmed.trim_eq_self (h : Trimmed s) : trim s = s := by
  rw [trim, trimStart_eq_self h.head, trimEnd_eq_self h.last]

theorem Sign.not_isBlank_head {tail : List Sign} (hu : Block.isBlank ⟨u, tail⟩ = false) :
    ∀ c ∈ u.text.head?, isBlank c = false := by
  intro c hc
  cases u with
  | char d =>
    obtain rfl : d = c := by simpa [text] using hc
    exact hu
  | env opening name =>
    cases opening <;>
      · obtain rfl : '\\' = c := by simpa [text, beginOf, endOf] using hc
        decide
  | escaped | slash | word =>
    obtain rfl : '\\' = c := by simpa [text] using hc
    decide

theorem Sign.not_isBlank_last {tail : List Sign} (hfits : u.Fits t) (hu : Block.isBlank ⟨u, tail⟩ = false) :
    ∀ c ∈ u.text.getLast?, isBlank c = false := by
  intro c hc
  cases u with
  | char d =>
    obtain rfl : d = c := by simpa [text] using hc
    exact hu
  | escaped d =>
    obtain rfl : d = c := by simpa [text] using hc
    exact hfits.1
  | slash =>
    obtain rfl : '\\' = c := by simpa [text] using hc
    decide
  | word name =>
    have hmem := List.mem_of_getLast? hc
    rw [text, List.mem_cons] at hmem
    rcases hmem with rfl | hmem
    · decide
    · exact isBlank_eq_false_of_isCommandLetter (hfits.2.1 c hmem)
  | env opening name =>
    rw [Sign.getLast?_text_env] at hc
    obtain rfl : '}' = c := by simpa using hc
    decide

theorem getLast?_spell (us : List Sign) : (spell us).getLast? = us.getLast?.bind fun u => u.text.getLast? := by
  rcases List.eq_nil_or_concat us with rfl | ⟨x, u, rfl⟩
  · rfl
  · rw [List.concat_eq_append, spell_append, spell_cons, spell_nil, List.append_nil, List.getLast?_concat,
      Option.bind_some, List.getLast?_append_of_ne_nil _ u.text_ne_nil]

theorem Sign.Closes.getLast?_text (hu : u.Closes) : u.text.getLast? = some '}' := by
  rcases hu with rfl | rfl | ⟨name, rfl⟩
  · rfl
  · rfl
  · exact Sign.getLast?_text_env false name

/-- **Aligned blocks** start and end with no blank. -/
theorem Readable.trimmed (h : Readable us) (haligned : Aligned (blocksOf us)) : Trimmed (spell us) := by
  rcases haligned with hnil | hwalk
  · have hus := signsOf_blocksOf us
    rw [hnil] at hus
    rw [← hus]
    exact ⟨by simp, by simp⟩
  · have hgap : ∀ b : Block, b.isGap = false → b.isBlank = false := fun b hb => (Bool.or_eq_false_iff.1 hb).2
    constructor
    · cases us with
      | nil => simp
      | cons u us =>
        rw [blocksOf_cons, walk, Option.bind_eq_some_iff] at hwalk
        obtain ⟨p, hp, -⟩ := hwalk
        have hblank : Block.isBlank ⟨u, (u.split us).1⟩ = false := by
          refine hgap _ ?_
          rw [Place.next] at hp
          split at hp
          · cases hp
          · rename_i hsolid
            simpa using hsolid
        rw [head?_spell]
        exact Sign.not_isBlank_head hblank
    · rcases List.eq_nil_or_concat (blocksOf us) with hnil | ⟨x, b, hx⟩
      · rw [hnil] at hwalk
        cases hwalk
      · rw [List.concat_eq_append] at hx
        rw [hx] at hwalk
        obtain ⟨p, -, hp⟩ := walk_concat_eq_some hwalk
        have hblank : Block.isBlank ⟨b.head, b.tail⟩ = false := hgap b (next_eq_some_solid hp)
        have hus : us = signsOf x ++ b.head :: b.tail := by
          rw [← signsOf_blocksOf us, hx, signsOf_append]
          simp [Block.signs]
        have hsteady := steady_blocksOf us
        rw [hx] at hsteady
        have hsplit := hsteady.of_append_right.1
        have htail := b.head.split_getLast (b.tail ++ signsOf [])
        rw [hsplit] at htail
        rw [hus] at h
        rw [hus, getLast?_spell, List.getLast?_append]
        rcases htail with hnil | ⟨v, hv, hcloses⟩
        · have hnil : b.tail = [] := hnil
          rw [hnil]
          exact Sign.not_isBlank_last h.of_append_right.2.1 hblank
        · have hv : b.tail.getLast? = some v := hv
          rw [List.getLast?_cons, hv, Option.getD_some, Option.some_or, Option.bind_some, hcloses.getLast?_text]
          rintro _ ⟨⟩
          rfl

end MathMarkup.Tex
