import MathMarkup.Proofs.Conversion.Constructs
import MathMarkup.Proofs.Conversion.Unknown
import MathMarkup.Proofs.Normal.Nested
import MathMarkup.Proofs.Rows.Segments

/-!
# Arguments among signs

What a command or a script takes is read from the signs behind it (`takes?`), as it is read from their text
(`argument?_spell`), and not beyond the group or the environment that they stand in: `Supplies` says that so many
arguments stand at the start, and signs where nothing is taken (`Ends`) make no difference behind them
(`Supplies.front`).
-/

namespace MathMarkup.Tex

open Sign Text

variable {us a r x y p q t rest : List Sign} {u v : Sign} {c : Char} {n : Nat} {s name : List Char}

/-! ## What stands behind a command -/

namespace Sign

/-- Is the sign a blank character? -/
def isBlank : Sign → Bool
  | char c => Text.isBlank c
  | _ => false

/-- Does a row or a cell of a table end at the sign? -/
def isSeparator (u : Sign) : Bool := u == .escaped '\\' || u == .char '&'

/-- Is the sign an argument by itself? A command is one when it takes none. -/
def isArgument : Sign → Bool
  | char c => !Text.isBlank c && !(['{', '}', '&', '^', '_', '%', '$', '\\'].contains c)
  | escaped c => c != '\\'
  | word name => (argumentCount? (String.ofList name)).isNone && (build? (String.ofList name)).isNone
  | slash | env _ _ => false

theorem isFlat_of_isArgument (h : u.isArgument = true) : u.isFlat = true := by
  cases u with
  | char c =>
    have hc : c ≠ '{' ∧ c ≠ '}' := by
      constructor <;>
        · rintro rfl
          simp [isArgument] at h
    simpa [isFlat] using hc
  | escaped | word => rfl
  | slash | env => cases h

theorem isFlat_of_isBlank (h : u.isBlank = true) : u.isFlat = true := by
  cases u with
  | char c =>
    obtain ⟨-, hopen, hclose⟩ := isPlain_of_isBlank h
    simpa [isFlat] using ⟨hopen, hclose⟩
  | escaped | slash | word | env => cases h

theorem isBlank_of_isArgument (h : u.isArgument = true) : u.isBlank = false := by
  cases u with
  | char c =>
    rw [isArgument, Bool.and_eq_true] at h
    simpa [isBlank] using h.1
  | escaped | slash | word | env => rfl

end Sign

/-- What is taken as an argument behind blanks, without its braces, and the signs behind it. -/
def takes? : List Sign → Option (List Sign × List Sign)
  | [] => none
  | u :: us =>
    if u.isBlank then takes? us
    else if u = .char '{' then (closing? (.char '{') (.char '}') 1 us).map fun (g, r) => (g.dropLast, r)
    else if u.isArgument then some ([u], us)
    else none

theorem takes?_blank (hu : u.isBlank = true) (us : List Sign) : takes? (u :: us) = takes? us := by
  rw [takes?, if_pos hu]

theorem takes?_group (ha : Nested a) (us : List Sign) :
    takes? (.char '{' :: (a ++ .char '}' :: us)) = some (a, us) := by
  rw [takes?, if_neg (by decide), if_pos rfl, ha.closing?_eq rfl]
  simp

theorem takes?_single (hu : u.isArgument = true) (us : List Sign) : takes? (u :: us) = some ([u], us) := by
  have hopen : u ≠ .char '{' := by
    rintro rfl
    simp [isArgument] at hu
  rw [takes?, if_neg (by simp [isBlank_of_isArgument hu]), if_neg hopen, if_pos hu]

/-- Induction along nested signs, by what they are for a command: blanks, an argument, or none. -/
@[elab_as_elim]
theorem Nested.takes_induction {motive : (us : List Sign) → Nested us → Prop} (nil : motive [] .nil)
    (blank : ∀ u us (h : Nested us) (hall : Nested (u :: us)), u.isBlank = true → motive us h → motive (u :: us) hall)
    (group : ∀ a us (hall : Nested (.char '{' :: (a ++ .char '}' :: us))), Nested a → Nested us → motive _ hall)
    (single : ∀ u us (hall : Nested (u :: us)), u.isArgument = true → Nested us → motive (u :: us) hall)
    (stop : ∀ u us (hall : Nested (u :: us)), u.isBlank = false → u ≠ .char '{' → u.isArgument = false →
      motive (u :: us) hall)
    (h : Nested us) : motive us h := by
  induction us with
  | nil => exact nil
  | cons u us ih =>
    by_cases hblank : u.isBlank = true
    · have hus := h.of_flat (isFlat_of_isBlank hblank)
      exact blank u us hus h hblank (ih hus)
    by_cases hopen : u = .char '{'
    · subst hopen
      obtain ⟨a, r, rfl, ha, hr⟩ := h.exists_pair rfl
      exact group a r h ha hr
    by_cases hargument : u.isArgument = true
    · exact single u us h hargument (h.of_flat (isFlat_of_isArgument hargument))
    · exact stop u us h (by simpa using hblank) hopen (by simpa using hargument)

theorem takes?_stop (hblank : u.isBlank = false) (hopen : u ≠ .char '{') (hargument : u.isArgument = false)
    (us : List Sign) : takes? (u :: us) = none := by
  rw [takes?, if_neg (by simp [hblank]), if_neg hopen, if_neg (by simp [hargument])]

/-- The argument and what stands behind it are nested; the argument stands in front. -/
theorem Nested.of_takes? (h : Nested us) (ht : takes? us = some (a, r)) :
    Nested a ∧ Nested r ∧ ∃ front, us = front ++ r ∧ a <:+: front := by
  induction h using Nested.takes_induction with
  | nil => cases ht
  | blank u us _ _ hu ih =>
    rw [takes?_blank hu] at ht
    obtain ⟨ha, hr, front, rfl, hfront⟩ := ih ht
    exact ⟨ha, hr, u :: front, rfl, hfront.trans (List.suffix_cons u front).isInfix⟩
  | group b us _ hb hus =>
    rw [takes?_group hb] at ht
    cases ht
    exact ⟨hb, hus, char '{' :: (a ++ [char '}']), by simp, List.infix_append [char '{'] a [char '}']⟩
  | single u us _ hu hus =>
    rw [takes?_single hu] at ht
    cases ht
    exact ⟨.flat (isFlat_of_isArgument hu) .nil, hus, [u], rfl, List.infix_rfl⟩
  | stop u us _ hblank hopen hargument =>
    rw [takes?_stop hblank hopen hargument] at ht
    cases ht

theorem ReadableWith.of_part (h : Legible us) (ha : a <:+: us) : Legible a := by
  obtain ⟨x, y, rfl⟩ := ha
  exact h.of_append_left.of_append_right

/-- What is taken in front of signs that are no argument is taken without them. -/
theorem Nested.takes?_front (hx : Nested x) (hnone : takes? t = none) (ht : takes? (x ++ t) = some (a, r)) :
    ∃ r', takes? x = some (a, r') ∧ r = r' ++ t := by
  induction hx using Nested.takes_induction with
  | nil =>
    rw [List.nil_append, hnone] at ht
    cases ht
  | blank u x _ _ hu ih =>
    rw [List.cons_append, takes?_blank hu] at ht
    rw [takes?_blank hu]
    exact ih ht
  | group b x _ hb _ =>
    rw [List.cons_append, List.append_assoc, List.cons_append, takes?_group hb] at ht
    cases ht
    exact ⟨x, takes?_group hb x, rfl⟩
  | single u x _ hu _ =>
    rw [List.cons_append, takes?_single hu] at ht
    cases ht
    exact ⟨x, takes?_single hu x, rfl⟩
  | stop u x _ hblank hopen hargument =>
    rw [List.cons_append, takes?_stop hblank hopen hargument] at ht
    cases ht

/-- So many arguments stand at the start. -/
def Supplies : Nat → List Sign → Prop
  | 0, _ => True
  | n + 1, us => ∃ a r, takes? us = some (a, r) ∧ Supplies n r

theorem Supplies.front (h : Supplies n (x ++ t)) (hx : Nested x) (hnone : takes? t = none) : Supplies n x := by
  induction n generalizing x with
  | zero => trivial
  | succ n ih =>
    obtain ⟨a, r, ht, hr⟩ := h
    obtain ⟨r', hx', rfl⟩ := hx.takes?_front hnone ht
    exact ⟨a, r', hx', ih hr (hx.of_takes? hx').2.1⟩

/-! ## Where nothing is taken -/

/-- Does the sign close a group or an environment? -/
def Sign.isCloser (u : Sign) : Bool := !u.isFlat && u.partner?.isNone

theorem Sign.cases_of_isCloser (h : u.isCloser = true) : u = .char '}' ∨ ∃ name, u = .env false name := by
  cases u with
  | char c =>
    by_cases hopen : c = '{'
    · subst hopen
      cases h
    · have hclose : c = '}' := by
        simpa [isCloser, isFlat, hopen, Bool.and_eq_true] using (Bool.and_eq_true_iff.1 h).1
      exact Or.inl (hclose ▸ rfl)
  | env opening name =>
    cases opening with
    | true => cases h
    | false => exact Or.inr ⟨name, rfl⟩
  | escaped | slash | word => cases h

/-- Signs that start with no argument: the end of a part, or a blank that is left out there. -/
inductive Ends : List Sign → Prop
  | nil : Ends []
  | blank {u : Sign} (hu : u.isBlank = true) : Ends [u]
  | cut {u : Sign} {us : List Sign} (hu : u.isSeparator = true ∨ u.isCloser = true) : Ends (u :: us)

theorem Ends.takes?_eq_none (h : Ends q) : takes? q = none := by
  cases h with
  | nil => rfl
  | blank hu => exact takes?_blank hu []
  | @cut u us hu =>
    rcases hu with hu | hu
    · rw [isSeparator, Bool.or_eq_true, beq_iff_eq, beq_iff_eq] at hu
      rcases hu with rfl | rfl <;> exact takes?_stop (by decide) (by decide) (by decide) us
    · rcases cases_of_isCloser hu with rfl | ⟨name, rfl⟩ <;> exact takes?_stop (by rfl) (by simp) (by rfl) us

theorem Ends.append (ht : ∀ v ∈ t.head?, v.isCloser = true) (hq : Ends q) : Ends (t ++ q) := by
  cases t with
  | nil => exact hq
  | cons v t => exact .cut (Or.inr (ht v rfl))

/-- Behind the start of nested signs nested signs come, up to the end of a group or of an environment. -/
theorem Nested.exists_front (h : Nested (x ++ y)) :
    ∃ inner t, y = inner ++ t ∧ Nested inner ∧ ∀ v ∈ t.head?, v.isCloser = true := by
  generalize hall : x ++ y = all at h
  induction h generalizing x y with
  | nil => exact ⟨[], [], (List.append_eq_nil_iff.1 hall).2, .nil, by simp⟩
  | @flat u us hu h ih =>
    cases x with
    | nil =>
      rw [List.nil_append] at hall
      exact ⟨y, [], by simp, hall ▸ .flat hu h, by simp⟩
    | cons w x => exact ih (List.cons.inj hall).2
  | @pair u v a us hpair ha h iha ih =>
    cases x with
    | nil =>
      rw [List.nil_append] at hall
      exact ⟨y, [], by simp, hall ▸ .pair hpair ha h, by simp⟩
    | cons w x =>
      have hclose : v.isCloser = true := by
        simp [isCloser, closer_of_partner? hpair]
      rcases List.append_eq_append_iff.1 (List.cons.inj hall).2 with ⟨m, rfl, rfl⟩ | ⟨m, rfl, hrest⟩
      · obtain ⟨inner, t, rfl, hinner, ht⟩ := iha rfl
        refine ⟨inner, t ++ v :: us, by simp, hinner, ?_⟩
        cases t with
        | nil => simpa using hclose
        | cons d t => exact ht
      · cases m with
        | nil => exact ⟨[], y, rfl, .nil, by rw [← List.nil_append y, ← hrest]; simpa using hclose⟩
        | cons d m => exact ih (List.cons.inj hrest).2.symm

theorem Nested.takes?_append (hx : Nested x) (h : takes? x = some (a, r)) (t : List Sign) :
    takes? (x ++ t) = some (a, r ++ t) := by
  induction hx using Nested.takes_induction with
  | nil => cases h
  | blank u x _ _ hu ih =>
    rw [takes?_blank hu] at h
    rw [List.cons_append, takes?_blank hu]
    exact ih h
  | group b x _ hb _ =>
    rw [takes?_group hb] at h
    cases h
    rw [List.cons_append, List.append_assoc, List.cons_append, takes?_group hb]
  | single u x _ hu _ =>
    rw [takes?_single hu] at h
    cases h
    rw [List.cons_append, takes?_single hu]
  | stop u x _ hblank hopen hargument =>
    rw [takes?_stop hblank hopen hargument] at h
    cases h

theorem Supplies.append (h : Supplies n x) (hx : Nested x) (t : List Sign) : Supplies n (x ++ t) := by
  induction n generalizing x with
  | zero => trivial
  | succ n ih =>
    obtain ⟨a, r, ht, hr⟩ := h
    exact ⟨a, r ++ t, hx.takes?_append ht t, ih hr (hx.of_takes? ht).2.1⟩

/-- **What is taken inside nested signs** stands inside them. -/
theorem Supplies.of_ends (h : Supplies n (y ++ q)) (hy : Nested (x ++ y)) (hq : Ends q) : Supplies n y := by
  obtain ⟨inner, t, rfl, hinner, ht⟩ := hy.exists_front
  rw [List.append_assoc] at h
  exact (h.front hinner (hq.append ht).takes?_eq_none).append hinner t

/-- Nested signs that are cut nowhere do not reach over the end. -/
theorem Nested.prefix_of_ends (hp : Nested p) (hcut : ∀ v ∈ p, v.isSeparator = false)
    (hlast : ∀ v ∈ p.getLast?, v.isBlank = false) (hy : Nested (x ++ y)) (hq : Ends q) (h : y ++ q = p ++ rest) :
    ∃ r, y = p ++ r ∧ rest = r ++ q := by
  obtain ⟨inner, t, rfl, hinner, ht⟩ := hy.exists_front
  have hends := hq.append ht
  rw [List.append_assoc] at h
  rcases List.append_eq_append_iff.1 h with ⟨m, rfl, hm⟩ | ⟨m, rfl, rfl⟩
  · cases m with
    | nil => exact ⟨t, by simp, by simpa using hm.symm⟩
    | cons v m =>
      -- the first sign behind the inner part would stand among the nested signs
      rw [hm] at hends
      generalize hall : v :: m ++ rest = all at hends
      cases hends with
      | nil => cases hall
      | blank hu =>
        obtain ⟨rfl, hm⟩ := List.cons.inj hall
        obtain ⟨rfl, -⟩ := List.append_eq_nil_iff.1 hm
        rw [hlast v (by simp)] at hu
        cases hu
      | cut hu =>
        obtain ⟨rfl, -⟩ := List.cons.inj hall
        rcases hu with hu | hu
        · rw [hcut v (by simp)] at hu
          cases hu
        · rcases (hp.of_append hinner).isFlat_or_partner? with hflat | ⟨w, hw⟩
          · simp [isCloser, hflat] at hu
          · simp [isCloser, hw] at hu
  · exact ⟨m ++ t, by simp, by simp⟩

/-! ## The index of a root -/

/-- An index in brackets behind blanks, and the signs behind it. The index is nested, ends at its first bracket,
and is not cut. -/
structure HasIndex (us index rest : List Sign) : Prop where
  spelled : ∃ blanks, (∀ u ∈ blanks, u.isBlank = true) ∧
    us = blanks ++ .char '[' :: (index ++ .char ']' :: rest)
  nested : Nested index
  closed : ']' ∉ spell index
  whole : ∀ u ∈ index, u.isSeparator = false

theorem Nested.of_blanks (h : ∀ u ∈ us, u.isBlank = true) : Nested us :=
  .of_flats fun u hu => isFlat_of_isBlank (h u hu)

theorem isSeparator_of_isBlank (h : u.isBlank = true) : u.isSeparator = false := by
  cases u with
  | char c =>
    have hc : c ≠ '&' := by
      rintro rfl
      cases h
    simp [isSeparator, hc]
  | escaped | slash | word | env => cases h

/-- The index and what surrounds it is a nested part that stands in front. -/
theorem HasIndex.exists_front {index : List Sign} (h : HasIndex us index rest) : ∃ front, us = front ++ rest ∧
    Nested front ∧ (∀ v ∈ front, v.isSeparator = false) ∧ front.getLast? = some (.char ']') := by
  obtain ⟨blanks, hblanks, rfl⟩ := h.spelled
  have hlast : (blanks ++ char '[' :: index ++ [char ']']).getLast? = some (char ']') := List.getLast?_concat
  refine ⟨blanks ++ .char '[' :: (index ++ [.char ']']), by simp, ?_, fun v hv => ?_, by simpa using hlast⟩
  · exact (Nested.of_blanks hblanks).append (.flat rfl (h.nested.append (.flat rfl .nil)))
  · simp only [List.mem_append, List.mem_cons, List.not_mem_nil, or_false] at hv
    rcases hv with hv | rfl | hv | rfl
    · exact isSeparator_of_isBlank (hblanks v hv)
    · rfl
    · exact h.whole v hv
    · rfl

/-- An index does not reach over the end. -/
theorem HasIndex.of_ends {index : List Sign} (h : HasIndex (y ++ q) index rest) (hy : Nested (x ++ y)) (hq : Ends q) :
    ∃ r, HasIndex y index r ∧ rest = r ++ q ∧ ∃ front, y = front ++ r ∧ Nested front := by
  obtain ⟨front, hus, hfront, hcut, hlast⟩ := h.exists_front
  obtain ⟨r, hr, rfl⟩ := hfront.prefix_of_ends hcut (by rw [hlast]; rintro v ⟨⟩; rfl) hy hq hus
  refine ⟨r, ⟨?_, h.nested, h.closed, h.whole⟩, rfl, front, hr, hfront⟩
  obtain ⟨blanks, hblanks, heq⟩ := h.spelled
  refine ⟨blanks, hblanks, (List.append_left_inj q).1 ?_⟩
  rw [heq]
  simp

/-! ## The same, read from the text -/

/-- Blanks in front of an argument are left out. -/
theorem argument?_blank (hc : Text.isBlank c = true) (s : List Char) : argument? (c :: s) = argument? s := by
  have htrim : trimStart (c :: s) = trimStart s := List.dropWhile_cons_of_pos hc
  rw [argument?, argument?, splitArgument?, splitArgument?, htrim]
  cases splitArgumentHere? (trimStart s) <;> rfl

theorem argument?_of_not_blank (hs : ∀ c ∈ s.head?, Text.isBlank c = false) :
    argument? s = (splitArgumentHere? s).map fun (arg, rest) => (unbrace arg, rest) := by
  rw [argument?, splitArgument?, trimStart_eq_self hs]
  cases splitArgumentHere? s <;> rfl

/-- Leaving blank signs out is leaving blank characters out. -/
theorem trimStart_spell (h : Legible us) : trimStart (spell us) = spell (us.dropWhile Sign.isBlank) := by
  induction us with
  | nil => rfl
  | cons u us ih =>
    by_cases hu : u.isBlank = true
    · cases u with
      | char c =>
        rw [List.dropWhile_cons_of_pos hu, ← ih h.2.2]
        exact List.dropWhile_cons_of_pos hu
      | escaped | slash | word | env => cases hu
    · rw [List.dropWhile_cons_of_neg hu]
      refine trimStart_eq_self fun c hc => ?_
      rw [head?_spell_cons] at hc
      by_cases hchar : ∃ d, u = char d
      · obtain ⟨d, rfl⟩ := hchar
        obtain rfl : d = c := Option.some.inj hc
        exact Bool.eq_false_iff.2 hu
      · have hslash := (head?_text_eq_slash h.2.1).2 fun d hd => hchar ⟨d, hd⟩
        rw [hslash] at hc
        obtain rfl : '\\' = c := Option.some.inj hc
        rfl

theorem unbrace_of_head (hs : s.head? ≠ some '{') : unbrace s = s := by
  unfold unbrace
  split
  · exact absurd rfl hs
  · rfl

/-- An argument of one sign is its text. -/
theorem splitArgumentHere?_text (hread : Legible (u :: us)) (hu : u.isArgument = true) :
    splitArgumentHere? (u.text ++ spell us) = some (u.text, spell us) := by
  obtain ⟨-, hfits, -⟩ := hread
  cases u with
  | char c =>
    have hc : c ≠ '{' ∧ c ≠ '}' ∧ c ≠ '&' ∧ c ≠ '^' ∧ c ≠ '_' ∧ c ≠ '%' ∧ c ≠ '$' ∧ c ≠ '\\' := by
      simpa [isArgument] using (Bool.and_eq_true_iff.1 hu).2
    rw [text, List.singleton_append, splitArgumentHere?] <;> simp [hc]
  | escaped c =>
    have hslash : c ≠ '\\' := by simpa [isArgument] using hu
    have hletter := hfits.2.1
    simp only [text, List.cons_append, List.nil_append]
    rw [splitArgumentHere?]
    · rw [if_neg (by simp [hletter])]
    · exact fun h => hslash h
  | word name => exact splitArgumentHere?_word ⟨hfits.1, hfits.2.1, hfits.2.2.1⟩
  | slash | env => cases hu

theorem head?_text_of_isArgument (hu : u.isArgument = true) :
    (∀ c ∈ u.text.head?, Text.isBlank c = false) ∧ u.text.head? ≠ some '{' := by
  cases u with
  | char c =>
    obtain ⟨hblank, hc⟩ := Bool.and_eq_true_iff.1 hu
    refine ⟨fun d hd => ?_, fun hbrace => ?_⟩
    · obtain rfl : c = d := Option.some.inj hd
      simpa using hblank
    · obtain rfl : c = '{' := Option.some.inj hbrace
      simp at hc
  | escaped c =>
    refine ⟨fun d hd => ?_, fun hbrace => absurd (Option.some.inj hbrace) (by decide)⟩
    obtain rfl : '\\' = d := Option.some.inj hd
    rfl
  | word name =>
    refine ⟨fun d hd => ?_, fun hbrace => absurd (Option.some.inj hbrace) (by decide)⟩
    obtain rfl : '\\' = d := Option.some.inj hd
    rfl
  | slash | env => cases hu

/-- **What is taken** is the argument that the text starts with. -/
theorem argument?_spell (hread : Legible us) (h : Nested us) (ht : takes? us = some (a, r)) :
    argument? (spell us) = some (spell a, spell r) := by
  induction h using Nested.takes_induction with
  | nil => cases ht
  | blank u us _ _ hu ih =>
    cases u with
    | char c =>
      rw [takes?_blank hu] at ht
      rw [spell_cons, text, List.singleton_append, argument?_blank hu]
      exact ih hread.2.2 ht
    | escaped | slash | word | env => cases hu
  | group b us _ hb hus =>
    rw [takes?_group hb, Option.some.injEq, Prod.mk.injEq] at ht
    obtain ⟨rfl, rfl⟩ := ht
    have hgroup := splitGroup?_spell hread
    rw [hb.group?_eq us, Option.map_some, spellPair] at hgroup
    have htext : spell (.char '{' :: (b ++ .char '}' :: us)) = '{' :: spell (b ++ .char '}' :: us) := rfl
    rw [argument?_of_not_blank (by rw [htext]; rintro c ⟨⟩; rfl), htext, splitArgumentHere?, ← htext, hgroup]
    simp [unbrace, text]
  | single u us _ hu hus =>
    rw [takes?_single hu, Option.some.injEq, Prod.mk.injEq] at ht
    obtain ⟨rfl, rfl⟩ := ht
    obtain ⟨hblank, hbrace⟩ := head?_text_of_isArgument hu
    rw [argument?_of_not_blank (by rw [head?_spell_cons]; exact hblank), spell_cons, splitArgumentHere?_text hread hu]
    simp [unbrace_of_head hbrace]
  | stop u us _ hblank hopen hargument =>
    rw [takes?_stop hblank hopen hargument] at ht
    cases ht

theorem isSome_splitArgumentHere?_append (h : (splitArgumentHere? s).isSome) (t : List Char) :
    (splitArgumentHere? (s ++ t)).isSome := by
  fun_cases splitArgumentHere? s with
  | case1 | case3 | case4 | case5 | case6 | case7 | case8 | case9 | case10 => cases h
  | case2 s =>
    obtain ⟨⟨group, rest⟩, hgroup⟩ := Option.isSome_iff_exists.1 h
    rw [splitArgumentHere?] at hgroup
    have happend := splitGroup?_append hgroup t
    rw [List.cons_append] at happend ⊢
    rw [splitArgumentHere?, happend]
    rfl
  | case11 c s hslash hletter =>
    rw [List.cons_append, List.cons_append, splitArgumentHere?, if_pos hletter]
    · rfl
    · exact hslash
  | case12 c s hslash hletter =>
    rw [List.cons_append, List.cons_append, splitArgumentHere?, if_neg hletter]
    · rfl
    · exact hslash
  | case13 c s hopen hclose htab hsup hsub hpercent hshift hend hbreak hcommand =>
    have hslash : c ≠ '\\' := by
      rintro rfl
      cases s with
      | nil => exact hend rfl rfl
      | cons d s => exact hcommand d s rfl rfl
    rw [List.cons_append, splitArgumentHere?] <;> simp_all

/-- Where a text starts with an argument, a longer one does. -/
theorem isSome_argument?_append (h : (argument? s).isSome) (t : List Char) : (argument? (s ++ t)).isSome := by
  induction s with
  | nil => cases h
  | cons c s ih =>
    by_cases hc : Text.isBlank c = true
    · rw [argument?_blank hc] at h
      rw [List.cons_append, argument?_blank hc]
      exact ih h
    · have hhead : ∀ d ∈ (c :: s).head?, Text.isBlank d = false := by
        rintro d ⟨⟩
        simpa using hc
      rw [argument?_of_not_blank hhead, Option.isSome_map] at h
      rw [argument?_of_not_blank (s := c :: s ++ t) hhead, Option.isSome_map]
      exact isSome_splitArgumentHere?_append h t

theorem bracketed?_eq_none_iff : bracketed? s = none ↔ (trimStart s).head? ≠ some '[' := by
  rw [bracketed?]
  split
  · rename_i inner h
    simp [h]
  · rename_i h
    rw [eq_self, true_iff]
    intro hhead
    obtain ⟨inner, hinner⟩ := List.head?_eq_some_iff.1 hhead
    exact h inner hinner

/-- Without a bracket behind a longer text there is none behind its start. -/
theorem bracketed?_of_append {s t : List Char} (h : bracketed? (s ++ t) = none) : bracketed? s = none := by
  rw [bracketed?_eq_none_iff] at h ⊢
  intro hhead
  refine h ?_
  obtain ⟨inner, hinner⟩ := List.head?_eq_some_iff.1 hhead
  rw [trimStart] at hinner
  rw [trimStart, List.dropWhile_append, hinner]
  rfl

/-- **An index** is what the text has in brackets. -/
theorem HasIndex.bracketed?_spell {index : List Sign} (h : HasIndex us index rest) :
    bracketed? (spell us) = some (some (spell index, spell rest)) := by
  obtain ⟨blanks, hblanks, rfl⟩ := h.spelled
  have hgap : ∀ c ∈ spell blanks, Text.isBlank c = true := by
    intro c hc
    obtain ⟨u, hu, hc⟩ := List.mem_flatMap.1 hc
    have hblank := hblanks u hu
    cases u with
    | char d =>
      obtain rfl := List.mem_singleton.1 hc
      exact hblank
    | escaped | slash | word | env => cases hblank
  have htext : spell (blanks ++ .char '[' :: (index ++ .char ']' :: rest)) =
      spell blanks ++ '[' :: (spell index ++ ']' :: spell rest) := by simp [text]
  rw [htext, bracketed?_index hgap h.closed]

end MathMarkup.Tex
