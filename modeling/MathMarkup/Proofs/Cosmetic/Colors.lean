import MathMarkup.Proofs.Normal.Frame
import MathMarkup.Proofs.Normal.Settled

/-!
# Colors in what a color applies to

A substitution goes on behind what it wrote. So a color in the groups of a token that gets braces waits for
the next pass: fixing a fixed text changes nothing exactly if no such token holds one. Nothing else is left
for the next pass.

Main theorem: `cosmetic_cosmetic_iff`.
-/

namespace MathMarkup.Tex

open Text

variable {rule : List Char → Option (List Char × List Char)} {IsWord : List Char → Prop}
variable {a b s t w color behind token out rest : List Char} {c : Char} {limit opened : Nat}

/-! ## What a color applies to -/

/-- The start of what a color applies to: a letter behind a backslash, or one character. -/
def IsTokenStart (start : List Char) : Prop :=
  (∃ d, d.isAlpha = true ∧ start = ['\\', d]) ∨
    ∃ c, c ≠ '\\' ∧ (isBlank c || isBrace c || c == '&' || c == '^' || c == '_') = false ∧ start = [c]

theorem colored?_slash_eq_none_iff : colored? ('\\' :: s) = none ↔ ∀ d ∈ s.head?, d.isAlpha = false := by
  rw [colored?_slash]
  cases s with
  | nil => simp
  | cons d s => cases hd : d.isAlpha <;> simp [hd]

theorem colored?_cons_eq_none_iff (hc : c ≠ '\\') : colored? (c :: s) = none ↔
    (isBlank c || isBrace c || c == '&' || c == '^' || c == '_') = true := by
  rw [colored?, if_neg hc]
  split
  · rename_i hdeclined
    exact iff_of_true rfl hdeclined
  · rename_i haccepted
    exact iff_of_false (by simp) haccepted

/-- **A color applies** to what starts so, and to nothing else. -/
theorem colored?_eq_none_iff : colored? s = none ↔ ∀ start, IsTokenStart start → ¬ start <+: s := by
  cases s with
  | nil =>
    refine iff_of_true rfl ?_
    rintro start (⟨d, -, rfl⟩ | ⟨c, -, -, rfl⟩) h
    · cases List.prefix_nil.1 h
    · cases List.prefix_nil.1 h
  | cons c s =>
    by_cases hslash : c = '\\'
    · subst hslash
      rw [colored?_slash_eq_none_iff]
      constructor
      · rintro hnone start (⟨d, hd, rfl⟩ | ⟨c, hc, -, rfl⟩) h
        · obtain ⟨r, rfl⟩ := (List.cons_prefix_cons.1 h).2
          rw [hnone d rfl] at hd
          cases hd
        · exact hc (List.cons_prefix_cons.1 h).1
      · intro hstarts d hd
        obtain ⟨r, rfl⟩ := List.head?_eq_some_iff.1 hd
        exact Bool.eq_false_iff.2 fun hletter => hstarts _ (Or.inl ⟨d, hletter, rfl⟩) ⟨r, rfl⟩
    · rw [colored?_cons_eq_none_iff hslash]
      constructor
      · rintro hdeclined start (⟨d, -, rfl⟩ | ⟨e, -, he, rfl⟩) h
        · exact hslash (List.cons_prefix_cons.1 h).1.symm
        · obtain rfl := (List.cons_prefix_cons.1 h).1
          rw [he] at hdeclined
          cases hdeclined
      · intro hstarts
        exact eq_true_of_ne_false fun haccepted => hstarts _ (Or.inr ⟨c, hslash, haccepted, rfl⟩) ⟨s, rfl⟩

theorem isBrace_of_isTokenStart {start : List Char} (h : IsTokenStart start) : ∀ c ∈ start, isBrace c = false := by
  rcases h with ⟨d, hd, rfl⟩ | ⟨c, -, hc, rfl⟩
  · refine List.forall_mem_cons.2 ⟨rfl, List.forall_mem_singleton.2 (Bool.eq_false_iff.2 fun hbrace => ?_)⟩
    simp only [isBrace, Bool.or_eq_true, beq_iff_eq] at hbrace
    rcases hbrace with rfl | rfl <;> cases hd
  · simp only [Bool.or_eq_false_iff] at hc
    exact List.forall_mem_singleton.2 hc.1.1.1.2

theorem blank_notMem_of_isTokenStart {start : List Char} (h : IsTokenStart start) : ' ' ∉ start := by
  rcases h with ⟨d, hd, rfl⟩ | ⟨c, -, hc, rfl⟩
  · rw [List.mem_cons, List.mem_singleton, not_or]
    exact ⟨by decide, by rintro rfl; cases hd⟩
  · rw [List.mem_singleton]
    rintro rfl
    simp [isBlank, inRanges, blankRanges] at hc

/-- A color with the start of what it applies to. -/
def IsColored (w : List Char) : Prop :=
  ∃ color start, (∀ c ∈ color, isBrace c = false) ∧ IsTokenStart start ∧ w = colorOpen ++ (color ++ '}' :: start)

theorem coloredTokenRule_of_colored? (hcolor : ∀ c ∈ color, isBrace c = false)
    (h : colored? behind = some (token, rest)) :
    coloredTokenRule (colorOpen ++ (color ++ '}' :: behind)) =
      some (colorOpen ++ color ++ ['}', '{'] ++ token ++ ['}'], rest) := by
  have hflat : flatBody? (color ++ '}' :: behind) = some (color, behind) := flatBody?_eq_some_iff.2 ⟨hcolor, rfl⟩
  simp [coloredTokenRule, hflat, h]

theorem isPattern_of_isColored (hw : IsColored w) : IsPattern w := by
  obtain ⟨color, start, hcolor, hstart, rfl⟩ := hw
  have hflat := count_eq_zero_of_flat hcolor
  have hflat' := count_eq_zero_of_flat (isBrace_of_isTokenStart hstart)
  have htail : (colorOpen ++ (color ++ '}' :: start)).tail =
      ['c', 'o', 'l', 'o', 'r', '{'] ++ (color ++ '}' :: start) := rfl
  refine ⟨⟨['c', 'o', 'l', 'o', 'r'], _, rfl, by simp [isBrace]⟩, ?_, ?_, ?_⟩
  · rw [htail]
    exact unopened_append (by decide) (by simp [List.count_eq_zero.1 hflat.1, List.count_eq_zero.1 hflat'.1])
  · intro x z hxz
    obtain ⟨b, rfl, hb⟩ := closes_after (by decide) hcolor (by simp [blank_notMem_of_isTokenStart hstart]) hxz
    exact ⟨b, _, rfl, hb⟩
  · intro x z hxz
    have hword : (colorOpen ++ color) ++ '}' :: start = x ++ '}' :: z := by simpa using hxz
    refine count_lt_of_append ?_ (by simp [colorOpen, hflat.1, hflat'.2]) hword
    simp [colorOpen, List.count_eq_zero.1 hflat.2]

theorem finds_coloredTokenRule : Finds coloredTokenRule IsColored where
  none_iff s := by
    constructor
    · rintro hnone w ⟨color, start, hcolor, hstart, rfl⟩ ⟨r, rfl⟩
      cases hcolored : colored? (start ++ r) with
      | none => exact colored?_eq_none_iff.1 hcolored start hstart (List.prefix_append start r)
      | some found =>
        have hsome := coloredTokenRule_of_colored? hcolor hcolored
        rw [List.append_assoc, List.append_assoc, List.cons_append, hsome] at hnone
        cases hnone
    · intro hnone
      refine Option.eq_none_iff_forall_ne_some.2 fun found hfound => ?_
      obtain ⟨color, behind, token, hcolor, rfl, htoken, -⟩ := coloredTokenRule_eq_some hfound
      have hstarts : colored? behind = none := by
        refine colored?_eq_none_iff.2 fun start hstart => ?_
        rintro ⟨r, rfl⟩
        exact hnone _ ⟨color, start, hcolor, hstart, rfl⟩ ⟨r, by simp⟩
      rw [hstarts] at htoken
      cases htoken
  pattern _ := isPattern_of_isColored

theorem keepsHead_coloredTokenRule : KeepsHead coloredTokenRule := by
  intro s out rest h
  obtain ⟨color, behind, token, hcolor, rfl, htoken, rfl⟩ := coloredTokenRule_eq_some h
  refine ⟨?_, ['c', 'o', 'l', 'o', 'r'], List.prefix_append colorOpen _, ?_⟩
  · rw [append_of_colored? htoken]
    simp only [colorOpen, List.length_append, List.length_cons, List.length_nil]
    omega
  · simp only [List.append_assoc]
    exact List.prefix_append colorOpen _

/-! ## Groups of a token -/

/-- From every place on, the text closes at least as many groups as it opens. -/
def ClosesAll (s : List Char) : Prop := ∀ y, y <:+ s → y.count '{' ≤ y.count '}'

theorem ClosesAll.cons (hs : ClosesAll s) (hc : (c :: s).count '{' ≤ (c :: s).count '}') : ClosesAll (c :: s) := by
  intro y hy
  rcases List.suffix_cons_iff.1 hy with rfl | hy
  · exact hc
  · exact hs y hy

theorem ClosesAll.append (ha : ClosesAll a) (hb : ClosesAll b) : ClosesAll (a ++ b) := by
  induction a with
  | nil => exact hb
  | cons c a ih =>
    have hrest : ClosesAll a := fun y hy => ha y (hy.trans (List.suffix_cons c a))
    refine .cons (ih hrest) ?_
    have hfront := ha _ List.suffix_rfl
    have hback := hb _ List.suffix_rfl
    have hcounts := Nat.add_le_add hfront hback
    rwa [← List.count_append, ← List.count_append, List.cons_append] at hcounts

theorem closesAll_of_notMem (h : '{' ∉ s) : ClosesAll s := by
  intro y hy
  rw [List.count_eq_zero.2 fun hmem => h (hy.subset hmem)]
  exact Nat.zero_le _

/-- What closes the open groups closes all that it opens. -/
theorem closesAll_of_closeNested? (h : closeNested? limit opened s = some (a, b)) :
    ClosesAll a ∧ a.count '}' = a.count '{' + opened + 1 := by
  induction s generalizing opened a with
  | nil => cases h
  | cons c s ih =>
    -- with the text behind its first character, whatever that one changes
    have hstep : ∀ opened' group, closeNested? limit opened' s = some (group, b) → a = c :: group →
        (c :: group).count '}' = (c :: group).count '{' + opened + 1 →
        ClosesAll a ∧ a.count '}' = a.count '{' + opened + 1 := by
      rintro opened' group hgroup rfl hcount
      exact ⟨(ih hgroup).1.cons (by omega), hcount⟩
    simp only [closeNested?] at h
    split at h
    · rename_i hclose
      subst hclose
      cases opened with
      | zero =>
        obtain ⟨rfl, rfl⟩ := Prod.mk.inj (Option.some.inj h)
        exact ⟨closesAll_of_notMem (by decide), by decide⟩
      | succ opened =>
        obtain ⟨group, hgroup, ha⟩ := exists_of_map_cons h
        refine hstep _ group hgroup ha ?_
        rw [List.count_cons_self, List.count_cons_of_ne (by decide), (ih hgroup).2]
        omega
    · rename_i hclose
      split at h
      · rename_i hopen
        subst hopen
        split at h
        · obtain ⟨group, hgroup, ha⟩ := exists_of_map_cons h
          refine hstep _ group hgroup ha ?_
          rw [List.count_cons_self, List.count_cons_of_ne (by decide), (ih hgroup).2]
          omega
        · cases h
      · rename_i hopen
        obtain ⟨group, hgroup, ha⟩ := exists_of_map_cons h
        refine hstep _ group hgroup ha ?_
        rw [List.count_cons_of_ne hclose, List.count_cons_of_ne hopen, (ih hgroup).2]

theorem closesAll_splitNested (s : List Char) : ClosesAll (splitNested s).1 := by
  fun_induction splitNested s with
  | case1 => exact closesAll_of_notMem (by decide)
  | case2 t hnone => exact closesAll_of_notMem List.not_mem_nil
  | case3 t body rest hsome groups rest' hrec ih =>
    obtain ⟨hbody, hcount⟩ := closesAll_of_closeNested? hsome
    have hgroup : ClosesAll ('{' :: body) := by
      refine hbody.cons ?_
      rw [List.count_cons_self, List.count_cons_of_ne (by decide), hcount]
    rw [hrec] at ih
    exact hgroup.append ih
  | case4 c t hc => exact closesAll_of_notMem List.not_mem_nil

theorem closesAll_of_colored? (h : colored? s = some (token, rest)) : ClosesAll token := by
  cases s with
  | nil => cases h
  | cons c s =>
    by_cases hslash : c = '\\'
    · rw [hslash, colored?_slash] at h
      split at h
      · cases h
      · obtain ⟨rfl, -⟩ := Prod.mk.inj (Option.some.inj h)
        refine ClosesAll.append (closesAll_of_notMem fun hmem => ?_) (closesAll_splitNested _)
        rcases List.mem_cons.1 hmem with hc | hname
        · exact absurd hc (by decide)
        · exact absurd (List.mem_takeWhile_imp hname) (by decide)
    · obtain ⟨rfl, -⟩ := eq_of_colored?_ne hslash h
      refine closesAll_of_notMem fun hmem => ?_
      obtain rfl := List.mem_singleton.1 hmem
      cases h

/-! ## What is written around a token -/

/-- A word that starts in a token is in the token. -/
theorem IsPattern.prefix_append_close (hw : IsPattern w) (ha : a.count '{' ≤ a.count '}') (s : List Char) :
    w <+: a ++ '}' :: s ↔ w <+: a := by
  refine ⟨fun h => ?_, fun h => h.trans (List.prefix_append a _)⟩
  rcases List.prefix_or_prefix_of_prefix h (List.prefix_append a _) with hin | ⟨z, rfl⟩
  · exact hin
  · cases z with
    | nil => rw [List.append_nil]
    | cons d z =>
      rw [List.prefix_append_right_inj] at h
      obtain rfl := (List.cons_prefix_cons.1 h).1
      have hopened := hw.opened a z rfl
      omega

theorem Finds.none_append_close_iff (hfinds : Finds rule IsWord) (ha : a.count '{' ≤ a.count '}') (s : List Char) :
    rule (a ++ '}' :: s) = none ↔ rule a = none := by
  rw [hfinds.none_iff, hfinds.none_iff]
  exact forall₂_congr fun w hw => not_congr ((hfinds.pattern w hw).prefix_append_close ha s)

theorem Finds.quiet_of_quiet_append (hfinds : Finds rule IsWord) (h : Quiet rule (a ++ b)) : Quiet rule a := by
  rintro y ⟨x, rfl⟩
  have hnone := h (y ++ b) ⟨x, by rw [List.append_assoc]⟩
  rw [hfinds.none_iff] at hnone ⊢
  exact fun w hw hpre => hnone w hw (hpre.trans (List.prefix_append y b))

/-- A closing brace keeps apart what stands on its two sides. -/
theorem Finds.quiet_append_close_iff (hfinds : Finds rule IsWord) (ha : ClosesAll a) (s : List Char) :
    Quiet rule (a ++ '}' :: s) ↔ Quiet rule a ∧ Quiet rule s := by
  constructor
  · intro h
    exact ⟨hfinds.quiet_of_quiet_append h, Quiet.of_append (a := ['}']) h.of_append⟩
  · rintro ⟨hin, hs⟩
    have hclose : rule ('}' :: s) = none :=
      (hfinds.none_append_close_iff (a := []) (Nat.le_refl 0) s).2 (hin [] List.nil_suffix)
    refine .append (fun x y hxy _ => ?_) (.cons hclose hs)
    have hy : y <:+ a := ⟨x, hxy.symm⟩
    exact (hfinds.none_append_close_iff (ha y hy) s).2 (hin y hy)

/-- **Around a token** in braces, a rule finds what it finds in the token and what it finds behind it. -/
theorem Finds.quiet_written_iff (hfinds : Finds rule IsWord) (hcolor : ∀ c ∈ color, isBrace c = false)
    (hfirst : ∀ s, rule (colorOpen ++ (color ++ '}' :: '{' :: s)) = none) (htoken : ClosesAll token) (s : List Char) :
    Quiet rule (colorOpen ++ color ++ ['}', '{'] ++ token ++ ['}'] ++ s) ↔ Quiet rule token ∧ Quiet rule s := by
  have hassoc : colorOpen ++ color ++ ['}', '{'] ++ token ++ ['}'] ++ s =
      colorOpen ++ (color ++ '}' :: '{' :: (token ++ '}' :: s)) := by simp
  have hsplit : colorOpen ++ (color ++ '}' :: '{' :: (token ++ '}' :: s)) =
      (colorOpen ++ color ++ ['}', '{']) ++ (token ++ '}' :: s) := by simp
  rw [hassoc, ← hfinds.quiet_append_close_iff htoken s]
  constructor
  · intro h
    rw [hsplit] at h
    exact h.of_append
  · intro h
    refine .cons (hfirst _) ?_
    have htail : ['c', 'o', 'l', 'o', 'r', '{'] ++ (color ++ '}' :: '{' :: (token ++ '}' :: s)) =
        (['c', 'o', 'l', 'o', 'r', '{'] ++ (color ++ ['}', '{'])) ++ (token ++ '}' :: s) := by simp
    change Quiet rule (['c', 'o', 'l', 'o', 'r', '{'] ++ (color ++ '}' :: '{' :: (token ++ '}' :: s)))
    rw [htail]
    refine .append (fun x y hxy _ => ?_) h
    rw [hfinds.none_iff]
    rintro w hw ⟨r, hr⟩
    obtain ⟨name, more, rfl, hname⟩ := (hfinds.pattern w hw).head
    cases y with
    | nil => contradiction
    | cons d y =>
      obtain rfl := (List.cons.inj hr).1
      obtain ⟨b, rfl, hb⟩ := closes_after (by decide) hcolor (by decide) hxy
      have hbehind : name ++ '{' :: (more ++ r) = b ++ '}' :: ('{' :: (token ++ '}' :: s)) := by simpa using hr
      exact close_ne_open hb hname hbehind.symm

/-! ## Colors behind the pass -/

/-- The token that a color at the start of the text applies to, and the text behind it. -/
def coloredAt? (s : List Char) : Option (List Char × List Char) := do
  let s ← after? colorOpen s
  let (_, behind) ← flatBody? s
  colored? behind

/-- The tokens of a text that get braces. -/
def coloredTokens : List Char → List (List Char)
  | [] => []
  | c :: s =>
    match coloredAt? (c :: s) with
    | none => coloredTokens s
    | some (token, rest) =>
      if rest.length ≤ s.length then token :: coloredTokens rest else coloredTokens s
termination_by s => s.length

theorem coloredAt?_eq_some_iff : coloredAt? s = some (token, rest) ↔ ∃ color behind, (∀ c ∈ color, isBrace c = false) ∧
    s = colorOpen ++ (color ++ '}' :: behind) ∧ colored? behind = some (token, rest) := by
  simp only [coloredAt?, Option.bind_eq_bind, Option.bind_eq_some_iff, Prod.exists, after?_eq_some_iff,
    flatBody?_eq_some_iff]
  constructor
  · rintro ⟨_, rfl, color, behind, ⟨hcolor, rfl⟩, htoken⟩
    exact ⟨color, behind, hcolor, rfl, htoken⟩
  · rintro ⟨color, behind, hcolor, rfl, htoken⟩
    exact ⟨_, rfl, color, behind, ⟨hcolor, rfl⟩, htoken⟩

theorem coloredTokenRule_eq_none_of_coloredAt? (h : coloredAt? s = none) : coloredTokenRule s = none := by
  refine Option.eq_none_iff_forall_ne_some.2 fun found hfound => ?_
  obtain ⟨color, behind, token, hcolor, hs, htoken, -⟩ := coloredTokenRule_eq_some hfound
  rw [coloredAt?_eq_some_iff.2 ⟨color, behind, hcolor, hs, htoken⟩] at h
  cases h

/-- A color applies to no group. -/
theorem coloredTokenRule_brace (hcolor : ∀ c ∈ color, isBrace c = false) (s : List Char) :
    coloredTokenRule (colorOpen ++ (color ++ '}' :: '{' :: s)) = none := by
  have hflat : flatBody? (color ++ '}' :: '{' :: s) = some (color, '{' :: s) := flatBody?_eq_some_iff.2 ⟨hcolor, rfl⟩
  have hbrace : colored? ('{' :: s) = none := rfl
  simp [coloredTokenRule, hflat, hbrace]

theorem coloredTokenRule_of_coloredAt? (h : coloredAt? s = some (token, rest)) :
    ∃ color, (∀ c ∈ color, isBrace c = false) ∧ ClosesAll token ∧ s = colorOpen ++ (color ++ '}' :: (token ++ rest)) ∧
      coloredTokenRule s = some (colorOpen ++ color ++ ['}', '{'] ++ token ++ ['}'], rest) := by
  obtain ⟨color, behind, hcolor, rfl, htoken⟩ := coloredAt?_eq_some_iff.1 h
  refine ⟨color, hcolor, closesAll_of_colored? htoken, ?_, coloredTokenRule_of_colored? hcolor htoken⟩
  rw [append_of_colored? htoken]

theorem length_le_of_coloredAt? (h : coloredAt? (c :: s) = some (token, rest)) : rest.length ≤ s.length := by
  obtain ⟨color, -, -, -, hrule⟩ := coloredTokenRule_of_coloredAt? h
  exact Nat.le_of_lt_succ (keepsHead_coloredTokenRule _ _ _ hrule).1

/-- What gets braces stands in the text. -/
theorem infix_of_mem_coloredTokens (h : token ∈ coloredTokens s) : ∃ x y, s = x ++ (token ++ y) := by
  fun_induction coloredTokens s with
  | case1 => cases h
  | case2 c s hnone ih =>
    obtain ⟨x, y, hs⟩ := ih h
    exact ⟨c :: x, y, by rw [hs]; rfl⟩
  | case3 c s token' rest hsome hlen ih =>
    obtain ⟨color, -, -, hs, -⟩ := coloredTokenRule_of_coloredAt? hsome
    rw [hs]
    rcases List.mem_cons.1 h with rfl | h
    · exact ⟨colorOpen ++ (color ++ ['}']), rest, by simp⟩
    · obtain ⟨x, y, rfl⟩ := ih h
      exact ⟨colorOpen ++ (color ++ '}' :: token') ++ x, y, by simp⟩
  | case4 c s token' rest hsome hlen ih => exact absurd (length_le_of_coloredAt? hsome) hlen

/-- **Behind the pass**, what a rule finds is in the tokens that got braces, when it matched nowhere else. -/
theorem Finds.quiet_colored_iff (hfinds : Finds rule IsWord)
    (hfirst : ∀ color s, (∀ c ∈ color, isBrace c = false) → rule (colorOpen ++ (color ++ '}' :: '{' :: s)) = none)
    (helse : ∀ y, y <:+ s → coloredTokenRule y = none → rule y = none) :
    Quiet rule (substitute coloredTokenRule s) ↔ ∀ token ∈ coloredTokens s, Quiet rule token := by
  fun_induction coloredTokens s with
  | case1 =>
    refine iff_of_true ?_ (List.forall_mem_nil _)
    rw [substitute_nil]
    intro y hy
    exact helse y hy (List.suffix_nil.1 hy ▸ rfl)
  | case2 c s hnone ih =>
    have hdeclines := coloredTokenRule_eq_none_of_coloredAt? hnone
    have hhead := hfinds.none_cons_substitute keepsHead_coloredTokenRule (helse _ List.suffix_rfl hdeclines)
    rw [substitute_cons_of_none hdeclines, ← ih fun y hy => helse y (hy.trans (List.suffix_cons c s))]
    exact ⟨Quiet.of_append (a := [c]), Quiet.cons hhead⟩
  | case3 c s token rest hsome hlen ih =>
    obtain ⟨color, hcolor, htoken, hs, hrule⟩ := coloredTokenRule_of_coloredAt? hsome
    have hrest : rest <:+ c :: s := ⟨colorOpen ++ (color ++ '}' :: token), by rw [hs]; simp⟩
    rw [substitute_cons_of_some hrule hlen, hfinds.quiet_written_iff hcolor (fun s => hfirst color s hcolor) htoken,
      ih fun y hy => helse y (hy.trans hrest), List.forall_mem_cons]
  | case4 c s token rest hsome hlen ih => exact absurd (length_le_of_coloredAt? hsome) hlen

/-- No braces are doubled by braces around tokens. -/
theorem quiet_doubledBracesRule_colored (h : Quiet doubledBracesRule s) :
    Quiet doubledBracesRule (substitute coloredTokenRule s) := by
  have hfirst : ∀ color s, (∀ c ∈ color, isBrace c = false) →
      doubledBracesRule (colorOpen ++ (color ++ '}' :: '{' :: s)) = none := fun _ _ _ => rfl
  refine (finds_doubledBracesRule.quiet_colored_iff hfirst fun y hy _ => h y hy).2 fun token htoken => ?_
  obtain ⟨x, y, rfl⟩ := infix_of_mem_coloredTokens htoken
  exact finds_doubledBracesRule.quiet_of_quiet_append h.of_append

/-! ## Spaces and colors -/

/-- No space is written into a color. -/
theorem substitute_spaceRule_color (hcolor : ∀ c ∈ color, isBrace c = false) (s : List Char) :
    substitute spaceRule (colorOpen ++ (color ++ '}' :: s)) =
      colorOpen ++ (color ++ '}' :: substitute spaceRule s) := by
  have hname : '\\' ∉ ['c', 'o', 'l', 'o', 'r'] := by decide
  rw [spaceRule_eq_spacing, ← substitute_spacing_flat not_spacesItself hcolor]
  exact substitute_spacing_command not_spacesItself hname _

theorem prefix_substitute_spaceRule {start : List Char} (hstart : IsTokenStart start) (s : List Char) :
    start <+: substitute spaceRule (start ++ s) := by
  rcases hstart with ⟨d, -, rfl⟩ | ⟨c, -, -, rfl⟩
  · have hgap : spaceGap '\\' (d :: s) = [] := rfl
    rw [List.cons_append, List.cons_append, List.nil_append, substitute_spaceRule_cons, hgap, List.nil_append,
      substitute_spaceRule_cons]
    exact ⟨_, rfl⟩
  · rw [List.singleton_append, substitute_spaceRule_cons]
    exact ⟨_, rfl⟩

/-- **Spaces** leave every color what it applies to. -/
theorem quiet_coloredTokenRule_spaced_iff :
    Quiet coloredTokenRule (substitute spaceRule s) ↔ Quiet coloredTokenRule s := by
  refine ⟨fun h => ?_, finds_coloredTokenRule.quiet_spaced⟩
  rintro y ⟨x, rfl⟩
  rw [finds_coloredTokenRule.none_iff]
  rintro w ⟨color, start, hcolor, hstart, rfl⟩ ⟨r, rfl⟩
  obtain ⟨x', hx'⟩ := exists_substitute_spacing_append not_spacesItself (Sign.char ' ').text x
    (colorOpen ++ (color ++ '}' :: start) ++ r)
  rw [← spaceRule_eq_spacing] at hx'
  rw [hx'] at h
  have hnone := finds_coloredTokenRule.none_iff _ |>.1 (h.of_append _ List.suffix_rfl)
  refine hnone _ ⟨color, start, hcolor, hstart, rfl⟩ ?_
  have hassoc : colorOpen ++ (color ++ '}' :: start) ++ r = colorOpen ++ (color ++ '}' :: (start ++ r)) := by simp
  rw [hassoc, substitute_spaceRule_color hcolor, List.prefix_append_right_inj, List.prefix_append_right_inj,
    List.cons_prefix_cons]
  exact ⟨rfl, prefix_substitute_spaceRule hstart r⟩

/-! ## Passes that lengthen -/

/-- Each match of the rule is written longer than it was. -/
def Lengthens (rule : List Char → Option (List Char × List Char)) : Prop :=
  ∀ s out rest, rule s = some (out, rest) → rest.length < s.length ∧ s.length < out.length + rest.length

theorem Lengthens.length_le_substitute (h : Lengthens rule) (s : List Char) :
    s.length ≤ (substitute rule s).length := by
  fun_induction substitute rule s with
  | case1 => exact Nat.le_refl _
  | case2 c s hnone ih => exact Nat.succ_le_succ ih
  | case3 c s out rest hsome hlen ih =>
    have hmatch := (h _ _ _ hsome).2
    rw [List.length_append]
    omega
  | case4 c s out rest hsome hlen ih => exact Nat.succ_le_succ ih

/-- A pass that does not lengthen a text has found nothing in it. -/
theorem Lengthens.quiet_of_length_le (h : Lengthens rule) (hs : (substitute rule s).length ≤ s.length) :
    Quiet rule s := by
  fun_induction substitute rule s with
  | case1 =>
    intro y hy
    refine Option.eq_none_iff_forall_ne_some.2 fun found hfound => ?_
    exact absurd (h y found.1 found.2 hfound).1 (by simp [List.suffix_nil.1 hy])
  | case2 c s hnone ih => exact .cons hnone (ih (Nat.le_of_succ_le_succ hs))
  | case3 c s out rest hsome hlen ih =>
    have hmatch := (h _ _ _ hsome).2
    have hrest := h.length_le_substitute rest
    rw [List.length_append] at hs
    omega
  | case4 c s out rest hsome hlen ih => exact absurd (Nat.le_of_lt_succ (h _ _ _ hsome).1) hlen

theorem lengthens_spaceRule : Lengthens spaceRule := by
  intro s out rest h
  rw [spaceRule_eq_spacing] at h
  obtain ⟨c, -, rfl, rfl⟩ := spacing_eq_some_iff.1 h
  simp only [textOpen, Sign.text, List.length_append, List.length_cons, List.length_nil]
  omega

theorem lengthens_coloredTokenRule : Lengthens coloredTokenRule := by
  intro s out rest h
  refine ⟨(keepsHead_coloredTokenRule s out rest h).1, ?_⟩
  obtain ⟨color, behind, token, -, rfl, htoken, rfl⟩ := coloredTokenRule_eq_some h
  rw [append_of_colored? htoken]
  simp only [List.length_append, List.length_cons, List.length_nil]
  omega

/-! ## All fixes -/

/-- **Fixing a fixed text** changes nothing exactly if no token that gets braces holds a color with a token of
its own. -/
theorem cosmetic_cosmetic_iff (s : List Char) : cosmetic (cosmetic s) = cosmetic s ↔
    ∀ token ∈ coloredTokens (substitute doubledBracesRule (substitute thinSpaceRule s)),
      Quiet coloredTokenRule token := by
  obtain ⟨single, hsingle⟩ : ∃ single, single = substitute doubledBracesRule (substitute thinSpaceRule s) := ⟨_, rfl⟩
  have hfixed : cosmetic s = substitute spaceRule (substitute coloredTokenRule single) := by rw [hsingle, cosmetic]
  have hspace : Quiet spaceRule (cosmetic s) := hfixed ▸ quiet_spaceRule _
  have hdoubled : Quiet doubledBracesRule (cosmetic s) := by
    rw [hfixed, hsingle]
    exact finds_doubledBracesRule.quiet_spaced (quiet_doubledBracesRule_colored (quiet_doubledBracesRule _))
  -- in the second pass only colors can be left
  have hsecond : cosmetic (cosmetic s) = substitute spaceRule (substitute coloredTokenRule (cosmetic s)) := by
    conv => lhs; rw [cosmetic]
    rw [(quiet_thinSpaceRule hspace).substitute_eq_self, hdoubled.substitute_eq_self]
  have hcolored : Quiet coloredTokenRule (cosmetic s) ↔
      ∀ token ∈ coloredTokens single, Quiet coloredTokenRule token := by
    rw [hfixed, quiet_coloredTokenRule_spaced_iff]
    exact finds_coloredTokenRule.quiet_colored_iff (fun color s hcolor => coloredTokenRule_brace hcolor s)
      fun y _ hnone => hnone
  rw [hsecond, ← hsingle, ← hcolored]
  constructor
  · intro hsame
    refine lengthens_coloredTokenRule.quiet_of_length_le ?_
    have hspaces := lengthens_spaceRule.length_le_substitute (substitute coloredTokenRule (cosmetic s))
    rwa [hsame] at hspaces
  · intro hquiet
    rw [hquiet.substitute_eq_self, hspace.substitute_eq_self]

/-- **A color in the argument** of a token that gets braces gets its own in the next pass only. -/
theorem cosmetic_cosmetic_nested :
    let s := "\\color\x7ba\x7d\\b\x7b\\color\x7bc\x7dx\x7d".toList
    cosmetic s = "\\color\x7ba\x7d\x7b\\b\x7b\\color\x7bc\x7dx\x7d\x7d".toList ∧
      cosmetic (cosmetic s) = "\\color\x7ba\x7d\x7b\\b\x7b\\color\x7bc\x7d\x7bx\x7d\x7d\x7d".toList ∧
      cosmetic (cosmetic s) ≠ cosmetic s := by
  decide +kernel

end MathMarkup.Tex
