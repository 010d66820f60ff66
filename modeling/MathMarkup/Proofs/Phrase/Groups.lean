import MathMarkup.Proofs.Cosmetic.Balance
import MathMarkup.Proofs.Normal.Signs
import MathMarkup.Proofs.Text.Groups

/-!
# Groups between blanks

`Grouped P d s e` reads a text character by character: with `d` groups open in front of it, it leaves `e` of them
open, no blank stands inside a group, and from every backslash on the text satisfies `P`. So a text that is
grouped can be cut at its blanks (`Grouped.words`), and a group of it holds a grouped text without blanks
(`Grouped.exists_closing`).

The braces of such a word are balanced (`Grouped.level`). Those that are tokens are the ones in front of the first
percent sign, where a comment starts (`filterMap_opens?_of_grouped`).
-/

namespace MathMarkup.Tex

open Text

variable {P Q : List Char → Prop} {s t a b w : List Char} {c : Char} {d e k : Nat}

instance : Decidable (IsPlain c) := inferInstanceAs (Decidable (c ≠ '\\' ∧ c ≠ '{' ∧ c ≠ '}'))

/-- The text is read from depth `d` to depth `e`. -/
inductive Grouped (P : List Char → Prop) : Nat → List Char → Nat → Prop
  | nil (d : Nat) : Grouped P d [] d
  | opening {d e : Nat} {s : List Char} (hs : Grouped P (d + 1) s e) : Grouped P d ('{' :: s) e
  | closing {d e : Nat} {s : List Char} (hs : Grouped P d s e) : Grouped P (d + 1) ('}' :: s) e
  | slash {d e : Nat} {s : List Char} (h : P ('\\' :: s)) (hs : Grouped P d s e) : Grouped P d ('\\' :: s) e
  | blank {e : Nat} {c : Char} {s : List Char} (hc : isBlank c = true) (hs : Grouped P 0 s e) : Grouped P 0 (c :: s) e
  | ink {d e : Nat} {c : Char} {s : List Char} (hc : IsPlain c) (hblank : isBlank c = false)
      (hs : Grouped P d s e) : Grouped P d (c :: s) e

namespace Grouped

theorem mono (h : Grouped P d s e) (hPQ : ∀ s, P s → Q s) : Grouped Q d s e := by
  induction h with
  | nil d => exact nil d
  | opening _ ih => exact opening ih
  | closing _ ih => exact closing ih
  | slash h _ ih => exact slash (hPQ _ h) ih
  | blank hc _ ih => exact blank hc ih
  | ink hc hblank _ ih => exact ink hc hblank ih

theorem eq_of_nil (h : Grouped P d [] e) : d = e := by
  cases h
  rfl

/-- Behind a blank no group is open. -/
theorem of_blank (hc : isBlank c = true) (h : Grouped P d (c :: s) e) : d = 0 ∧ Grouped P 0 s e := by
  have hplain := isPlain_of_isBlank hc
  cases h with
  | opening => exact absurd rfl hplain.2.1
  | closing => exact absurd rfl hplain.2.2
  | slash => exact absurd rfl hplain.1
  | blank _ hs => exact ⟨rfl, hs⟩
  | ink _ hblank => exact absurd hc (by simp [hblank])

theorem of_plain (hc : IsPlain c) (h : Grouped P d (c :: s) e) : Grouped P d s e := by
  cases h with
  | opening => exact absurd rfl hc.2.1
  | closing => exact absurd rfl hc.2.2
  | slash => exact absurd rfl hc.1
  | blank _ hs => exact hs
  | ink _ _ hs => exact hs

theorem of_slash (h : Grouped P d ('\\' :: s) e) : P ('\\' :: s) ∧ Grouped P d s e := by
  cases h with
  | slash h hs => exact ⟨h, hs⟩
  | ink hc => exact absurd rfl hc.1
  | blank hc => cases hc

theorem of_open (h : Grouped P d ('{' :: s) e) : Grouped P (d + 1) s e := by
  cases h with
  | opening hs => exact hs
  | ink hc => exact absurd rfl hc.2.1
  | blank hc => cases hc

theorem of_close (h : Grouped P d ('}' :: s) e) : ∃ k, d = k + 1 ∧ Grouped P k s e := by
  cases h with
  | closing hs => exact ⟨_, rfl, hs⟩
  | ink hc => exact absurd rfl hc.2.2
  | blank hc => cases hc

/-- A plain character can stand in front, outside of groups. -/
theorem cons_plain (hc : IsPlain c) (h : Grouped P 0 s e) : Grouped P 0 (c :: s) e := by
  cases hblank : isBlank c with
  | true => exact blank hblank h
  | false => exact ink hc hblank h

theorem append_plain (ha : ∀ c ∈ a, IsPlain c) (h : Grouped P 0 s e) : Grouped P 0 (a ++ s) e := by
  induction a with
  | nil => exact h
  | cons c a ih =>
    obtain ⟨hc, ha⟩ := List.forall_mem_cons.1 ha
    exact cons_plain hc (ih ha)

/-- A name can stand in front, inside of groups too. -/
theorem append_letters (ha : ∀ c ∈ a, isCommandLetter c = true) (h : Grouped P d s e) : Grouped P d (a ++ s) e := by
  induction a with
  | nil => exact h
  | cons c a ih =>
    obtain ⟨hc, ha⟩ := List.forall_mem_cons.1 ha
    exact ink (isPlain_of_isCommandLetter hc) (isBlank_eq_false_of_isCommandLetter hc) (ih ha)

theorem of_append_plain (ha : ∀ c ∈ a, IsPlain c) (h : Grouped P d (a ++ s) e) : Grouped P d s e := by
  induction a with
  | nil => exact h
  | cons c a ih =>
    obtain ⟨hc, ha⟩ := List.forall_mem_cons.1 ha
    exact ih ha (h.of_plain hc)

/-- Behind a stretch of plain characters with a blank among them no group is open. -/
theorem of_append_blank (ha : ∀ c ∈ a, IsPlain c) (hblank : ∃ c ∈ a, isBlank c = true)
    (h : Grouped P d (a ++ s) e) : d = 0 ∧ Grouped P 0 s e := by
  induction a with
  | nil => simp at hblank
  | cons c a ih =>
    obtain ⟨hplain, hrest⟩ := List.forall_mem_cons.1 ha
    obtain ⟨b, hb, hblank⟩ := hblank
    rcases List.mem_cons.1 hb with rfl | hb
    · obtain ⟨rfl, hs⟩ := h.of_blank hblank
      exact ⟨rfl, hs.of_append_plain hrest⟩
    · exact ih hrest ⟨b, hb, hblank⟩ (h.of_plain hplain)

/-- More groups may be open around a text without blanks. -/
theorem lift (h : Grouped P d s e) (hs : ∀ c ∈ s, isBlank c = false) (k : Nat) : Grouped P (d + k) s (e + k) := by
  induction h with
  | nil d => exact nil _
  | opening _ ih =>
    have := ih (List.forall_mem_cons.1 hs).2
    rw [Nat.add_right_comm] at this
    exact opening this
  | closing _ ih =>
    rw [Nat.add_right_comm]
    exact closing (ih (List.forall_mem_cons.1 hs).2)
  | slash h _ ih => exact slash h (ih (List.forall_mem_cons.1 hs).2)
  | blank hc => exact absurd hc (by simp [(List.forall_mem_cons.1 hs).1])
  | ink hc hblank _ ih => exact ink hc hblank (ih (List.forall_mem_cons.1 hs).2)

/-- One text behind another one, where what stands behind a backslash may go on. -/
theorem append (hP : ∀ s t, P s → P (s ++ t)) (hs : Grouped P d s k) (ht : Grouped P k t e) :
    Grouped P d (s ++ t) e := by
  induction hs with
  | nil d => exact ht
  | opening _ ih => exact opening (ih ht)
  | closing _ ih => exact closing (ih ht)
  | slash h _ ih => exact slash (hP _ t h) (ih ht)
  | blank hc _ ih => exact blank hc (ih ht)
  | ink hc hblank _ ih => exact ink hc hblank (ih ht)

/-- A text is cut in front of another one that `P` does not look into. -/
theorem cut (hP : ∀ a, P (a ++ b) → P a) (h : Grouped P d (a ++ b) e) :
    ∃ k, Grouped P d a k ∧ Grouped P k b e := by
  induction a generalizing d with
  | nil => exact ⟨d, nil d, h⟩
  | cons c a ih =>
    rw [List.cons_append] at h
    cases h with
    | opening hs =>
      obtain ⟨k, ha, hb⟩ := ih hs
      exact ⟨k, opening ha, hb⟩
    | closing hs =>
      obtain ⟨k, ha, hb⟩ := ih hs
      exact ⟨k, closing ha, hb⟩
    | slash h hs =>
      obtain ⟨k, ha, hb⟩ := ih hs
      exact ⟨k, slash (hP ('\\' :: a) h) ha, hb⟩
    | blank hc hs =>
      obtain ⟨k, ha, hb⟩ := ih hs
      exact ⟨k, blank hc ha, hb⟩
    | ink hc hblank hs =>
      obtain ⟨k, ha, hb⟩ := ih hs
      exact ⟨k, ink hc hblank ha, hb⟩

/-- Plain characters at the end can be left out. -/
theorem cut_plain (hP : ∀ a, P (a ++ b) → P a) (hb : ∀ c ∈ b, IsPlain c) (h : Grouped P d (a ++ b) 0) :
    Grouped P d a 0 := by
  obtain ⟨k, ha, hrest⟩ := h.cut hP
  rw [← List.append_nil b] at hrest
  obtain rfl := (hrest.of_append_plain hb).eq_of_nil
  exact ha

/-- A text is cut in front of a blank, and at its end. -/
theorem cut_blank (hP : ∀ a, P (a ++ b) → P a) (hb : ∀ c ∈ b.head?, isBlank c = true) (h : Grouped P d (a ++ b) 0) :
    Grouped P d a 0 ∧ Grouped P 0 b 0 := by
  obtain ⟨k, ha, hrest⟩ := h.cut hP
  cases b with
  | nil =>
    obtain rfl := hrest.eq_of_nil
    exact ⟨ha, hrest⟩
  | cons c b =>
    obtain ⟨rfl, -⟩ := hrest.of_blank (hb c rfl)
    exact ⟨ha, hrest⟩

/-- **The end of a group** that is open: the text up to it is grouped in itself, and so is what stands behind. -/
theorem exists_closing (hP : ∀ a b, P (a ++ '}' :: b) → P a) (h : Grouped P (d + (k + 1)) s 0) :
    ∃ a b, s = a ++ '}' :: b ∧ Grouped P k a 0 ∧ Grouped P d b 0 := by
  induction s generalizing k with
  | nil => exact absurd h.eq_of_nil (by omega)
  | cons c s ih =>
    generalize hdepth : d + (k + 1) = n at h
    cases h with
    | opening hs =>
      subst hdepth
      obtain ⟨a, b, rfl, ha, hb⟩ := ih (k := k + 1) hs
      exact ⟨'{' :: a, b, rfl, opening ha, hb⟩
    | closing hs =>
      obtain rfl := Nat.succ.inj hdepth
      cases k with
      | zero => exact ⟨[], s, rfl, nil 0, hs⟩
      | succ k =>
        obtain ⟨a, b, rfl, ha, hb⟩ := ih hs
        exact ⟨'}' :: a, b, rfl, closing ha, hb⟩
    | slash hslash hs =>
      subst hdepth
      obtain ⟨a, b, rfl, ha, hb⟩ := ih hs
      exact ⟨'\\' :: a, b, rfl, slash (hP ('\\' :: a) b hslash) ha, hb⟩
    | blank => exact absurd hdepth (by omega)
    | ink hc hblank hs =>
      subst hdepth
      obtain ⟨a, b, rfl, ha, hb⟩ := ih hs
      exact ⟨c :: a, b, rfl, ink hc hblank ha, hb⟩

/-- What is told of a backslash holds at every backslash. -/
theorem slash_of_append (h : Grouped P d (a ++ '\\' :: b) e) : P ('\\' :: b) := by
  induction a generalizing d with
  | nil => exact h.of_slash.1
  | cons c a ih =>
    rw [List.cons_append] at h
    cases h with
    | opening hs => exact ih hs
    | closing hs => exact ih hs
    | slash _ hs => exact ih hs
    | blank _ hs => exact ih hs
    | ink _ _ hs => exact ih hs

end Grouped

theorem grouped_of_plain (hs : ∀ c ∈ s, IsPlain c) : Grouped P 0 s 0 := by
  have := Grouped.append_plain hs (Grouped.nil (P := P) 0)
  rwa [List.append_nil] at this

/-- A group around a text without blanks. -/
theorem Grouped.braced (h : Grouped P 0 w 0) (hw : ∀ c ∈ w, isBlank c = false) (hP : ∀ s t, P s → P (s ++ t))
    (ht : Grouped P d t e) : Grouped P d ('{' :: (w ++ '}' :: t)) e := by
  have hlift := h.lift hw (d + 1)
  rw [Nat.zero_add] at hlift
  exact opening (append hP hlift (closing ht))

/-! ## Substitutions -/

section Substitution

variable {rule : List Char → Option (List Char × List Char)}

/-- Behind its first character the text may be replaced. -/
theorem Grouped.exists_depth (h : Grouped P d (c :: s) e) :
    ∃ k, Grouped P k s e ∧ ∀ t, (c = '\\' → P (c :: t)) → Grouped P k t e → Grouped P d (c :: t) e := by
  cases h with
  | opening hs => exact ⟨_, hs, fun t _ => opening⟩
  | closing hs => exact ⟨_, hs, fun t _ => closing⟩
  | slash _ hs => exact ⟨_, hs, fun t h => slash (h rfl)⟩
  | blank hc hs => exact ⟨_, hs, fun t _ => blank hc⟩
  | ink hc hblank hs => exact ⟨_, hs, fun t _ => ink hc hblank⟩

/-- A rule that keeps groups at the place where it is used keeps them in the whole text, unless it changes what
stands behind a backslash. -/
theorem Grouped.substitute (hP : ∀ s, P ('\\' :: s) → P ('\\' :: substitute rule s))
    (hrule : ∀ {d s out rest}, rule s = some (out, rest) → Grouped P d s e →
      ∃ k, Grouped P k rest e ∧ ∀ t, Grouped P k t e → Grouped P d (out ++ t) e)
    (h : Grouped P d s e) : Grouped P d (Text.substitute rule s) e := by
  have hkeep : ∀ {c s d}, (∀ {d}, Grouped P d s e → Grouped P d (Text.substitute rule s) e) →
      Grouped P d (c :: s) e → Grouped P d (c :: Text.substitute rule s) e := by
    intro c s d ih h
    have hslash : c = '\\' → P (c :: Text.substitute rule s) := by
      rintro rfl
      exact hP s h.of_slash.1
    obtain ⟨k, hs, hreplace⟩ := h.exists_depth
    exact hreplace _ hslash (ih hs)
  fun_induction Text.substitute rule s generalizing d with
  | case1 => exact h
  | case2 c s hnone ih => exact hkeep ih h
  | case3 c s out rest hsome hlen ih =>
    obtain ⟨k, hrest, hout⟩ := hrule hsome h
    exact hout _ (ih hrest)
  | case4 c s out rest hsome hlen ih => exact hkeep ih h

end Substitution

/-! ## Words -/

/-- **Every word** of a grouped text is grouped. -/
theorem Grouped.words {s : List Char} (hP : ∀ a b c, isBlank c = true → P (a ++ c :: b) → P a) (h : Grouped P 0 s 0) :
    ∀ w ∈ s.splitOnP isBlank, (∀ c ∈ w, isBlank c = false) ∧ Grouped P 0 w 0 := by
  have hfirst : ∀ c ∈ s.takeWhile (!isBlank ·), isBlank c = false := fun c hc => by
    simpa using List.mem_takeWhile_imp hc
  have hs : s.takeWhile (!isBlank ·) ++ s.dropWhile (!isBlank ·) = s := List.takeWhile_append_dropWhile
  cases hrest : s.dropWhile (!isBlank ·) with
  | nil =>
    rw [hrest, List.append_nil] at hs
    rw [hs] at hfirst
    rw [List.splitOnP_eq_singleton hfirst]
    exact List.forall_mem_singleton.2 ⟨hfirst, h⟩
  | cons c b =>
    have hc : isBlank c = true := by
      have hhead : c ∈ (s.dropWhile (!isBlank ·)).head? := by rw [hrest]; rfl
      simpa using eq_false_of_mem_head?_dropWhile hhead
    rw [hrest] at hs
    rw [← hs] at h
    obtain ⟨hword, hb⟩ := h.cut_blank (fun a => hP a b c hc) (by simpa using hc)
    have hlt : b.length < s.length := by
      have hlength := congrArg List.length hs
      rw [List.length_append, List.length_cons] at hlength
      omega
    have ih := Grouped.words hP (hb.of_blank hc).2
    rw [← hs, List.splitOnP_append_cons_of_forall_mem hfirst c hc]
    exact List.forall_mem_cons.2 ⟨⟨hfirst, hword⟩, ih⟩
termination_by s.length

/-! ## Braces -/

/-- Whether the character is a brace, and then whether it opens a group. -/
def braceOf? (c : Char) : Option Bool := if c = '{' then some true else if c = '}' then some false else none

theorem braceOf?_open : braceOf? '{' = some true := rfl

theorem braceOf?_close : braceOf? '}' = some false := rfl

theorem braceOf?_of_isPlain (hc : IsPlain c) : braceOf? c = none := by
  rw [braceOf?, if_neg hc.2.1, if_neg hc.2.2]

/-- **The braces** of a grouped text are balanced. -/
theorem Grouped.level (h : Grouped P d s e) : level? d (s.filterMap braceOf?) = some e := by
  induction h with
  | nil d => exact level?_nil d
  | opening _ ih =>
    rw [List.filterMap_cons_some braceOf?_open, level?_open]
    exact ih
  | closing _ ih =>
    rw [List.filterMap_cons_some braceOf?_close, level?_close]
    exact ih
  | slash _ _ ih =>
    rw [List.filterMap_cons_none rfl]
    exact ih
  | blank hc _ ih =>
    rw [List.filterMap_cons_none (braceOf?_of_isPlain (isPlain_of_isBlank hc))]
    exact ih
  | ink hc _ _ ih =>
    rw [List.filterMap_cons_none (braceOf?_of_isPlain hc)]
    exact ih

/-- From a backslash on the text goes on with a letter. -/
def StartsWord (s : List Char) : Prop := ∃ c t, s = '\\' :: c :: t ∧ isCommandLetter c = true

/-- The scanner for the end of a group passes a grouped text, for behind a backslash stands no brace. -/
theorem Grouped.closes (hP : ∀ s, P s → StartsWord s) (h : Grouped P d s 0) : Closes d s := by
  generalize he : 0 = e at h
  induction h with
  | nil d => exact closes_nil_iff.2 he.symm
  | opening _ ih => exact closes_open_iff.2 (ih he)
  | closing _ ih => exact closes_close_iff.2 ⟨_, rfl, ih he⟩
  | slash h _ ih =>
    obtain ⟨c, t, hs, hc⟩ := hP _ h
    obtain rfl := (List.cons.inj hs).2
    exact closes_escaped_iff.2 ((closes_cons_iff_of_isPlain (isPlain_of_isCommandLetter hc)).1 (ih he))
  | blank hc _ ih => exact (closes_cons_iff_of_isPlain (isPlain_of_isBlank hc)).2 (ih he)
  | ink hc _ _ ih => exact (closes_cons_iff_of_isPlain hc).2 (ih he)

theorem Mode.braces_cons (m : Mode) (c : Char) (s : List Char) :
    m.braces (c :: s) = m.braces [c] ++ (m.next c).braces s :=
  braces_append m [c] s

theorem braces_of_isPlain (hc : IsPlain c) (m : Mode) : m.braces [c] = [] :=
  braces_of_flat (List.forall_mem_singleton.2 (by simp [isBrace, hc.2.1, hc.2.2])) m

theorem braces_comment (hs : ∀ c ∈ s, isBlank c = false) : Mode.comment.braces s = [] := by
  have hline : ∀ c ∈ s, isInLine c = true := by
    intro c hc
    have hblank := hs c hc
    simp only [isInLine, Bool.and_eq_true, bne_iff_ne, ne_eq]
    constructor <;>
      · rintro rfl
        cases hblank
  rw [Mode.braces, ← List.append_nil s, places_comment hline]
  rfl

/-- **The brace tokens** of a grouped word are its braces in front of the first percent sign. -/
theorem filterMap_opens?_of_grouped (hP : ∀ s, P s → StartsWord s) (h : Grouped P d w e)
    (hw : ∀ c ∈ w, isBlank c = false) :
    (tokens w).filterMap Token.opens? = (w.takeWhile (· != '%')).filterMap braceOf? := by
  rw [filterMap_opens?]
  induction h with
  | nil => rfl
  | opening _ ih =>
    rw [Mode.braces_cons, List.takeWhile_cons_of_pos (by decide), List.filterMap_cons_some braceOf?_open]
    exact congrArg _ (ih (List.forall_mem_cons.1 hw).2)
  | closing _ ih =>
    rw [Mode.braces_cons, List.takeWhile_cons_of_pos (by decide), List.filterMap_cons_some braceOf?_close]
    exact congrArg _ (ih (List.forall_mem_cons.1 hw).2)
  | slash h _ ih =>
    obtain ⟨c, t, hs, hc⟩ := hP _ h
    obtain rfl := (List.cons.inj hs).2
    have hplain := isPlain_of_isCommandLetter hc
    have hpercent : c ≠ '%' := by
      rintro rfl
      cases hc
    have hplainNext : Mode.plain.next c = .plain := next_eq_plain hplain.1 hpercent Mode.noConfusion
    have hrest := ih (List.forall_mem_cons.1 hw).2
    rw [Mode.braces_cons, braces_of_isPlain hplain, hplainNext] at hrest
    rw [List.takeWhile_cons_of_pos (by decide), List.filterMap_cons_none rfl, ← hrest]
    exact braces_append .plain ['\\', c] t
  | blank hc => exact absurd hc (by simp [(List.forall_mem_cons.1 hw).1])
  | @ink _ _ c s hc _ _ ih =>
    obtain ⟨-, hs⟩ := List.forall_mem_cons.1 hw
    rw [Mode.braces_cons, braces_of_isPlain hc, List.nil_append]
    by_cases hpercent : c = '%'
    · subst hpercent
      rw [List.takeWhile_cons_of_neg (by decide)]
      exact braces_comment hs
    · rw [next_eq_plain hc.1 hpercent Mode.noConfusion, List.takeWhile_cons_of_pos (by simpa using hpercent),
        List.filterMap_cons_none (braceOf?_of_isPlain hc)]
      exact ih hs

end MathMarkup.Tex
