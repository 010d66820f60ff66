import Mathlib.Data.List.Infix
import MathMarkup.Proofs.Rows.Breaks
import MathMarkup.Proofs.Text.Ranges
import MathMarkup.Route

/-!
# Prose around MathML

A tag is read up to its end and holds no second opening angle bracket (`IsTagReader`). So what stands behind
a tag does not matter, and a bracket in the prose in front of a span never starts a tag together with it: the
first start tag is the one that starts the span, and the last end tag is the one that ends it.

Main theorem: `route_of_prose`.
-/

namespace MathMarkup

open Text

variable {c : Char} {word s t r x y p q front tag span : List Char}
variable {read tagEnd? : List Char → Option (List Char)}

/-! ## Readers of tags -/

/-- What the reader takes holds no opening angle bracket, and it takes the same whatever follows. -/
def IsTagReader (read : List Char → Option (List Char)) : Prop :=
  ∀ s r, read s = some r → ∃ x, s = x ++ r ∧ '<' ∉ x ∧ ∀ t, read (x ++ t) = some t

theorem isTagReader_after? (hword : '<' ∉ word) : IsTagReader (after? word) := fun _ _ h =>
  ⟨word, eq_append_of_after? h, hword, after?_append word⟩

theorem IsTagReader.bind {read' : List Char → Option (List Char)} (hread : IsTagReader read)
    (hread' : IsTagReader read') : IsTagReader fun s => (read s).bind read' := by
  intro s r h
  obtain ⟨u, hu, hr⟩ := Option.bind_eq_some_iff.1 h
  obtain ⟨x, rfl, hx, hreads⟩ := hread s u hu
  obtain ⟨y, rfl, hy, hreads'⟩ := hread' u r hr
  refine ⟨x ++ y, (List.append_assoc x y r).symm, by simp [hx, hy], fun t => ?_⟩
  rw [List.append_assoc]
  exact Option.bind_eq_some_iff.2 ⟨y ++ t, hreads _, hreads' t⟩

/-- The characters behind the first one of a prefix. -/
def isPrefixChar (c : Char) : Bool := isWord c || c == '.' || c == '-'

theorem isPrefixChar_of_isAlpha (hc : c.isAlpha = true) : isPrefixChar c = true := by
  simp [isPrefixChar, isWord_of_isLetter (isLetter_of_isAlpha hc)]

/-- A colon ends the prefix. -/
theorem isPrefixChar_colon (r : List Char) : ∀ c ∈ (':' :: r).head?, isPrefixChar c = false := by
  intro c hc
  obtain rfl := Option.some.inj hc
  decide +kernel

theorem afterPrefix?_eq_some_iff : afterPrefix? s = some r ↔
    ∃ c x, s = c :: (x ++ ':' :: r) ∧ (c.isAlpha || c == '_') = true ∧ ∀ d ∈ x, isPrefixChar d = true := by
  constructor
  · intro h
    cases s with
    | nil => cases h
    | cons c s =>
      obtain ⟨hc, h⟩ := Option.ite_none_right_eq_some.1 h
      refine ⟨c, s.takeWhile isPrefixChar, ?_, hc, fun d hd => List.mem_takeWhile_imp hd⟩
      have hrest : s.dropWhile isPrefixChar = ':' :: r := eq_append_of_after? h
      rw [← hrest, List.takeWhile_append_dropWhile]
  · rintro ⟨c, x, rfl, hc, hx⟩
    refine Option.ite_none_right_eq_some.2 ⟨hc, ?_⟩
    have hrest : (x ++ ':' :: r).dropWhile isPrefixChar = ':' :: r :=
      (takeWhile_append_of_head hx (isPrefixChar_colon r)).2
    exact (congrArg (after? [':']) hrest).trans (after?_append [':'] r)

theorem isTagReader_afterPrefix? : IsTagReader afterPrefix? := by
  intro s r h
  obtain ⟨c, x, rfl, hc, hx⟩ := afterPrefix?_eq_some_iff.1 h
  refine ⟨c :: (x ++ [':']), by simp, ?_, fun t => afterPrefix?_eq_some_iff.2 ⟨c, x, by simp, hc, hx⟩⟩
  have hbracket : isPrefixChar '<' = false := by decide +kernel
  intro hmem
  rcases List.mem_cons.1 hmem with rfl | hmem
  · cases hc
  · rcases List.mem_append.1 hmem with hmem | hmem
    · rw [hx '<' hmem] at hbracket
      cases hbracket
    · simp at hmem

/-! ## Ends of tags -/

/-- The reader takes a tag to its end, from right behind the name on: it reads no further name, so no colon
makes a prefix of the name. -/
structure IsTagEndReader (read : List Char → Option (List Char)) : Prop where
  isTagReader : IsTagReader read
  ends_name : ∀ s r, read s = some r → ∀ c ∈ s.head?, isPrefixChar c = false ∧ c ≠ ':'

theorem isPrefixChar_eq_false_of_isBlank (hc : isBlank c = true) : isPrefixChar c = false ∧ c ≠ ':' := by
  refine ⟨?_, ?_⟩
  · simp only [isPrefixChar, isWord_eq_false_of_isBlank hc, Bool.false_or, Bool.or_eq_false_iff,
      beq_eq_false_iff_ne]
    constructor <;> (rintro rfl; revert hc; decide)
  · rintro rfl
    revert hc
    decide

theorem isTagEndReader_afterNameEnd? : IsTagEndReader afterNameEnd? := by
  have hread : ∀ s r, afterNameEnd? s = some r →
      ∃ c, s = c :: r ∧ (isBlank c || c == '>' || c == '/') = true := by
    intro s r h
    cases s with
    | nil => cases h
    | cons c s =>
      obtain ⟨hc, h⟩ := Option.ite_none_right_eq_some.1 h
      exact ⟨c, by rw [Option.some.inj h], hc⟩
  constructor
  · intro s r h
    obtain ⟨c, rfl, hc⟩ := hread s r h
    refine ⟨[c], rfl, ?_, fun t => if_pos hc⟩
    intro hmem
    obtain rfl := List.mem_singleton.1 hmem
    revert hc
    decide
  · intro s r h d hd
    obtain ⟨c, rfl, hc⟩ := hread s r h
    obtain rfl := Option.some.inj hd
    simp only [Bool.or_eq_true, beq_iff_eq] at hc
    rcases hc with (hc | rfl) | rfl
    · exact isPrefixChar_eq_false_of_isBlank hc
    · exact ⟨by decide +kernel, by decide⟩
    · exact ⟨by decide +kernel, by decide⟩

theorem isTagEndReader_afterTagEnd? : IsTagEndReader afterTagEnd? := by
  have hread : ∀ s r, afterTagEnd? s = some r → s = s.takeWhile isBlank ++ '>' :: r := by
    intro s r h
    have hrest : trimStart s = '>' :: r := eq_append_of_after? h
    rw [← hrest, trimStart_append]
  constructor
  · intro s r h
    have hs := hread s r h
    refine ⟨s.takeWhile isBlank ++ ['>'], by rw [List.append_assoc]; exact hs, ?_, fun t => ?_⟩
    · have hbracket : isBlank '<' = false := by decide
      intro hmem
      rcases List.mem_append.1 hmem with hmem | hmem
      · rw [isBlank_of_mem_takeWhile '<' hmem] at hbracket
        cases hbracket
      · simp at hmem
    · rw [afterTagEnd?, List.append_assoc, trimStart_append_of_isBlank isBlank_of_mem_takeWhile]
      exact after?_append ['>'] t
  · intro s r h d hd
    rw [hread s r h] at hd
    cases hblanks : s.takeWhile isBlank with
    | nil =>
      rw [hblanks] at hd
      obtain rfl := Option.some.inj hd
      exact ⟨by decide +kernel, by decide⟩
    | cons c b =>
      rw [hblanks] at hd
      obtain rfl := Option.some.inj hd
      exact isPrefixChar_eq_false_of_isBlank (isBlank_of_mem_takeWhile _ (hblanks ▸ List.mem_cons_self))

/-- The name of `math` is no prefix when no colon follows it. -/
theorem afterPrefix?_math (hs : ∀ c ∈ s.head?, isPrefixChar c = false ∧ c ≠ ':') :
    afterPrefix? ("math".toList ++ s) = none := by
  refine Option.eq_none_iff_forall_ne_some.2 fun r h => ?_
  obtain ⟨c, x, hsplit, -, hx⟩ := afterPrefix?_eq_some_iff.1 h
  have hletters : "ath".toList.all Char.isAlpha = true := by decide
  have hname : ∀ d ∈ "ath".toList, isPrefixChar d = true := fun d hd =>
    isPrefixChar_of_isAlpha (List.all_eq_true.1 hletters d hd)
  have hrest : "ath".toList ++ s = x ++ ':' :: r := (List.cons.inj hsplit).2
  have hdrop := (takeWhile_append_of_head hname fun d hd => (hs d hd).1).2
  rw [hrest, (takeWhile_append_of_head hx (isPrefixChar_colon r)).2] at hdrop
  exact (hs ':' (by rw [← hdrop]; rfl)).2 rfl

theorem IsTagEndReader.afterMathName? (h : IsTagEndReader tagEnd?) : IsTagReader (afterMathName? tagEnd?) := by
  have hnamed : IsTagReader fun s => (after? "math".toList s).bind tagEnd? :=
    (isTagReader_after? (by decide)).bind h.isTagReader
  have hprefixed := isTagReader_afterPrefix?.bind hnamed
  intro s r hr
  rw [MathMarkup.afterMathName?, Option.orElse_eq_orElse, Option.orElse_eq_or, Option.or_eq_some_iff] at hr
  rcases hr with hr | ⟨-, hr⟩
  · obtain ⟨x, rfl, hx, hreads⟩ := hprefixed s r hr
    refine ⟨x, rfl, hx, fun t => ?_⟩
    have ht := hreads t
    rw [MathMarkup.afterMathName?, Option.orElse_eq_orElse, Option.orElse_eq_or, Option.or_eq_some_iff]
    exact Or.inl ht
  · obtain ⟨u, hu, hend⟩ := Option.bind_eq_some_iff.1 hr
    obtain rfl := eq_append_of_after? hu
    obtain ⟨x, rfl, hx, hreads⟩ := h.isTagReader u r hend
    refine ⟨"math".toList ++ x, (List.append_assoc _ _ _).symm, ?_, fun t => ?_⟩
    · exact List.not_mem_append (by decide) hx
    · have hname := afterPrefix?_math (h.ends_name (x ++ t) t (hreads t))
      have ht : (after? "math".toList ("math".toList ++ (x ++ t))).bind tagEnd? = some t := by
        rw [after?_append]
        exact hreads t
      rw [List.append_assoc, MathMarkup.afterMathName?, hname]
      exact ht

/-! ## Tags in a text -/

/-- **A start tag** ends where it stands: nothing of it reaches over a second opening angle bracket. -/
theorem startsMath_iff : startsMath s = true ↔
    ∃ x r, s = '<' :: (x ++ r) ∧ '<' ∉ x ∧ ∀ t, startsMath ('<' :: (x ++ t)) = true := by
  constructor
  · intro h
    unfold startsMath at h
    split at h
    · rename_i s
      obtain ⟨r, hr⟩ := Option.isSome_iff_exists.1 h
      obtain ⟨x, rfl, hx, hreads⟩ := isTagEndReader_afterNameEnd?.afterMathName? s r hr
      exact ⟨x, r, rfl, hx, fun t => Option.isSome_iff_exists.2 ⟨t, hreads t⟩⟩
    · cases h
  · rintro ⟨x, r, rfl, -, hreads⟩
    exact hreads r

theorem startsMath_append (h : startsMath s = true) (t : List Char) : startsMath (s ++ t) = true := by
  obtain ⟨x, r, rfl, -, hreads⟩ := startsMath_iff.1 h
  rw [List.cons_append, List.append_assoc]
  exact hreads (r ++ t)

/-- A bracket in front of another one starts no tag that is not there by itself. -/
theorem startsMath_of_append (hs : s ≠ []) (ht : t.head? = some '<') (h : startsMath (s ++ t) = true) :
    startsMath s = true := by
  obtain ⟨x, r, hsplit, hx, hreads⟩ := startsMath_iff.1 h
  obtain ⟨c, s, rfl⟩ := List.exists_cons_of_ne_nil hs
  obtain ⟨t, rfl⟩ := List.head?_eq_some_iff.1 ht
  obtain ⟨rfl, hrest⟩ := List.cons.inj hsplit
  rcases List.append_eq_append_iff.1 hrest with ⟨y, rfl, hy⟩ | ⟨y, rfl, -⟩
  · cases y with
    | nil => simpa using hreads []
    | cons d y =>
      obtain rfl := (List.cons.inj hy).1
      exact absurd (List.mem_append_right s List.mem_cons_self) hx
  · exact hreads y

/-- **An end tag** is a bracket and no other one, and nothing that follows is part of it. -/
theorem eq_of_afterMathEnd? (h : afterMathEnd? s = some r) :
    ∃ x, s = '<' :: (x ++ r) ∧ '<' ∉ x ∧ ∀ t, afterMathEnd? ('<' :: (x ++ t)) = some t := by
  unfold afterMathEnd? at h
  split at h
  · rename_i s
    obtain ⟨x, rfl, hx, hreads⟩ := isTagEndReader_afterTagEnd?.afterMathName? s r h
    exact ⟨'/' :: x, rfl, by simp [hx], hreads⟩
  · cases h

/-! ## The span of a text -/

theorem fromMath?_append (hp : ∀ x ∈ p.tails, startsMath x = false) (hs : startsMath s = true) :
    fromMath? (p ++ s) = some s := by
  have hhead : s.head? = some '<' := by
    obtain ⟨x, r, rfl, -⟩ := startsMath_iff.1 hs
    rfl
  induction p with
  | nil =>
    obtain ⟨x, r, rfl, -⟩ := startsMath_iff.1 hs
    rw [List.nil_append, fromMath?, if_pos hs]
  | cons c p ih =>
    rw [List.tails_cons, List.forall_mem_cons] at hp
    have hnone : ¬ startsMath (c :: (p ++ s)) = true := by
      intro h
      have hp := hp.1
      rw [startsMath_of_append (List.cons_ne_nil c p) hhead h] at hp
      cases hp
    rw [List.cons_append, fromMath?, if_neg hnone]
    exact ih hp.2

theorem throughMath?_eq_none (hq : ∀ x ∈ q.tails, afterMathEnd? x = none) : throughMath? q = none := by
  induction q with
  | nil => rfl
  | cons c q ih =>
    rw [List.tails_cons, List.forall_mem_cons] at hq
    rw [throughMath?, ih hq.2, hq.1]
    rfl

/-- No end tag starts where no bracket is. -/
theorem throughMath?_append_eq_none (hx : '<' ∉ x) (hq : ∀ y ∈ q.tails, afterMathEnd? y = none) :
    throughMath? (x ++ q) = none := by
  induction x with
  | nil => exact throughMath?_eq_none hq
  | cons c x ih =>
    have hnone : afterMathEnd? (c :: (x ++ q)) = none := by
      refine Option.eq_none_iff_forall_ne_some.2 fun r h => ?_
      obtain ⟨y, hy, -⟩ := eq_of_afterMathEnd? h
      exact hx ((List.cons.inj hy).1 ▸ List.mem_cons_self)
    rw [List.cons_append, throughMath?, ih (List.not_mem_of_not_mem_cons hx), hnone]
    rfl

/-- **The last end tag** ends the span, whatever stands in front of it. -/
theorem throughMath?_append (htag : afterMathEnd? tag = some []) (hq : ∀ y ∈ q.tails, afterMathEnd? y = none)
    (front : List Char) : throughMath? (front ++ tag ++ q) = some (front ++ tag) := by
  induction front with
  | nil =>
    obtain ⟨x, rfl, hx, hreads⟩ := eq_of_afterMathEnd? htag
    rw [List.append_nil, List.nil_append, List.cons_append, throughMath?, throughMath?_append_eq_none hx hq, hreads q]
    have hlength : (x ++ q).length + 1 - q.length = ('<' :: x).length := by
      simp only [List.length_append, List.length_cons]
      omega
    rw [Option.map_some, hlength, ← List.cons_append, List.take_left]
  | cons c front ih =>
    rw [List.cons_append, List.cons_append, throughMath?, ih]

/-- A text that starts with a `math` start tag and ends with a `math` end tag. -/
structure IsMathSpan (span : List Char) : Prop where
  starts : startsMath span = true
  ends : ∃ front tag, span = front ++ tag ∧ afterMathEnd? tag = some []

theorem IsMathSpan.fromMath?_eq (h : IsMathSpan span) (hp : ∀ x ∈ p.tails, startsMath x = false) (q : List Char) :
    fromMath? (p ++ span ++ q) = some (span ++ q) := by
  rw [List.append_assoc]
  exact fromMath?_append hp (startsMath_append h.starts q)

theorem IsMathSpan.mathSpan_eq (h : IsMathSpan span) (hp : ∀ x ∈ p.tails, startsMath x = false)
    (hq : ∀ x ∈ q.tails, afterMathEnd? x = none) : mathSpan (p ++ span ++ q) = span := by
  obtain ⟨front, tag, rfl, htag⟩ := h.ends
  rw [mathSpan, h.fromMath?_eq hp q]
  exact congrArg (Option.getD · _) (throughMath?_append htag hq front)

/-- **Prose around a span is dropped.** With no start tag in the prose in front of it and no end tag in the
prose behind it, the text is MathML, the span is what counts of it, and the result is that of the span. -/
theorem route_of_prose (config : Config) (hspan : IsMathSpan span) (hp : ∀ x ∈ p.tails, startsMath x = false)
    (hq : ∀ x ∈ q.tails, afterMathEnd? x = none) :
    Dialect.ofText (p ++ span ++ q) = .mathml ∧ mathSpan (p ++ span ++ q) = span ∧
      route config (p ++ span ++ q) = route config span := by
  have hdialect : ∀ {p q}, (∀ x ∈ p.tails, startsMath x = false) → Dialect.ofText (p ++ span ++ q) = .mathml := by
    intro p q hp
    rw [Dialect.ofText, hspan.fromMath?_eq hp q]
    rfl
  have halone : ∀ x ∈ ([] : List Char).tails, startsMath x = false ∧ afterMathEnd? x = none := by decide
  have hself := hspan.mathSpan_eq (fun x hx => (halone x hx).1) (fun x hx => (halone x hx).2)
  have hselfDialect := hdialect (q := []) fun x hx => (halone x hx).1
  rw [List.nil_append, List.append_nil] at hself hselfDialect
  have hwhole := hspan.mathSpan_eq hp hq
  refine ⟨hdialect hp, hwhole, ?_⟩
  rw [route, route, hdialect hp, hselfDialect, hwhole, hself]

/-- A dangling bracket and half a prefix in front of two elements, and half an end tag behind them. -/
theorem route_of_prose_dangling :
    let p := "a <b:math< <m:".toList
    let span := "<math><mi>x</mi></math > or <m:math/></m:math\n>".toList
    let q := "> </math <math>".toList
    IsMathSpan span ∧ (∀ x ∈ p.tails, startsMath x = false) ∧ (∀ x ∈ q.tails, afterMathEnd? x = none) ∧
      Dialect.ofText (p ++ span ++ q) = .mathml ∧ mathSpan (p ++ span ++ q) = span ∧
        route {} (p ++ span ++ q) = route {} span := by
  intro p span q
  have hspan : IsMathSpan span := ⟨by decide +kernel, "<math><mi>x</mi></math > or <m:math/>".toList,
    "</m:math\n>".toList, by decide, by decide +kernel⟩
  have hp : ∀ x ∈ p.tails, startsMath x = false := by decide +kernel
  have hq : ∀ x ∈ q.tails, afterMathEnd? x = none := by decide +kernel
  exact ⟨hspan, hp, hq, route_of_prose {} hspan hp hq⟩

end MathMarkup
