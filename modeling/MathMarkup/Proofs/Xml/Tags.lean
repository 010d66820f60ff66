import Mathlib.Data.List.TakeDrop
import Mathlib.Data.List.TakeWhile
import MathMarkup.MathML.Markup
import MathMarkup.Proofs.Text.Search
import MathMarkup.Xml.Reader

/-!
# Tags are read as they are written

Each reader is run on what the writer of `Markup` puts there and on anything behind it: names of ASCII
letters, escaped values, attributes, and then a whole start tag (`readStartTag_render`).
-/

namespace MathMarkup.Xml

open Text MathML

/-! ## Cursors -/

variable {c : Cursor} {s t : List Char}

theorem rest_advance (h : c.rest = s ++ t) : (c.advance s.length).rest = t := by
  rw [Cursor.advance, h]
  exact List.drop_left

theorem rest_advance_one {x : Char} (h : c.rest = x :: t) : (c.advance 1).rest = t :=
  rest_advance (s := [x]) h

theorem rest_span (p : Char → Bool) (c : Cursor) : (c.span p).2.rest = c.rest.dropWhile p :=
  drop_length_takeWhile p c.rest

theorem rest_skipSpace (c : Cursor) : c.skipSpace.rest = c.rest.dropWhile Cursor.isSpace :=
  rest_span _ c

/-- Where no blank comes next, none is skipped. -/
theorem rest_skipSpace_of_cons {x : Char} (h : c.rest = x :: t) (hx : Cursor.isSpace x = false) :
    c.skipSpace.rest = x :: t := by
  rw [rest_skipSpace, h, List.dropWhile_cons_of_neg (by simp [hx])]

theorem expect_of_cons {x : Char} (h : c.rest = x :: t) :
    ∃ c', c.expect x = .ok c' ∧ c'.rest = t := by
  refine ⟨c.advance 1, ?_, rest_advance_one h⟩
  rw [Cursor.expect, h]
  exact if_pos rfl

theorem expectQuote_of_cons (h : c.rest = '"' :: t) :
    ∃ c', c.expectQuote = .ok ('"', c') ∧ c'.rest = t := by
  refine ⟨c.advance 1, ?_, rest_advance_one h⟩
  rw [Cursor.expectQuote, h]
  exact if_pos (Or.inr rfl)

/-- XML admits every character. -/
def IsAdmitted (s : List Char) : Prop := ∀ c ∈ s, Cursor.isAdmitted c = true

instance : DecidablePred IsAdmitted := fun s =>
  decidable_of_iff (s.all Cursor.isAdmitted = true) List.all_eq_true

/-- Text without a place to stop is read up to the character that is one. -/
theorem admittedFrom_append (stop : List Char → Bool) {x : Char} (p : Position)
    (hs : IsAdmitted s) (hx : Cursor.isAdmitted x = true)
    (hgo : ∀ c ∈ s, ∀ t, stop (c :: t) = false) (hstop : stop (x :: t) = true) :
    ∃ c', Cursor.admittedFrom stop p (s ++ x :: t) = .ok (s, c') ∧ c'.rest = x :: t := by
  induction s generalizing p with
  | nil => exact ⟨⟨x :: t, p⟩, by simp [Cursor.admittedFrom, hx, hstop], rfl⟩
  | cons c s ih =>
    rw [IsAdmitted, List.forall_mem_cons] at hs
    rw [List.forall_mem_cons] at hgo
    obtain ⟨c', hrec, hrest⟩ := ih (p.next c) hs.2 hgo.2
    refine ⟨c', ?_, hrest⟩
    simp [Cursor.admittedFrom, hs.1, hgo.1, hrec, Except.map]

/-! ## Names -/

/-- A name of ASCII letters. -/
def IsWord (name : List Char) : Prop := name ≠ [] ∧ ∀ c ∈ name, c.isAlpha = true

instance : DecidablePred IsWord := fun name =>
  decidable_of_iff (name ≠ [] ∧ name.all Char.isAlpha = true) (and_congr Iff.rfl List.all_eq_true)

theorem isNameStart_of_isAlpha {c : Char} (h : c.isAlpha = true) : isNameStart c = true := by
  have := toNat_of_isAlpha h
  rw [isNameStart, if_pos (by omega), h]
  rfl

theorem isNamePart_of_isAlpha {c : Char} (h : c.isAlpha = true) : isNamePart c = true := by
  have := toNat_of_isAlpha h
  rw [isNamePart, if_pos (by omega), Char.isAlphanum, h]
  rfl

/-- A character of a class is none that the class leaves out. -/
theorem ne_of_class {p : Char → Bool} {c d : Char} (h : p c = true) (hd : p d = false) : c ≠ d := by
  rintro rfl
  rw [h] at hd
  cases hd

/-- A word that is read as this name. -/
structure Spells (word : List Char) (name : QName) : Prop where
  name : QName.ofChars? word = some name
  part : ∀ c ∈ word, isNamePart c = true

/-- A name without a prefix. -/
structure IsLocalName (name : List Char) : Prop where
  start : ∃ c s, name = c :: s ∧ isNameStart c = true
  part : ∀ c ∈ name, isNamePart c = true ∧ c ≠ ':'

theorem IsWord.isLocalName {name : List Char} (h : IsWord name) : IsLocalName name := by
  obtain ⟨c, s, rfl⟩ := List.exists_cons_of_ne_nil h.1
  exact ⟨⟨c, s, rfl, isNameStart_of_isAlpha (h.2 c List.mem_cons_self)⟩,
    fun d hd => ⟨isNamePart_of_isAlpha (h.2 d hd), ne_of_class (h.2 d hd) (by decide)⟩⟩

/-- The part of a word in front of its first colon. -/
theorem span_of_isLocalName {name : List Char} (h : IsLocalName name) (rest : List Char) :
    (name ++ rest).span (· != ':') = (name ++ (rest.span (· != ':')).1, (rest.span (· != ':')).2) := by
  have hcolon : ∀ c ∈ name, (c != ':') = true := fun c hc => bne_iff_ne.2 (h.part c hc).2
  rw [List.span_eq_takeWhile_dropWhile, List.takeWhile_append_of_pos hcolon, List.dropWhile_append_of_pos hcolon,
    List.span_eq_takeWhile_dropWhile]

theorem IsLocalName.spells {name : List Char} (h : IsLocalName name) : Spells name ⟨[], name⟩ := by
  refine ⟨?_, fun c hc => (h.part c hc).1⟩
  have hspan := span_of_isLocalName h []
  rw [show [].span (· != ':') = ([], []) from rfl, List.append_nil] at hspan
  obtain ⟨c, name, rfl, hstart⟩ := h.start
  simp only [QName.ofChars?, hspan]
  simp [hstart]

theorem IsLocalName.spells_prefixed {pre name : List Char} (hpre : IsLocalName pre) (h : IsLocalName name) :
    Spells (pre ++ ':' :: name) ⟨pre, name⟩ := by
  refine ⟨?_, fun c hc => ?_⟩
  · have hspan := span_of_isLocalName hpre (':' :: name)
    have hcolon : ':' ∉ name := fun hmem => (h.part ':' hmem).2 rfl
    rw [show (':' :: name).span (· != ':') = ([], ':' :: name) from rfl, List.append_nil] at hspan
    obtain ⟨d, pre, rfl, hd⟩ := hpre.start
    obtain ⟨c, name, rfl, hc⟩ := h.start
    simp only [QName.ofChars?, hspan, List.contains_eq_mem]
    simp [hcolon, hc, hd]
  · rcases List.mem_append.1 hc with hc | hc
    · exact (hpre.part c hc).1
    · rcases List.mem_cons.1 hc with rfl | hc
      · decide
      · exact (h.part c hc).1

theorem Spells.exists_cons {word : List Char} {name : QName} (h : Spells word name) :
    ∃ x rest, word = x :: rest ∧ isNamePart x = true := by
  cases word with
  | nil => cases h.name
  | cons x rest => exact ⟨x, rest, rfl, h.part x List.mem_cons_self⟩

/-- A name is read up to the character behind it. -/
theorem Spells.qname {word : List Char} {name : QName} {x : Char} (hname : Spells word name)
    (hx : isNamePart x = false) (h : c.rest = word ++ x :: t) :
    ∃ c', c.qname = .ok (name, c') ∧ c'.rest = x :: t := by
  have hword : c.rest.takeWhile isNamePart = word := by
    rw [h, List.takeWhile_append_of_pos hname.part, List.takeWhile_cons_of_neg (by simp [hx]), List.append_nil]
  have hrest : (c.span isNamePart).2.rest = x :: t := by
    rw [rest_span, h, List.dropWhile_append_of_pos hname.part, List.dropWhile_cons_of_neg (by simp [hx])]
  refine ⟨(c.span isNamePart).2, ?_, hrest⟩
  rw [Cursor.qname, show (c.span isNamePart) = (word, (c.span isNamePart).2) from Prod.ext hword rfl]
  simp [hname.name]

/-- A name without a prefix is read up to the character behind it. -/
theorem qname_of_isLocalName {name : List Char} {x : Char} (hname : IsLocalName name) (hx : isNamePart x = false)
    (h : c.rest = name ++ x :: t) : ∃ c', c.qname = .ok (⟨[], name⟩, c') ∧ c'.rest = x :: t :=
  hname.spells.qname hx h

/-- A name of letters is read up to the character behind it. -/
theorem qname_of_isWord {name : List Char} {x : Char} (hname : IsWord name) (hx : isNamePart x = false)
    (h : c.rest = name ++ x :: t) : ∃ c', c.qname = .ok (⟨[], name⟩, c') ∧ c'.rest = x :: t :=
  qname_of_isLocalName hname.isLocalName hx h

/-! ## Escaped text -/

/-- What stands for a character in escaped text: the character itself, or a predefined entity. -/
def IsEscape (c : Char) (s : List Char) : Prop :=
  (c ≠ '&' ∧ s = [c]) ∨ ∃ name, IsWord name ∧ named name = .char c ∧ s = '&' :: name ++ [';']

theorem isEscape_escapeTextChar (c : Char) : IsEscape c (escapeTextChar c) := by
  unfold escapeTextChar
  split
  · exact Or.inr ⟨"amp".toList, by decide, by decide, rfl⟩
  · exact Or.inr ⟨"lt".toList, by decide, by decide, rfl⟩
  · exact Or.inr ⟨"gt".toList, by decide, by decide, rfl⟩
  · rename_i hamp _ _
    exact Or.inl ⟨hamp, rfl⟩

theorem isEscape_escapeAttributeChar (c : Char) : IsEscape c (escapeAttributeChar c) := by
  unfold escapeAttributeChar
  split
  · rename_i hquot
    exact Or.inr ⟨"quot".toList, by decide, hquot ▸ by decide, rfl⟩
  · exact isEscape_escapeTextChar c

theorem splitReference?_of_isWord {name : List Char} (hname : IsWord name) :
    splitReference? (name ++ ';' :: t) = some (named name, t) := by
  obtain ⟨hne, hall⟩ := hname
  have hpart : ∀ c ∈ name, isNamePart c = true := fun c hc => isNamePart_of_isAlpha (hall c hc)
  have hunclosed : splitUnclosed? (name ++ ';' :: t) = some (named name, ';' :: t) := by
    cases name with
    | nil => exact absurd rfl hne
    | cons c name =>
      rw [List.forall_mem_cons] at hall hpart
      have hhash : c ≠ '#' := ne_of_class hall.1 (by decide)
      have hname : splitName? (c :: name ++ ';' :: t) = some (c :: name, ';' :: t) := by
        rw [List.cons_append, splitName?, if_pos (isNameStart_of_isAlpha hall.1),
          List.takeWhile_append_of_pos hpart.2, List.dropWhile_append_of_pos hpart.2]
        simp [show isNamePart ';' = false by decide]
      unfold splitUnclosed?
      split
      · rename_i heq
        exact absurd (List.cons.inj heq).1 hhash
      · rename_i heq
        exact absurd (List.cons.inj heq).1 hhash
      · rw [hname]
        rfl
  rw [splitReference?, hunclosed]
  simp [after?]

/-- Escaped text is resolved into its characters. -/
theorem resolve_flatMap {escape : Char → List Char} (hescape : ∀ c, IsEscape c (escape c))
    (p : Position) (s : List Char) :
    ∃ letters, resolve p (s.flatMap escape) = .ok letters ∧ letters.map Letter.char = s := by
  induction s generalizing p with
  | nil => exact ⟨[], by rw [List.flatMap_nil, resolve], rfl⟩
  | cons c s ih =>
    rw [List.flatMap_cons]
    rcases hescape c with ⟨hc, hw⟩ | ⟨name, hname, hnamed, hw⟩
    · obtain ⟨letters, hrec, hchars⟩ := ih (p.next c)
      refine ⟨⟨c, false⟩ :: letters, ?_, by rw [List.map_cons, hchars]⟩
      rw [hw, List.singleton_append, resolve, if_pos hc, hrec]
      rfl
    · have hsplit := splitReference?_of_isWord (t := s.flatMap escape) hname
      rw [hnamed] at hsplit
      have hlen : (s.flatMap escape).length ≤ (name ++ ';' :: s.flatMap escape).length := by
        simp only [List.length_append, List.length_cons]
        omega
      obtain ⟨letters, hrec, hchars⟩ := ih ((p.next '&').after ((name ++ ';' :: s.flatMap escape).take
        ((name ++ ';' :: s.flatMap escape).length - (s.flatMap escape).length)))
      refine ⟨⟨c, true⟩ :: letters, ?_, by rw [List.map_cons, hchars]⟩
      rw [hw, List.append_assoc, List.cons_append, List.singleton_append, resolve, if_neg (by simp), hsplit]
      simp only
      rw [if_pos hlen, hrec]
      rfl

theorem exists_attributeValue (p : Position) (s : List Char) :
    ∃ value, attributeValue p (escapeAttribute s) = .ok value := by
  obtain ⟨letters, h, -⟩ := resolve_flatMap isEscape_escapeAttributeChar p s
  exact ⟨normalizeBlanks letters, by rw [attributeValue, escapeAttribute, h]; rfl⟩

theorem exists_characterData (p : Position) (s : List Char) :
    ∃ text, characterData p (escapeText s) = .ok text := by
  obtain ⟨letters, h, -⟩ := resolve_flatMap isEscape_escapeTextChar p s
  unfold characterData
  split
  · exact ⟨normalizeLines false [] letters, by rw [escapeText, h]; rfl⟩
  · exact ⟨_, rfl⟩

/-- A character that ends neither text nor a value. -/
def isHarmless (c : Char) : Bool := Cursor.isAdmitted c && c != '<' && c != '>' && c != '"'

theorem mem_escapeTextChar {c d : Char} (h : d ∈ escapeTextChar c) :
    (d = c ∧ d ≠ '<' ∧ d ≠ '>') ∨ isHarmless d = true := by
  unfold escapeTextChar at h
  split at h
  · exact Or.inr (List.all_eq_true.1 (by decide : "&amp;".toList.all isHarmless = true) d h)
  · exact Or.inr (List.all_eq_true.1 (by decide : "&lt;".toList.all isHarmless = true) d h)
  · exact Or.inr (List.all_eq_true.1 (by decide : "&gt;".toList.all isHarmless = true) d h)
  · rename_i hlt hgt
    obtain rfl := List.mem_singleton.1 h
    exact Or.inl ⟨rfl, hlt, hgt⟩

/-- What is left of a text that XML admits has no angle bracket. -/
theorem mem_escapeText {c : Char} (hs : IsAdmitted s) (h : c ∈ escapeText s) :
    Cursor.isAdmitted c = true ∧ c ≠ '<' ∧ c ≠ '>' := by
  rw [escapeText, List.mem_flatMap] at h
  obtain ⟨d, hd, hc⟩ := h
  rcases mem_escapeTextChar hc with ⟨rfl, hlt, hgt⟩ | hharmless
  · exact ⟨hs c hd, hlt, hgt⟩
  · simp only [isHarmless, Bool.and_eq_true, bne_iff_ne] at hharmless
    exact ⟨hharmless.1.1.1, hharmless.1.1.2, hharmless.1.2⟩

/-- An escaped value has nothing that ends it. -/
theorem mem_escapeAttribute {c : Char} (hs : IsAdmitted s) (h : c ∈ escapeAttribute s) :
    Cursor.isAdmitted c = true ∧ c ≠ '<' ∧ c ≠ '"' := by
  rw [escapeAttribute, List.mem_flatMap] at h
  obtain ⟨d, hd, hc⟩ := h
  have hof : isHarmless c = true → Cursor.isAdmitted c = true ∧ c ≠ '<' ∧ c ≠ '"' := by
    simp only [isHarmless, Bool.and_eq_true, bne_iff_ne]
    exact fun h => ⟨h.1.1.1, h.1.1.2, h.2⟩
  unfold escapeAttributeChar at hc
  split at hc
  · exact hof (List.all_eq_true.1 (by decide : "&quot;".toList.all isHarmless = true) c hc)
  · rename_i hquot
    rcases mem_escapeTextChar hc with ⟨rfl, hlt, -⟩ | hharmless
    · exact ⟨hs c hd, hlt, hquot⟩
    · exact hof hharmless

/-! ## Attributes -/

/-- Attributes that one tag can hold: their names are words, no two alike and none a declaration, and
XML admits the characters of their values. -/
structure FitAttributes (attributes : List (String × List Char)) : Prop where
  nodup : (attributes.map (·.1)).Nodup
  word : ∀ a ∈ attributes, IsWord a.1.toList ∧ a.1 ≠ "xmlns"
  admitted : ∀ a ∈ attributes, IsAdmitted a.2

theorem FitAttributes.nil : FitAttributes [] := ⟨List.nodup_nil, by simp, by simp⟩

theorem readAttribute_render {word : List Char} {name : QName} (hname : Spells word name) {value : List Char}
    (hvalue : IsAdmitted value)
    (h : c.rest = word ++ '=' :: '"' :: (escapeAttribute value ++ '"' :: t)) :
    ∃ start c', readAttribute c = .ok (name, escapeAttribute value, start, c') ∧ c'.rest = t := by
  obtain ⟨c1, h1, hr1⟩ := hname.qname (by decide) h
  obtain ⟨c2, h2, hr2⟩ := expect_of_cons (rest_skipSpace_of_cons hr1 (by decide))
  obtain ⟨c3, h3, hr3⟩ := expectQuote_of_cons (rest_skipSpace_of_cons hr2 (by decide))
  have hescaped := fun c (hc : c ∈ escapeAttribute value) => mem_escapeAttribute hvalue hc
  obtain ⟨c4, h4, hr4⟩ := admittedFrom_append (fun s => s.head? = some '"' || s.head? = some '<')
    (t := t) c3.position (fun c hc => (hescaped c hc).1) (by decide : Cursor.isAdmitted '"' = true)
    (fun c hc t => by simp [(hescaped c hc).2]) (by simp)
  obtain ⟨c5, h5, hr5⟩ := expect_of_cons hr4
  refine ⟨c3.position, c5, ?_, hr5⟩
  rw [← hr3] at h4
  simp only [readAttribute, h1, h2, h3, Cursor.admitted, h4, h5, bind, Except.bind, pure, Except.pure]

theorem readAttributes_opened (a : Attributes) (h : c.rest = '>' :: t) :
    ∃ c', readAttributes a c = .ok (a, .opened, c') ∧ c'.rest = t := by
  have hhere := rest_skipSpace_of_cons h (by decide)
  refine ⟨c.skipSpace.advance 1, ?_, rest_advance_one hhere⟩
  rw [readAttributes, h]
  simp [hhere]

theorem readAttributes_empty (a : Attributes) (h : c.rest = '/' :: '>' :: t) :
    ∃ c', readAttributes a c = .ok (a, .empty, c') ∧ c'.rest = t := by
  have hhere := rest_skipSpace_of_cons h (by decide)
  obtain ⟨c', hexpect, hrest⟩ := expect_of_cons (rest_advance_one hhere)
  refine ⟨c', ?_, hrest⟩
  rw [readAttributes, h]
  simp [hhere, hexpect, Except.map]

/-- An attribute is read, and the reader goes on behind it with what the attribute adds. -/
theorem readAttributes_cons (a : Attributes) (word : String) {name : QName} {value : List Char}
    (hname : Spells word.toList name) (hvalue : IsAdmitted value)
    (h : c.rest = writeAttribute word value ++ t) :
    ∃ p read position, attributeValue p (escapeAttribute value) = .ok read ∧
      ∀ b, a.add name read position = .ok b → ∃ c', readAttributes a c = readAttributes b c' ∧ c'.rest = t := by
  have hrest : c.rest = ' ' :: (word.toList ++ '=' :: '"' :: (escapeAttribute value ++ '"' :: t)) := by
    rw [h]
    simp [writeAttribute]
  obtain ⟨x, rest, hword, hx⟩ := hname.exists_cons
  have hhere : c.skipSpace.rest = word.toList ++ '=' :: '"' :: (escapeAttribute value ++ '"' :: t) := by
    have hblank : Cursor.isSpace x = false := by
      have hne : ∀ d : Char, isNamePart d = false → (x == d) = false := fun d hd =>
        beq_eq_false_iff_ne.2 (ne_of_class hx hd)
      simp [Cursor.isSpace, hne ' ' (by decide), hne '\t' (by decide), hne '\n' (by decide),
        hne '\r' (by decide)]
    rw [rest_skipSpace, hrest, List.dropWhile_cons_of_pos (by decide), hword, List.cons_append,
      List.dropWhile_cons_of_neg (by simp [hblank])]
  obtain ⟨start, behind, hread, hbehind⟩ := readAttribute_render hname hvalue hhere
  obtain ⟨read, hvalue⟩ := exists_attributeValue start value
  refine ⟨start, read, c.skipSpace.position, hvalue, fun b hadd => ⟨behind, ?_, hbehind⟩⟩
  have hshorter : behind.rest.length < c.rest.length := by
    rw [hbehind, hrest]
    simp only [List.length_cons, List.length_append]
    omega
  have hspace : c.atSpace = true := by
    rw [Cursor.atSpace, hrest]
    rfl
  rw [hword, List.cons_append] at hhere
  have hmore : c.rest.isEmpty = false := by rw [hrest]; rfl
  -- neither of the two characters that end a tag
  have hslash : x ≠ '/' := ne_of_class hx (by decide)
  have hclose : x ≠ '>' := ne_of_class hx (by decide)
  rw [readAttributes, hmore]
  simp [hhere, hspace, hread, hvalue, hadd, hshorter]

theorem readAttributes_render {attributes : List (String × List Char)} (hfit : FitAttributes attributes)
    (a : Attributes) (h : c.rest = attributes.flatMap Markup.renderAttribute ++ t) :
    ∃ b c', readAttributes a c = readAttributes b c' ∧ c'.rest = t ∧ b.own = a.own ∧
      b.list.map (·.name) = a.list.map (·.name) ++ attributes.map fun a => ⟨[], a.1.toList⟩ := by
  obtain ⟨-, hword, hadmitted⟩ := hfit
  induction attributes generalizing a c with
  | nil => exact ⟨a, c, rfl, h, rfl, by simp⟩
  | cons first attributes ih =>
    obtain ⟨name, value⟩ := first
    rw [List.forall_mem_cons] at hword hadmitted
    rw [List.flatMap_cons, List.append_assoc] at h
    obtain ⟨p, read, position, -, hstep⟩ := readAttributes_cons a name hword.1.1.isLocalName.spells hadmitted.1 h
    have hadd : a.add ⟨[], name.toList⟩ read position =
        .ok { a with list := a.list ++ [⟨⟨[], name.toList⟩, read, position⟩] } := by
      have hxmlns : name.toList ≠ "xmlns".toList := fun heq => hword.1.2 (String.toList_inj.1 heq)
      rw [Attributes.add, if_neg (by simp), if_neg hxmlns]
    obtain ⟨c1, hread, hrest⟩ := hstep _ hadd
    obtain ⟨b, c', hread', hrest', hown, hlist⟩ := ih _ hrest hword.2 hadmitted.2
    refine ⟨b, c', hread.trans hread', hrest', hown, ?_⟩
    rw [hlist]
    simp

/-! ## Start tags -/

/-- Attributes without prefixes, no two alike, have no namespace. -/
theorem resolveAttributes_plain (scope : Scope) (seen : List (Option String × List Char))
    {list : List RawAttribute} (hplain : ∀ a ∈ list, a.name.prefixName = [])
    (hnodup : (list.map (·.name.localName)).Nodup)
    (hseen : ∀ a ∈ list, (none, a.name.localName) ∉ seen) :
    ∃ resolved, resolveAttributes scope seen list = .ok resolved ∧ ∀ r ∈ resolved, r.1 = none := by
  induction list generalizing seen with
  | nil => exact ⟨[], rfl, by simp⟩
  | cons a list ih =>
    rw [List.forall_mem_cons] at hplain hseen
    rw [List.map_cons, List.nodup_cons] at hnodup
    obtain ⟨resolved, hrec, hnone⟩ := ih ((none, a.name.localName) :: seen) hplain.2 hnodup.2 <| by
      intro b hb hmem
      rcases List.mem_cons.1 hmem with heq | hmem
      · exact hnodup.1 (List.mem_map.2 ⟨b, hb, (Prod.mk.inj heq).2⟩)
      · exact hseen.2 b hb hmem
    have hspace : a.space scope = .ok none := by simp [RawAttribute.space, hplain.1]
    refine ⟨(none, a) :: resolved, ?_, ?_⟩
    · simp [resolveAttributes, hspace, hseen.1, hrec, bind, Except.bind, pure, Except.pure]
    · simpa using hnone

/-- The element of a start tag with plain attributes. -/
theorem makeTag_plain (parent : Scope) (start : Position) (name : List Char) {a : Attributes}
    (hplain : ∀ b ∈ a.list, b.name.prefixName = []) (hnodup : (a.list.map (·.name.localName)).Nodup) :
    ∃ tag, makeTag parent start ⟨[], name⟩ a = .ok tag ∧ tag.name = ⟨[], name⟩ ∧
      tag.tag.name = String.ofList name ∧ tag.tag.space = (a.own.extend parent).spaceOf? none ∧
      tag.prefixes = [] := by
  obtain ⟨resolved, hresolved, hnone⟩ :=
    resolveAttributes_plain (a.own.extend parent) [] hplain hnodup (by simp)
  have hprefixes : resolved.filterMap (fun b => knownPrefix? (a.own.extend parent) b.1) = [] := by
    rw [List.filterMap_eq_nil_iff]
    intro b hb
    rw [hnone b hb]
    rfl
  refine ⟨⟨⟨[], name⟩, ⟨String.ofList name, (a.own.extend parent).spaceOf? none,
    resolved.map (keyed (a.own.extend parent)), [], start.row⟩, a.own.extend parent, []⟩, ?_, rfl, rfl, rfl, rfl⟩
  simp [makeTag, hresolved, hprefixes, bind, Except.bind, pure, Except.pure]

/-- **A start tag** is read as it is written. `tagEnd` is how it ends, and `close` what is written for
that. -/
theorem readStartTag_render (parent : Scope) (tagEnd : TagEnd) (close : List Char) {name : String}
    (hname : IsWord name.toList) {attributes : List (String × List Char)}
    (hfit : FitAttributes attributes) (hend : tagEnd ≠ .cutOff) (hclose : ∃ x s, close = x :: s ∧ isNamePart x = false)
    (hread : ∀ (a : Attributes) (c : Cursor), c.rest = close ++ t →
      ∃ c', readAttributes a c = .ok (a, tagEnd, c') ∧ c'.rest = t)
    (h : c.rest = Markup.renderHead name attributes ++ (close ++ t)) :
    ∃ tag c', readStartTag parent c = .ok (some tag, tagEnd, c') ∧ c'.rest = t ∧
      tag.name = ⟨[], name.toList⟩ ∧ tag.tag.name = name ∧ tag.prefixes = [] := by
  have hrest : c.rest = '<' :: (name.toList ++ (attributes.flatMap Markup.renderAttribute ++ (close ++ t))) := by
    rw [h]
    simp [Markup.renderHead]
  obtain ⟨x, s, hhead, hx⟩ : ∃ x s, attributes.flatMap Markup.renderAttribute ++ (close ++ t) = x :: s ∧
      isNamePart x = false := by
    cases attributes with
    | nil =>
      obtain ⟨x, s, rfl, hx⟩ := hclose
      exact ⟨x, s ++ t, rfl, hx⟩
    | cons b attributes => exact ⟨' ', _, rfl, by decide⟩
  have hafter := rest_advance_one hrest
  rw [hhead] at hafter
  obtain ⟨c1, hqname, hr1⟩ := qname_of_isWord hname hx hafter
  rw [← hhead] at hr1
  obtain ⟨b, c2, hattributes, hr2, hown, hlist⟩ := readAttributes_render hfit ⟨[], []⟩ hr1
  obtain ⟨c3, htag, hr3⟩ := hread b c2 hr2
  rw [List.map_nil, List.nil_append] at hlist
  have hplain : ∀ a ∈ b.list, a.name.prefixName = [] := by
    intro a ha
    have := List.mem_map_of_mem (f := RawAttribute.name) ha
    rw [hlist, List.mem_map] at this
    obtain ⟨d, -, hd⟩ := this
    rw [← hd]
  have hnodup : (b.list.map (·.name.localName)).Nodup := by
    have hnames : b.list.map (·.name.localName) = (attributes.map (·.1)).map String.toList := by
      have := congrArg (List.map QName.localName) hlist
      simpa [List.map_map, Function.comp_def] using this
    rw [hnames]
    exact List.Pairwise.map String.toList (fun a b hne heq => hne (String.toList_inj.1 heq)) hfit.nodup
  obtain ⟨tag, hmake, htagname, hname', -, hprefixes⟩ :=
    makeTag_plain parent c.position name.toList hplain hnodup
  refine ⟨tag, c3, ?_, hr3, htagname, by rw [hname', String.ofList_toList], hprefixes⟩
  cases tagEnd with
  | cutOff => exact absurd rfl hend
  | opened => simp [readStartTag, hqname, hattributes, htag, hmake, bind, Except.bind, pure, Except.pure]
  | empty => simp [readStartTag, hqname, hattributes, htag, hmake, bind, Except.bind, pure, Except.pure]

end MathMarkup.Xml
