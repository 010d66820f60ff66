import Mathlib.Data.List.Forall2
import MathMarkup.Proofs.Text.Search
import MathMarkup.Proofs.Xml.Lines
import MathMarkup.Proofs.Xml.Readers

/-!
# The text of an element and its character data

`Part` is a part of the content of an element as it is written. Everything that is read comes from such parts,
element by element in the order of the text. The character data directly in an element stands in runs between
comments, instructions and elements (`runs`), and the text of what was read of it is that of the runs that are not
blank: so it is the whole character data exactly if no run is blank, whatever the element is called.

Main statement: `ownText_of_parse`.
-/

namespace MathMarkup.Xml

open Text

/-! ## Content as it is written -/

/-- A part of the content of an element. -/
inductive Part where
  /-- Text between tags, and the characters that it stands for. -/
  | data (raw s : List Char)
  /-- A section of plain text. -/
  | plain (raw : List Char)
  /-- A comment or an instruction. -/
  | aside (raw : List Char)
  /-- An element: its start tag as it is written and as it is read, its content, and its end tag, unless the start
  tag is that of an empty element. -/
  | element (head : List Char) (tag : StartTag) (content : List Part) (tail : List Char)

variable {s : List Char} {ps content init : List Part} {part : Part} {last : List Char}

def sectionStart : List Char := "<![CDATA[".toList

def sectionEnd : List Char := "]]>".toList

mutual

def Part.written : Part → List Char
  | .data raw _ => raw
  | .plain raw => sectionStart ++ (raw ++ sectionEnd)
  | .aside raw => raw
  | .element head _ content tail => head ++ (writtenAll content ++ tail)

/-- The text of the parts. -/
def writtenAll : List Part → List Char
  | [] => []
  | part :: ps => part.written ++ writtenAll ps

end

/-- A text that is read as this start tag. -/
def IsStartTag (head : List Char) (tag : StartTag) (tagEnd : TagEnd) : Prop :=
  ∃ parent c c', c.sees "<" = true ∧ readStartTag parent c = .ok (some tag, tagEnd, c') ∧ c.rest = head ++ c'.rest

/-- A text that is read as the end tag for this name. -/
def IsEndTag (tail : List Char) (name : QName) : Prop :=
  ∃ c c', c.sees "</" = true ∧ readEndTag name c = .ok c' ∧ c.rest = tail ++ c'.rest

/-- A text that is read as a comment, or as an instruction. -/
def IsAside (raw : List Char) : Prop :=
  ∃ c c', (c.sees "<!--" = true ∧ readComment c = .ok c' ∨ c.sees "<?" = true ∧ readInstruction c = .ok c') ∧
    c.rest = raw ++ c'.rest

mutual

/-- The part is what it says: text holds no tags and stands for its characters, the end of a section is the first
one in it, and the start and the end tag of an element belong together. -/
def Part.Valid : Part → Prop
  | .data raw s => '<' ∉ raw ∧ ∃ p, characterData p raw = .ok s
  | .plain raw => breakOn? sectionEnd (raw ++ sectionEnd) = some (raw, [])
  | .aside raw => IsAside raw
  | .element head tag content tail =>
    (IsStartTag head tag .empty ∧ content = [] ∧ tail = [] ∨ IsStartTag head tag .opened ∧ IsEndTag tail tag.name) ∧
      validAll content

def validAll : List Part → Prop
  | [] => True
  | part :: ps => part.Valid ∧ validAll ps

end

theorem writtenAll_append (ps qs : List Part) : writtenAll (ps ++ qs) = writtenAll ps ++ writtenAll qs := by
  induction ps with
  | nil => rfl
  | cons part ps ih => rw [List.cons_append, writtenAll, ih, writtenAll, List.append_assoc]

theorem writtenAll_concat (ps : List Part) (part : Part) : writtenAll (ps ++ [part]) = writtenAll ps ++ part.written := by
  rw [writtenAll_append, writtenAll, writtenAll, List.append_nil]

theorem validAll_concat : validAll (ps ++ [part]) ↔ validAll ps ∧ part.Valid := by
  induction ps with
  | nil => simp [validAll]
  | cons q ps ih => rw [List.cons_append, validAll, ih, validAll, and_assoc]

/-! ## Character data -/

/-- The characters that a text or a section stands for. -/
def Part.text? : Part → Option (List Char)
  | .data _ s => some s
  | .plain raw => some (sectionText raw)
  | .aside _ => none
  | .element .. => none

/-- The character data directly in the content. -/
def characters (content : List Part) : List Char := content.flatMap fun part => part.text?.getD []

/-- The character data in runs, between the parts that are neither text nor a section. -/
def runs : List Part → List (List Char)
  | [] => [[]]
  | part :: ps =>
    match part.text? with
    | some s => (runs ps).modifyHead (s ++ ·)
    | none => [] :: runs ps

theorem runs_ne_nil (content : List Part) : runs content ≠ [] := by
  cases content with
  | nil => exact List.cons_ne_nil _ _
  | cons part ps =>
    rw [runs]
    split
    · rw [ne_eq, List.modifyHead_eq_nil_iff]
      exact runs_ne_nil ps
    · exact List.cons_ne_nil _ _

theorem flatten_runs (content : List Part) : (runs content).flatten = characters content := by
  induction content with
  | nil => rfl
  | cons part ps ih =>
    rw [runs, characters, List.flatMap_cons, ← characters, ← ih]
    cases part.text? with
    | none => rfl
    | some s =>
      obtain ⟨run, rest, hruns⟩ := List.exists_cons_of_ne_nil (runs_ne_nil ps)
      rw [hruns]
      simp

theorem exists_runs_append (ps : List Part) : ∃ before last, runs ps = before ++ [last] ∧
    ∀ qs, runs (ps ++ qs) = before ++ (runs qs).modifyHead (last ++ ·) := by
  induction ps with
  | nil =>
    refine ⟨[], [], rfl, fun qs => ?_⟩
    rw [List.nil_append, List.nil_append]
    cases runs qs <;> rfl
  | cons part ps ih =>
    obtain ⟨before, last, hruns, happend⟩ := ih
    simp only [List.cons_append, runs]
    cases part.text? with
    | none => exact ⟨[] :: before, last, by rw [hruns]; rfl, fun qs => by rw [happend]; rfl⟩
    | some s =>
      cases before with
      | nil => exact ⟨[], s ++ last, by simp [hruns], fun qs => by simp [happend, Function.comp_def]⟩
      | cons run before => exact ⟨(s ++ run) :: before, last, by simp [hruns], fun qs => by simp [happend]⟩

/-- What is behind the content continues its last run. -/
theorem runs_append {before : List (List Char)} (h : runs ps = before ++ [last]) (qs : List Part) :
    runs (ps ++ qs) = before ++ (runs qs).modifyHead (last ++ ·) := by
  obtain ⟨before', last', h', happend⟩ := exists_runs_append ps
  obtain ⟨rfl, hlast⟩ := List.append_inj' (h.symm.trans h') rfl
  obtain rfl := List.singleton_inj.1 hlast
  exact happend qs

theorem runs_concat_text {before : List (List Char)} (hpart : part.text? = some s) (h : runs ps = before ++ [last]) :
    runs (ps ++ [part]) = before ++ [last ++ s] := by
  rw [runs_append h]
  simp [runs, hpart]

theorem runs_concat (hpart : part.text? = none) (ps : List Part) : runs (ps ++ [part]) = runs ps ++ [[]] := by
  obtain ⟨before, last, h, happend⟩ := exists_runs_append ps
  rw [happend, h]
  simp [runs, hpart]

/-- Is the text more than blanks? -/
def isKept (s : List Char) : Bool := !s.all isBlank

theorem length_flatten_filter_le (texts : List (List Char)) :
    (texts.filter isKept).flatten.length ≤ texts.flatten.length := by
  induction texts with
  | nil => exact Nat.le_refl 0
  | cons t texts ih =>
    rw [List.filter_cons]
    split
    · simpa using ih
    · rw [List.flatten_cons, List.length_append]
      omega

/-- Leaving out the blank runs leaves out nothing exactly if each of them is empty. -/
theorem flatten_filter_isKept_iff {texts : List (List Char)} :
    (texts.filter isKept).flatten = texts.flatten ↔ ∀ t ∈ texts, t ≠ [] → isKept t = true := by
  induction texts with
  | nil => simp
  | cons t texts ih =>
    rw [List.forall_mem_cons, List.flatten_cons]
    refine Iff.trans ?_ (and_congr_right' ih)
    cases ht : isKept t with
    | true =>
      rw [List.filter_cons_of_pos ht, List.flatten_cons, List.append_cancel_left_eq]
      simp
    | false =>
      rw [List.filter_cons_of_neg (by simp [ht])]
      constructor
      · intro heq
        have hlength := congrArg List.length heq
        have hless := length_flatten_filter_le texts
        rw [List.length_append] at hlength
        have hnil : t = [] := List.length_eq_zero_iff.1 (by omega)
        exact ⟨fun hne => absurd hnil hne, by rw [heq, hnil]; rfl⟩
      · rintro ⟨hnil, heq⟩
        have hnil : t = [] := Decidable.not_not.1 fun hne => Bool.noConfusion (hnil hne)
        rw [heq, hnil]
        rfl

/-! ## Elements in the order of the text -/

mutual

/-- The elements that a part holds: their start tags and their content. -/
def Part.within : Part → List (StartTag × List Part)
  | .data .. => []
  | .plain _ => []
  | .aside _ => []
  | .element _ tag content _ => (tag, content) :: partsWithin content

def partsWithin : List Part → List (StartTag × List Part)
  | [] => []
  | part :: ps => part.within ++ partsWithin ps

end

mutual

/-- The elements that a tree holds. -/
def Node.within : Node → List Element
  | .element tag children => ⟨tag, children⟩ :: nodesWithin children
  | .text _ => []

def nodesWithin : List Node → List Element
  | [] => []
  | n :: ns => n.within ++ nodesWithin ns

end

theorem partsWithin_concat (ps : List Part) (part : Part) : partsWithin (ps ++ [part]) = partsWithin ps ++ part.within := by
  induction ps with
  | nil => simp [partsWithin]
  | cons q ps ih => rw [List.cons_append, partsWithin, ih, partsWithin, List.append_assoc]

theorem Part.within_of_text (hpart : part.text? = some s) : part.within = [] := by
  cases part with
  | data => rfl
  | plain => rfl
  | aside => cases hpart
  | element => cases hpart

theorem nodesWithin_append (ns ms : List Node) : nodesWithin (ns ++ ms) = nodesWithin ns ++ nodesWithin ms := by
  induction ns with
  | nil => rfl
  | cons n ns ih => rw [List.cons_append, nodesWithin, ih, nodesWithin, List.append_assoc]

/-- Texts hold no elements. -/
theorem nodesWithin_filter (ns : List Node) : nodesWithin (ns.filter fun n => !n.isBlankText) = nodesWithin ns := by
  induction ns with
  | nil => rfl
  | cons n ns ih =>
    rw [List.filter_cons]
    split
    · rw [nodesWithin, ih, nodesWithin]
    · rename_i hblank
      cases n with
      | element => exact absurd rfl hblank
      | text s => exact ih

/-! ## Texts of an element -/

def Node.text? : Node → Option (List Char)
  | .text s => some s
  | .element .. => none

/-- The texts among the nodes that are more than blanks. -/
def keptTexts (ns : List Node) : List (List Char) := (ns.filterMap Node.text?).filter isKept

theorem keptTexts_append (ns ms : List Node) : keptTexts (ns ++ ms) = keptTexts ns ++ keptTexts ms := by
  rw [keptTexts, List.filterMap_append, List.filter_append, ← keptTexts, ← keptTexts]

theorem ownText_filter (ns : List Node) :
    ownText (ns.filter fun n => !n.isBlankText) = (keptTexts ns).flatten := by
  induction ns with
  | nil => rfl
  | cons n ns ih =>
    cases n with
    | element tag children => exact ih
    | text s =>
      have htext : keptTexts (.text s :: ns) = if isKept s then s :: keptTexts ns else keptTexts ns := List.filter_cons
      rw [List.filter_cons, htext]
      cases hs : isKept s with
      | true =>
        have hkept : (!Node.isBlankText (.text s)) = true := hs
        rw [if_pos hkept, if_pos rfl, List.flatten_cons, ← ih]
        rfl
      | false =>
        have hblank : (!Node.isBlankText (.text s)) = false := hs
        rw [hblank, if_neg Bool.false_ne_true, if_neg Bool.false_ne_true]
        exact ih

/-- An element that was read from such content. -/
structure KeepsText (x : StartTag × List Part) (e : Element) : Prop where
  tag : e.tag = x.1.tag
  text : ownText e.children = ((runs x.2).filter isKept).flatten

/-! ## What the readers of content take -/

section Readers

variable {c c' : Cursor}

theorem cut_of_admittedFrom {stop : List Char → Bool} {p : Position} {t : List Char}
    (h : Cursor.admittedFrom stop p s = .ok (t, c')) :
    s = t ++ c'.rest ∧ ∀ x y, t = x ++ y → y ≠ [] → stop (y ++ c'.rest) = false := by
  induction s generalizing p t with
  | nil =>
    obtain ⟨rfl, rfl⟩ := Prod.mk.inj (Except.ok.inj h)
    exact ⟨rfl, fun x y hxy hy => absurd (List.append_eq_nil_iff.1 hxy.symm).2 hy⟩
  | cons d s ih =>
    rw [Cursor.admittedFrom] at h
    split at h
    · cases h
    · split at h
      · obtain ⟨rfl, rfl⟩ := Prod.mk.inj (Except.ok.inj h)
        exact ⟨rfl, fun x y hxy hy => absurd (List.append_eq_nil_iff.1 hxy.symm).2 hy⟩
      · rename_i hgo
        obtain ⟨⟨text, rest⟩, hrest, heq⟩ := map_eq_ok.1 h
        obtain ⟨rfl, rfl⟩ := Prod.mk.inj heq
        obtain ⟨hs, hstop⟩ := ih hrest
        refine ⟨congrArg (d :: ·) hs, fun x y hxy hy => ?_⟩
        cases x with
        | nil =>
          rw [List.nil_append] at hxy
          rw [← hxy, List.cons_append, ← hs]
          simpa using hgo
        | cons e x => exact hstop x y (List.cons.inj hxy).2 hy

theorem eq_append_of_sees {word : String} (h : c.sees word = true) :
    c.rest = word.toList ++ (c.advance word.length).rest := by
  obtain ⟨t, ht⟩ := Option.isSome_iff_exists.1 h
  have hrest := after?_eq_some_iff.1 ht
  have hbehind : (c.advance word.length).rest = t := by
    rw [Cursor.advance, hrest, ← String.length_toList, List.drop_left]
  rw [hbehind, hrest]

theorem exists_data_of_readText (h : readText c = .ok (s, c')) :
    ∃ raw, (Part.data raw s).Valid ∧ c.rest = raw ++ c'.rest := by
  obtain ⟨raw, hraw, -, hdata⟩ := readText_eq_ok.1 h
  obtain ⟨hrest, hstop⟩ := cut_of_admittedFrom hraw
  refine ⟨raw, ⟨fun hmem => ?_, c.position, hdata⟩, hrest⟩
  obtain ⟨x, y, hxy⟩ := List.append_of_mem hmem
  have := hstop x ('<' :: y) hxy (List.cons_ne_nil _ _)
  simp at this

theorem exists_plain_of_readSection (hsees : c.sees "<![CDATA[" = true) (h : readSection c = .ok (s, c')) :
    ∃ raw, (Part.plain raw).Valid ∧ sectionText raw = s ∧ c.rest = (Part.plain raw).written ++ c'.rest := by
  obtain ⟨raw, c₁, hraw, hend, rfl⟩ := readSection_eq_ok.1 h
  obtain ⟨hsee, rfl⟩ := Cursor.expectWord_eq_ok.1 hend
  obtain ⟨hrest, hstop⟩ := cut_of_admittedFrom hraw
  have hstart : c.rest = sectionStart ++ (c.advance 9).rest := eq_append_of_sees hsees
  have hclose : c₁.rest = sectionEnd ++ (c₁.advance 3).rest := eq_append_of_sees hsee
  have hfirst : breakOn? sectionEnd (raw ++ sectionEnd) = some (raw, []) := by
    rw [breakOn?_append]
    · have hhere : breakOn? sectionEnd sectionEnd = some ([], []) := by decide
      rw [hhere, Option.map_some, List.append_nil]
    · intro x y hxy hy hpre
      have hno := hstop x y hxy hy
      rw [hclose, ← List.append_assoc] at hno
      have hsome := after?_eq_none_iff.1 (Option.not_isSome_iff_eq_none.1 (by simpa [Cursor.starts] using hno))
      refine hsome (hpre.trans ?_)
      rw [← List.append_assoc]
      exact List.prefix_append _ _
  refine ⟨raw, hfirst, rfl, ?_⟩
  rw [hstart, hrest, hclose, Part.written]
  simp only [List.append_assoc]
  rfl

/-- Where the text ends in the middle of a start tag, nothing is left of it. -/
theorem rest_of_cutOff {a a' : Attributes} (h : readAttributes a c = .ok (a', .cutOff, c')) : c'.rest = [] := by
  induction hlen : c.rest.length using Nat.strongRecOn generalizing a c with
  | ind len ih =>
    subst hlen
    have hcases := readAttributes_eq_ok.1 h
    split at hcases
    · rename_i hend
      exact hcases.2.2 ▸ List.isEmpty_iff.1 hend
    · split at hcases
      · cases hcases.2.2
      · split at hcases
        · cases hcases.2.1
        · obtain ⟨-, -, -, -, -, behind, -, b, -, -, -, hless, hrec⟩ := hcases
          exact ih _ hless hrec rfl

theorem rest_of_readStartTag_none {parent : Scope} {tagEnd : TagEnd} (h : readStartTag parent c = .ok (none, tagEnd, c')) :
    c'.rest = [] := by
  obtain ⟨name, c₁, a, -, -, hread, htag⟩ := readStartTag_eq_ok.1 h
  cases tagEnd with
  | cutOff => exact rest_of_cutOff hread
  | opened | empty =>
    obtain ⟨t, -, ht⟩ := htag
    cases ht

theorem exists_eq_append_of_reaches (h : c.Reaches c') : ∃ raw, c.rest = raw ++ c'.rest := by
  obtain ⟨raw, hraw⟩ := h.rest
  exact ⟨raw, hraw.symm⟩

end Readers

/-! ## Open elements -/

/-- An element that is open: its start tag as it is written and as it is read, and what was read of its content. -/
structure OpenPart where
  head : List Char
  tag : StartTag
  content : List Part

namespace OpenPart

def written (o : OpenPart) : List Char := o.head ++ writtenAll o.content

/-- The element, with one more part. -/
def add (o : OpenPart) (part : Part) : OpenPart := { o with content := o.content ++ [part] }

theorem written_add (o : OpenPart) (part : Part) : (o.add part).written = o.written ++ part.written := by
  rw [written, add, writtenAll_concat, written, List.append_assoc]

end OpenPart

/-- The text of the open elements, the innermost first. -/
def openText (os : List OpenPart) : List Char := os.reverse.flatMap OpenPart.written

theorem openText_cons (o : OpenPart) (os : List OpenPart) : openText (o :: os) = openText os ++ o.written := by
  simp [openText]

section Frames

variable {f : Frame} {o : OpenPart} {inText : Bool}

/-- What was read of an element is its content so far, in order. -/
structure Frame.Holds (f : Frame) (o : OpenPart) : Prop where
  start : f.start = o.tag
  head : IsStartTag o.head o.tag .opened
  valid : validAll o.content
  within : List.Forall₂ KeepsText (partsWithin o.content) (nodesWithin f.children.reverse)
  texts : keptTexts f.children.reverse = (runs o.content).filter isKept

/-- The last run can still grow: right behind a text it is that text, and otherwise it is empty. -/
def Frame.Ends (f : Frame) (o : OpenPart) (inText : Bool) : Prop :=
  ∃ before last, runs o.content = before ++ [last] ∧
    if inText then ∃ rest, f.children = .text last :: rest ∧ keptTexts rest.reverse = before.filter isKept
    else last = []

theorem Frame.ends_of_runs {before : List (List Char)} (h : runs o.content = before ++ [[]]) : f.Ends o false :=
  ⟨before, [], h, rfl⟩

theorem filter_isKept_concat (texts : List (List Char)) : (texts ++ [[]]).filter isKept = texts.filter isKept := by
  rw [List.filter_append]
  exact List.append_nil _

/-- A comment or an instruction ends the last run. -/
theorem Frame.Holds.addAside (h : f.Holds o) {raw : List Char} (hraw : IsAside raw) :
    f.Holds (o.add (.aside raw)) ∧ f.Ends (o.add (.aside raw)) false := by
  have hruns : runs (o.add (.aside raw)).content = runs o.content ++ [[]] := runs_concat rfl o.content
  refine ⟨⟨h.start, h.head, validAll_concat.2 ⟨h.valid, hraw⟩, ?_, ?_⟩, Frame.ends_of_runs hruns⟩
  · rw [OpenPart.add, partsWithin_concat]
    exact (List.append_nil _).symm ▸ h.within
  · rw [hruns, filter_isKept_concat, h.texts]

/-- So does an element. -/
theorem Frame.Holds.addNode (h : f.Holds o) {e : Element} (hvalid : part.Valid) (htext : part.text? = none)
    (hwithin : List.Forall₂ KeepsText part.within e.toNode.within) :
    (f.addNode e.toNode).Holds (o.add part) ∧ (f.addNode e.toNode).Ends (o.add part) false := by
  have hruns : runs (o.add part).content = runs o.content ++ [[]] := runs_concat htext o.content
  refine ⟨⟨h.start, h.head, validAll_concat.2 ⟨h.valid, hvalid⟩, ?_, ?_⟩, Frame.ends_of_runs hruns⟩
  · rw [OpenPart.add, partsWithin_concat, Frame.addNode, List.reverse_cons, nodesWithin_append]
    have hnode : nodesWithin [e.toNode] = e.toNode.within := List.append_nil _
    rw [hnode]
    exact List.rel_append h.within hwithin
  · rw [hruns, filter_isKept_concat, Frame.addNode, List.reverse_cons, keptTexts_append, h.texts]
    exact List.append_nil _

theorem Frame.addText_of_text {rest : List Node} (h : f.children = .text last :: rest) (s : List Char) :
    (f.addText true s).children = .text (last ++ s) :: rest := by
  obtain ⟨start, children⟩ := f
  subst h
  rfl

theorem Frame.addText_start (f : Frame) (merge : Bool) (s : List Char) : (f.addText merge s).start = f.start := by
  unfold Frame.addText
  split <;> rfl

theorem keptTexts_text (s : List Char) : keptTexts [.text s] = [s].filter isKept := rfl

/-- A text continues the last run. -/
theorem Frame.Holds.addText (h : f.Holds o) (hends : f.Ends o inText) (hvalid : part.Valid)
    (htext : part.text? = some s) :
    (f.addText inText s).Holds (o.add part) ∧ (f.addText inText s).Ends (o.add part) true := by
  obtain ⟨before, last, hruns, hlast⟩ := hends
  -- what is in front of the last text, and that text
  obtain ⟨rest, hchildren, hrest⟩ : ∃ rest, (f.addText inText s).children = .text (last ++ s) :: rest ∧
      nodesWithin rest.reverse = nodesWithin f.children.reverse ∧ keptTexts rest.reverse = before.filter isKept := by
    cases inText with
    | true =>
      obtain ⟨rest, hf, hrest⟩ := hlast
      refine ⟨rest, Frame.addText_of_text hf s, ?_, hrest⟩
      rw [hf, List.reverse_cons, nodesWithin_append]
      exact (List.append_nil _).symm
    | false =>
      obtain rfl : last = [] := hlast
      refine ⟨f.children, rfl, rfl, ?_⟩
      rw [h.texts, hruns, filter_isKept_concat]
  have hadd : runs (o.add part).content = before ++ [last ++ s] := runs_concat_text htext hruns
  refine ⟨⟨(f.addText_start inText s).trans h.start, h.head, validAll_concat.2 ⟨h.valid, hvalid⟩, ?_, ?_⟩, ?_⟩
  · rw [OpenPart.add, partsWithin_concat, Part.within_of_text htext, hchildren, List.reverse_cons,
      nodesWithin_append, hrest.1]
    exact (List.append_nil _).symm ▸ (List.append_nil _).symm ▸ h.within
  · rw [hchildren, List.reverse_cons, keptTexts_append, hrest.2, keptTexts_text, hadd, List.filter_append]
  · exact ⟨before, last ++ s, hadd, rest, hchildren, hrest.2⟩

/-- The end tag completes the element. -/
theorem Frame.Holds.close (h : f.Holds o) {tail : List Char} (htail : IsEndTag tail o.tag.name) :
    (Part.element o.head o.tag o.content tail).Valid ∧
      List.Forall₂ KeepsText (Part.element o.head o.tag o.content tail).within f.close.toNode.within := by
  refine ⟨⟨.inr ⟨h.head, htail⟩, h.valid⟩, ?_⟩
  rw [Part.within, Element.toNode, Frame.close, Node.within, nodesWithin_filter]
  refine .cons ⟨by rw [h.start], ?_⟩ h.within
  rw [ownText_filter, h.texts]

end Frames

/-! ## Progress -/

namespace Progress

variable {p p' : Progress} {f : Frame} {outer : List Frame} {os : List OpenPart} {c : Cursor}

/-- The text up to the cursor is what was read: some open elements and what they hold so far, or the root. -/
inductive Follows (s : List Char) (p : Progress) : Prop
  | inside (f : Frame) (outer : List Frame) (o : OpenPart) (os : List OpenPart) (opened : p.opened = f :: outer)
    (root : p.root = none) (text : s = openText (o :: os) ++ p.cursor.rest) (top : f.Holds o)
    (ends : f.Ends o p.inText) (below : List.Forall₂ Frame.Holds outer os)
  | behind (part : Part) (e : Element) (opened : p.opened = []) (root : p.root = some e)
    (text : s = part.written ++ p.cursor.rest) (valid : part.Valid)
    (within : List.Forall₂ KeepsText part.within e.toNode.within)

theorem follows_finish {e : Element} (hroot : p.root = none) (hbelow : List.Forall₂ Frame.Holds outer os)
    (hs : s = openText os ++ (part.written ++ c.rest)) (hvalid : part.Valid) (htext : part.text? = none)
    (hwithin : List.Forall₂ KeepsText part.within e.toNode.within) : Follows s (p.finish e outer c) := by
  cases hbelow with
  | nil => exact .behind part e rfl rfl hs hvalid hwithin
  | @cons f o outer os hf hbelow =>
    obtain ⟨htop, hends⟩ := hf.addNode hvalid htext hwithin
    refine .inside (f.addNode e.toNode) outer (o.add part) os rfl hroot ?_ htop hends hbelow
    rw [hs, openText_cons, openText_cons, OpenPart.written_add]
    simp only [List.append_assoc]
    rfl

theorem follows_enter {tag : StartTag} {tagEnd : TagEnd} (hroot : p.root = none)
    (hbelow : List.Forall₂ Frame.Holds p.opened os) (hs : s = openText os ++ p.cursor.rest)
    (hsees : p.cursor.sees "<" = true) (hread : readStartTag p.scope p.cursor = .ok (some tag, tagEnd, c)) :
    Follows s (p.enter tag tagEnd c) := by
  obtain ⟨head, hhead⟩ := exists_eq_append_of_reaches ((yields_readStartTag p.scope p.cursor).of_eq_ok hread).1
  have hstart : IsStartTag head tag tagEnd := ⟨p.scope, p.cursor, c, hsees, hread, hhead⟩
  rw [hhead] at hs
  obtain ⟨-, -, -, -, -, -, hend, -⟩ := readStartTag_some_eq_ok.1 hread
  cases tagEnd with
  | cutOff => exact absurd rfl hend
  | empty =>
    have hvalid : (Part.element head tag [] []).Valid := ⟨.inl ⟨hstart, rfl, rfl⟩, trivial⟩
    refine follows_finish hroot hbelow ?_ hvalid rfl (.cons ⟨rfl, rfl⟩ .nil)
    rw [hs, Part.written, writtenAll, List.append_nil, List.append_nil]
  | opened =>
    refine .inside ⟨tag, []⟩ p.opened ⟨head, tag, []⟩ os rfl hroot ?_ ⟨rfl, hstart, trivial, .nil, rfl⟩
      (Frame.ends_of_runs (show runs [] = [] ++ [[]] from rfl)) hbelow
    rw [openText_cons, OpenPart.written, writtenAll, List.append_nil, List.append_assoc]
    exact hs

/-- A start tag is read, or the text ends in the middle of it. -/
theorem follows_start (hroot : p.root = none) (hbelow : List.Forall₂ Frame.Holds p.opened os)
    (hs : s = openText os ++ p.cursor.rest) (hsees : p.cursor.sees "<" = true) (hread : p.start = .ok p') :
    Follows s p' ∨ p'.cursor.rest = [] ∧ p'.opened = p.opened ∧ p'.root = none := by
  obtain ⟨tag, tagEnd, c, htag, rfl⟩ := start_eq_ok.1 hread
  cases tag with
  | some tag => exact .inl (follows_enter hroot hbelow hs hsees htag)
  | none => exact .inr ⟨rest_of_readStartTag_none htag, rfl, hroot⟩

theorem follows_step (h : Follows s p) (hopened : p.opened = f :: outer) (hread : p.step f outer = .ok p') :
    Follows s p' ∨ p'.cursor.rest = [] ∧ p'.opened = p.opened ∧ p'.root = none := by
  cases h with
  | behind part e hnone => rw [hnone] at hopened; cases hopened
  | inside g outer' o os hopened' hroot htext htop hends hbelow =>
    obtain ⟨rfl, rfl⟩ := List.cons.inj (hopened'.symm.trans hopened)
    have hprogress : ∀ raw c, p.cursor.rest = raw ++ Cursor.rest c → s = openText os ++ (o.written ++ (raw ++ c.rest)) := by
      intro raw c hraw
      rw [htext, hraw, openText_cons, List.append_assoc]
    have haside : ∀ c, (p.cursor.sees "<!--" = true ∧ readComment p.cursor = .ok c ∨
        p.cursor.sees "<?" = true ∧ readInstruction p.cursor = .ok c) → p.cursor.Reaches c →
          Follows s { p with cursor := c, inText := false } := by
      intro c hc hreach
      obtain ⟨raw, hraw⟩ := exists_eq_append_of_reaches hreach
      obtain ⟨htop, hends⟩ := htop.addAside ⟨p.cursor, c, hc, hraw⟩
      refine .inside g outer' _ os hopened hroot ?_ htop hends hbelow
      rw [hprogress raw c hraw, openText_cons, OpenPart.written_add]
      simp only [List.append_assoc]
      rfl
    have hdata : ∀ (part : Part) t c, part.Valid → part.text? = some t → p.cursor.rest = part.written ++ Cursor.rest c →
        Follows s (p.addText t g outer' c) := by
      intro part t c hvalid ht hraw
      obtain ⟨htop, hends⟩ := htop.addText hends hvalid ht
      refine .inside (g.addText p.inText t) outer' _ os rfl hroot ?_ htop hends hbelow
      rw [hprogress part.written c hraw, openText_cons, OpenPart.written_add]
      simp only [List.append_assoc]
      rfl
    unfold Progress.step at hread
    dsimp only at hread
    split at hread
    · split at hread
      · rename_i hsees
        obtain ⟨c, hc, rfl⟩ := map_eq_ok.1 hread
        exact .inl (haside c (.inl ⟨hsees, hc⟩) ((yields_readComment p.cursor).of_eq_ok hc))
      · split at hread
        · rename_i hsees
          obtain ⟨⟨t, c⟩, hc, rfl⟩ := map_eq_ok.1 hread
          obtain ⟨raw, hvalid, ht, hraw⟩ := exists_plain_of_readSection hsees hc
          exact .inl (hdata (.plain raw) t c hvalid (congrArg some ht) hraw)
        · cases hread
    · rename_i rest hrest
      obtain ⟨c, hc, rfl⟩ := map_eq_ok.1 hread
      have hsees : p.cursor.sees "<?" = true := by rw [Cursor.sees, hrest]; rfl
      exact .inl (haside c (.inr ⟨hsees, hc⟩) ((yields_readInstruction p.cursor).of_eq_ok hc))
    · rename_i rest hrest
      obtain ⟨c, hc, rfl⟩ := map_eq_ok.1 hread
      have hsees : p.cursor.sees "</" = true := by rw [Cursor.sees, hrest]; rfl
      obtain ⟨tail, htail⟩ := exists_eq_append_of_reaches ((yields_readEndTag g.start.name p.cursor).of_eq_ok hc)
      obtain ⟨hvalid, hwithin⟩ := htop.close ⟨p.cursor, c, hsees, htop.start ▸ hc, htail⟩
      refine .inl (follows_finish hroot hbelow ?_ hvalid rfl hwithin)
      rw [hprogress tail c htail, Part.written, OpenPart.written]
      simp only [List.append_assoc]
    · cases hread
    · rename_i rest _ _ _ _ hrest
      have hsees : p.cursor.sees "<" = true := by rw [Cursor.sees, hrest]; rfl
      exact follows_start hroot (by rw [hopened]; exact .cons htop hbelow) htext hsees hread
    · obtain ⟨⟨t, c⟩, hc, rfl⟩ := map_eq_ok.1 hread
      obtain ⟨raw, hvalid, hraw⟩ := exists_data_of_readText hc
      exact .inl (hdata (.data raw t) t c hvalid rfl hraw)

/-- A run that comes to the end of the root has followed the text. -/
theorem follows_run (h : Follows s p) (hread : p.run = .ok p') (hopened : p'.opened = []) : Follows s p' := by
  fun_induction Progress.run p with
  | case1 p hp =>
    cases hread
    exact h
  | case2 p f outer hp hend =>
    cases hread
    exact h
  | case3 => cases hread
  | case4 p f outer hp hend next hstep hless ih =>
    rcases follows_step h hp hstep with hnext | ⟨hrest, hkept, -⟩
    · exact ih hnext hread
    · -- the text ends inside of a start tag, so the elements stay open
      rw [Progress.run, hkept, hp] at hread
      simp only [hrest, List.isEmpty_nil, if_true] at hread
      cases hread
      rw [hkept, hp] at hopened
      cases hopened
  | case5 => cases hread

end Progress

/-! ## Documents -/

/-- **The text of an element is its character data without the blank runs.** What is read of a text comes from
a root element that is written in it, with the same elements in the same order. The text of each of them is
the character data directly in it, without the runs that are blank; it is all of it exactly if no run is blank. -/
theorem ownText_of_parse {root : Element} (h : parse s = .ok root) :
    ∃ c part behind, readProlog (Cursor.start s) = .ok c ∧ c.rest = Part.written part ++ behind ∧ part.Valid ∧
      List.Forall₂ (fun x e => { Element.tag e with prefixes := x.1.tag.prefixes } = x.1.tag ∧
        ownText e.children = ((runs x.2).filter isKept).flatten ∧
        (ownText e.children = characters x.2 ↔ ∀ run ∈ runs x.2, run ≠ [] → isKept run = true))
        part.within root.toNode.within := by
  have hiff : ∀ {content children}, ownText children = ((runs content).filter isKept).flatten →
      (ownText children = characters content ↔ ∀ run ∈ runs content, run ≠ [] → isKept run = true) := by
    intro content children htext
    rw [htext, ← flatten_runs, flatten_filter_isKept_iff]
  obtain ⟨e, prefixes, hread, rfl⟩ := parse_eq_ok.1 h
  obtain ⟨c, p, behind, hprolog, hrun, -, -, hopened, hroot, rfl⟩ := readRoot_eq_ok.1 hread
  have hfollows : Progress.Follows c.rest p := by
    split at hrun
    · rename_i hhead
      obtain ⟨first, hfirst, hrun⟩ := hrun
      have hsees : c.sees "<" = true := by
        obtain ⟨t, ht⟩ := List.head?_eq_some_iff.1 hhead
        rw [Cursor.sees, ht]
        rfl
      have hnothing : c.rest = openText [] ++ c.rest := rfl
      rcases Progress.follows_start rfl .nil hnothing hsees hfirst with hnext | ⟨-, hkept, hnone⟩
      · exact Progress.follows_run hnext hrun hopened
      · rw [Progress.run, hkept] at hrun
        cases hrun
        rw [hnone] at hroot
        cases hroot
    · subst hrun
      cases hroot
  cases hfollows with
  | inside f outer o os hopen => rw [hopened] at hopen; cases hopen
  | behind part e' _ hroot' htext hvalid hwithin =>
    obtain rfl := Option.some.inj (hroot'.symm.trans hroot)
    refine ⟨c, part, p.cursor.rest, hprolog, htext, hvalid, ?_⟩
    obtain ⟨x, xs, hx, hxs, hpart⟩ := List.forall₂_cons_right_iff.1 hwithin
    rw [hpart]
    exact .cons ⟨by rw [← hx.tag], hx.text, hiff hx.text⟩
      (hxs.imp fun x e hx => ⟨by rw [← hx.tag], hx.text, hiff hx.text⟩)

/-- Blanks beside a comment, a section, and a no-break space alone in a token. -/
theorem ownText_of_parse_blank :
    let s := "<math><mi>a<!--c--> </mi><mtext>&#xA0;</mtext><![CDATA[ b]]></math>".toList
    (parse s).map (fun e => e.toNode.within.map fun e => (e.tag.name, ownText e.children)) =
        .ok [("math", " b".toList), ("mi", "a".toList), ("mtext", [])] ∧
      ∃ root, parse s = .ok root ∧
        ∃ c part behind, readProlog (Cursor.start s) = .ok c ∧ c.rest = Part.written part ++ behind ∧ part.Valid ∧
          List.Forall₂ (fun x e => { Element.tag e with prefixes := x.1.tag.prefixes } = x.1.tag ∧
            ownText e.children = ((runs x.2).filter isKept).flatten ∧
            (ownText e.children = characters x.2 ↔ ∀ run ∈ runs x.2, run ≠ [] → isKept run = true))
            part.within root.toNode.within := by
  intro s
  have hread : (parse s).map (fun e => e.toNode.within.map fun e => (e.tag.name, ownText e.children)) =
      .ok [("math", " b".toList), ("mi", "a".toList), ("mtext", [])] := by decide +kernel
  obtain ⟨root, hroot, -⟩ := map_eq_ok.1 hread
  exact ⟨hread, root, hroot, ownText_of_parse hroot⟩

/-- A blank that stands alone in a token is lost. -/
theorem ownText_of_parse_dropped : ∃ part root, Part.Valid part ∧ part.written = "<mtext> </mtext>".toList ∧
    parse "<mtext> </mtext>".toList = .ok root ∧
    part.within.map (fun x => (x.1.tag.name, characters x.2)) = [("mtext", " ".toList)] ∧
    root.toNode.within.map (fun e => (e.tag.name, ownText e.children)) = [("mtext", [])] := by
  have hread : (parse "<mtext> </mtext>".toList).map
      (fun e => e.toNode.within.map fun e => (e.tag.name, ownText e.children)) = .ok [("mtext", [])] := by decide +kernel
  obtain ⟨root, hroot, htexts⟩ := map_eq_ok.1 hread
  have htag : (readStartTag [] (Cursor.start "<mtext>".toList)).map
      (fun r => (r.1.map fun t => (t.name, t.tag.name), r.2.1, r.2.2.rest)) =
        .ok (some (⟨[], "mtext".toList⟩, "mtext"), .opened, []) := by decide +kernel
  obtain ⟨⟨t, tagEnd, c⟩, hstart, heq⟩ := map_eq_ok.1 htag
  simp only [Prod.mk.injEq, Option.map_eq_some_iff] at heq
  obtain ⟨⟨tag, rfl, hname, hlocal⟩, rfl, hrest⟩ := heq
  have hend : (readEndTag tag.name (Cursor.start "</mtext>".toList)).map (fun c => c.rest) = .ok [] := by
    rw [hname]
    decide +kernel
  obtain ⟨c', hend, hrest'⟩ := map_eq_ok.1 hend
  have hvalid : (Part.element "<mtext>".toList tag [.data [' '] [' ']] "</mtext>".toList).Valid :=
    ⟨.inr ⟨⟨[], _, c, rfl, hstart, by rw [hrest]; rfl⟩, ⟨_, c', rfl, hend, by rw [hrest']; rfl⟩⟩,
      ⟨by decide, ⟨1, 1⟩, rfl⟩, trivial⟩
  refine ⟨_, root, hvalid, rfl, hroot, ?_, htexts⟩
  rw [Part.within, List.map_cons, hlocal]
  rfl

end MathMarkup.Xml
