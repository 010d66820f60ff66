import MathMarkup.Proofs.Xml.Readers
import MathMarkup.Proofs.Xml.Tags

/-!
# Content is read as it is written

What the reader of content does where a start tag, an end tag or escaped text stands in front of anything else, and
what becomes of a document that starts with its root (`parse_of_run`).
-/

namespace MathMarkup.Xml

open Text

variable {p : Progress} {f : Frame} {outer : List Frame} {c : Cursor} {s t : List Char} {x : Char}

/-! ## Parts of the content -/

/-- One step that gets on is part of the run. -/
theorem run_of_step {next : Progress} (hopened : p.opened = f :: outer) (hmore : p.cursor.rest ≠ [])
    (hstep : p.step f outer = .ok next) (hless : next.cursor.rest.length < p.cursor.rest.length) :
    p.run = next.run := by
  rw [Progress.run, hopened]
  simp [hmore, hstep, hless]

theorem cursor_finish (p : Progress) (e : Element) (outer : List Frame) (c : Cursor) :
    (p.finish e outer c).cursor = c := by
  cases outer <;> rfl

theorem cursor_enter (p : Progress) (tag : StartTag) (tagEnd : TagEnd) (c : Cursor) :
    (p.enter tag tagEnd c).cursor = c := by
  rw [Progress.enter]
  split
  · exact cursor_finish _ _ _ _
  · rfl

/-- Where a name follows the angle bracket, a start tag is read. -/
theorem step_start (f : Frame) (outer : List Frame) (hx : isNameStart x = true) (h : p.cursor.rest = '<' :: x :: t) :
    p.step f outer = p.start := by
  have hbang : x ≠ '!' := ne_of_class hx (by decide)
  have hquestion : x ≠ '?' := ne_of_class hx (by decide)
  have hslash : x ≠ '/' := ne_of_class hx (by decide)
  rw [Progress.step]
  simp only [h]
  split
  · rename_i heq
    cases heq
    exact absurd rfl hbang
  · rename_i heq
    cases heq
    exact absurd rfl hquestion
  · rename_i heq
    cases heq
    exact absurd rfl hslash
  · rename_i heq
    cases heq
  · rfl
  · rename_i hnot
    exact absurd rfl (hnot _)

/-- A start tag opens an element, or adds one that is complete. -/
theorem run_of_startTag {tag : StartTag} {tagEnd : TagEnd} (hx : isNameStart x = true) (hopened : p.opened = f :: outer)
    (h : p.cursor.rest = '<' :: x :: t) (hread : readStartTag p.scope p.cursor = .ok (some tag, tagEnd, c))
    (hless : c.rest.length < p.cursor.rest.length) : p.run = (p.enter tag tagEnd c).run := by
  have hstep := step_start f outer hx h
  rw [Progress.start_eq_ok.2 ⟨some tag, tagEnd, c, hread, rfl⟩] at hstep
  exact run_of_step hopened (by simp [h]) hstep (by rwa [cursor_enter])

/-- The end tag of the innermost element closes it. -/
theorem run_of_endTag {name : List Char} (hname : IsLocalName name) (hopened : p.opened = f :: outer)
    (hstart : f.start.name = ⟨[], name⟩) (h : p.cursor.rest = '<' :: '/' :: (name ++ '>' :: t)) :
    ∃ c, c.rest = t ∧ p.run = (p.finish f.close outer c).run := by
  obtain ⟨c1, hqname, hr1⟩ := qname_of_isLocalName hname (by decide) (rest_advance (s := ['<', '/']) h)
  obtain ⟨c2, hexpect, hr2⟩ := expect_of_cons (rest_skipSpace_of_cons hr1 (by decide))
  have hend : readEndTag f.start.name p.cursor = .ok c2 := by
    rw [hstart]
    exact readEndTag_eq_ok.2 ⟨c1, hqname, hexpect⟩
  have hstep : p.step f outer = .ok (p.finish f.close outer c2) := by
    rw [Progress.step]
    simp [h, hend, Except.map]
  refine ⟨c2, hr2, run_of_step hopened (by simp [h]) hstep ?_⟩
  rw [cursor_finish, hr2, h]
  simp only [List.length_cons, List.length_append]
  omega

/-- Text is added to the innermost element. -/
theorem run_of_text (hs : IsAdmitted s) (hne : s ≠ []) (hopened : p.opened = f :: outer)
    (h : p.cursor.rest = escapeText s ++ '<' :: t) : ∃ c text, c.rest = '<' :: t ∧
      characterData p.cursor.position (escapeText s) = .ok text ∧ p.run = (p.addText text f outer c).run := by
  have hescaped := fun c (hc : c ∈ escapeText s) => mem_escapeText hs hc
  obtain ⟨c, hread, hrest⟩ := admittedFrom_append (fun s => s.head? = some '<') (t := t)
    p.cursor.position (fun c hc => (hescaped c hc).1) (by decide : Cursor.isAdmitted '<' = true)
    (fun c hc t => by simp [(hescaped c hc).2]) (by simp)
  rw [← h] at hread
  have hclose : contains "]]>".toList (escapeText s) = false := by
    rw [Bool.eq_false_iff]
    intro hfound
    have hmem := (contains_iff.1 hfound).subset (show '>' ∈ "]]>".toList by decide)
    exact (hescaped _ hmem).2.2 rfl
  obtain ⟨text, htext⟩ := exists_characterData p.cursor.position s
  have hreadText : readText p.cursor = .ok (text, c) := readText_eq_ok.2 ⟨escapeText s, hread, hclose, htext⟩
  obtain ⟨x, w, hescape⟩ : ∃ x w, escapeText s = x :: w := by
    cases s with
    | nil => exact absurd rfl hne
    | cons d s =>
      rw [escapeText, List.flatMap_cons]
      unfold escapeTextChar
      split <;> exact ⟨_, _, rfl⟩
  have hx : x ≠ '<' := (hescaped x (by rw [hescape]; exact List.mem_cons_self)).2.1
  have hrest' := h
  rw [hescape, List.cons_append] at hrest'
  have hstep : p.step f outer = .ok (p.addText text f outer c) := by
    rw [Progress.step]
    simp only [hrest']
    split
    · rename_i heq
      exact absurd (List.cons.inj heq).1 hx
    · rename_i heq
      exact absurd (List.cons.inj heq).1 hx
    · rename_i heq
      exact absurd (List.cons.inj heq).1 hx
    · rename_i heq
      exact absurd (List.cons.inj heq).1 hx
    · rename_i heq
      exact absurd (List.cons.inj heq).1 hx
    · rw [hreadText]
      rfl
  refine ⟨c, text, hrest, htext, run_of_step hopened (by simp [hrest']) hstep ?_⟩
  simp only [Progress.addText, hrest, hrest', List.length_cons, List.length_append]
  omega

/-! ## Before and behind the root -/

theorem sees_eq_false (word : String) {y : Char} {v : List Char} (h : c.rest = '<' :: x :: t)
    (hword : word.toList = '<' :: y :: v) (hne : x ≠ y) : c.sees word = false := by
  rw [Cursor.sees, h, hword, Option.isSome_eq_false_iff, Option.isNone_iff_eq_none, after?_eq_none_iff]
  rintro ⟨r, hr⟩
  simp only [List.cons_append, List.cons.injEq, true_and] at hr
  exact hne hr.1.symm

theorem skipMisc_of_cons (hx : isNameStart x = true) (h : c.rest = '<' :: x :: t) :
    ∃ c', skipMisc c = .ok c' ∧ c'.rest = c.rest := by
  have hhere := rest_skipSpace_of_cons h (by decide)
  have hcomment := sees_eq_false "<!--" hhere rfl (ne_of_class hx (by decide))
  have hinstruction := sees_eq_false "<?" hhere rfl (ne_of_class hx (by decide))
  refine ⟨c.skipSpace, ?_, hhere.trans h.symm⟩
  rw [skipMisc]
  simp [hcomment, hinstruction]

theorem skipMisc_of_nil (h : c.rest = []) : ∃ c', skipMisc c = .ok c' ∧ c'.rest = [] := by
  have hhere : c.skipSpace.rest = [] := by rw [rest_skipSpace, h]; rfl
  refine ⟨c.skipSpace, ?_, hhere⟩
  rw [skipMisc]
  simp [Cursor.sees, hhere, after?]

/-- Nothing stands before a root that starts at once. -/
theorem readProlog_of_cons (hx : isNameStart x = true) :
    ∃ c, readProlog (Cursor.start ('<' :: x :: t)) = .ok c ∧ c.rest = '<' :: x :: t := by
  have hstart : (Cursor.start ('<' :: x :: t)).rest = '<' :: x :: t := rfl
  have hmark : (Cursor.start ('<' :: x :: t)).sees "\ufeff" = false := by
    simp [Cursor.sees, hstart, after?]
  have hdeclaration := sees_eq_false "<?xml " hstart rfl (ne_of_class hx (by decide))
  obtain ⟨c, hmisc, hrest⟩ := skipMisc_of_cons hx hstart
  have hdoctype := sees_eq_false "<!DOCTYPE" hrest rfl (ne_of_class hx (by decide))
  refine ⟨c, ?_, hrest⟩
  simp [readProlog, hmark, hdeclaration, hmisc, hdoctype, bind, Except.bind, pure, Except.pure]

/-- A document is read when its root ends with it. -/
theorem parse_of_run {first q : Progress} {e : Element} (hprolog : readProlog (Cursor.start s) = .ok c)
    (hhead : c.rest.head? = some '<') (hfirst : Progress.start ⟨c, [], false, [], none⟩ = .ok first)
    (hrun : first.run = .ok q) (hend : q.cursor.rest = []) (hopened : q.opened = []) (hroot : q.root = some e) :
    parse s = .ok { e with tag := { e.tag with prefixes := q.prefixes } } := by
  obtain ⟨behind, hmisc, hbehind⟩ := skipMisc_of_nil hend
  refine parse_eq_ok.2 ⟨e, q.prefixes,
    readRoot_eq_ok.2 ⟨c, q, behind, hprolog, ?_, hmisc, hbehind, hopened, hroot, rfl⟩, rfl⟩
  rw [if_pos hhead]
  exact ⟨first, hfirst, hrun⟩

end MathMarkup.Xml
