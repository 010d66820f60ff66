import MathMarkup.Proofs.Xml.Content
import MathMarkup.Proofs.Xml.Heads

/-!
# Trees are read as they are written

`Node.Legal` holds of trees that can be read at all, and `Node.Stable` of those that are read as they are written: what
the reader replaces does not occur in them, no two texts touch, and each name is resolved to what it was. Then a tree
is read back up to the lines of its elements, node by node (`rereads`).

Main statement: `exists_parse_toXml`.
-/

namespace MathMarkup.Xml

open Text

variable {prefixes : List (String × String)} {inherited : Option String} {p : Progress} {f : Frame}
  {outer : List Frame} {c : Cursor} {t : List Char} {n m : Node} {ns ms : List Node} {e : Element}

/-! ## Trees -/

mutual

/-- The tree without the lines of its elements. -/
def Node.unlined : Node → Node
  | .element u ns => .element { u with line := 0 } (unlinedAll ns)
  | .text s => .text s

def unlinedAll : List Node → List Node
  | [] => []
  | n :: rest => n.unlined :: unlinedAll rest

end

/-- The tree without the lines of its elements. -/
def Element.unlined (e : Element) : Element := ⟨{ e.tag with line := 0 }, unlinedAll e.children⟩

mutual

/-- A tree that can be read inside of another one: all prefixes are declared on the root. -/
def Node.Legal : Node → Prop
  | .element u ns => u.Legal ∧ u.prefixes = [] ∧ legalAll ns
  | .text s => IsAdmitted s ∧ s.all isBlank = false

def legalAll : List Node → Prop
  | [] => True
  | n :: rest => n.Legal ∧ legalAll rest

end

/-- No text stands right behind another one. -/
def Apart (ns : List Node) : Prop := ns.IsChain fun n m => n.isElement = true ∨ m.isElement = true

instance : DecidablePred Apart := fun ns => inferInstanceAs (Decidable (ns.IsChain _))

mutual

/-- A tree that is read as it is written, in the namespace `inherited` and with these prefixes on the root. -/
def Node.Stable (prefixes : List (String × String)) (inherited : Option String) : Node → Prop
  | .element u ns => u.Stable prefixes inherited ∧ Apart ns ∧ stableAll prefixes u.space ns
  | .text s => '\r' ∉ s

def stableAll (prefixes : List (String × String)) (inherited : Option String) : List Node → Prop
  | [] => True
  | n :: rest => n.Stable prefixes inherited ∧ stableAll prefixes inherited rest

end

mutual

/-- Whether a tree is stable can be computed. -/
def Node.decStable (prefixes : List (String × String)) :
    ∀ (inherited : Option String) (n : Node), Decidable (n.Stable prefixes inherited)
  | inherited, .element u ns =>
    @instDecidableAnd _ _ (inferInstanceAs (Decidable (u.Stable prefixes inherited)))
      (@instDecidableAnd _ _ (inferInstanceAs (Decidable (Apart ns))) (decStableAll prefixes u.space ns))
  | _, .text s => inferInstanceAs (Decidable ('\r' ∉ s))

def decStableAll (prefixes : List (String × String)) :
    ∀ (inherited : Option String) (ns : List Node), Decidable (stableAll prefixes inherited ns)
  | _, [] => isTrue trivial
  | inherited, n :: rest =>
    @instDecidableAnd _ _ (Node.decStable prefixes inherited n) (decStableAll prefixes inherited rest)

end

/-- An element that can be read as a document. -/
structure Element.Legal (e : Element) : Prop where
  tag : e.tag.Legal
  prefixes : LegalPrefixes e.tag.prefixes
  children : legalAll e.children

/-- An element that is read as it is written. -/
structure Element.Stable (e : Element) : Prop where
  tag : e.tag.Stable e.tag.prefixes none
  prefixes : StablePrefixes e.tag.prefixes
  apart : Apart e.children
  children : stableAll e.tag.prefixes e.tag.space e.children

instance (e : Element) : Decidable e.Stable :=
  have := decStableAll e.tag.prefixes e.tag.space e.children
  decidable_of_iff (e.tag.Stable e.tag.prefixes none ∧ StablePrefixes e.tag.prefixes ∧ Apart e.children ∧
      stableAll e.tag.prefixes e.tag.space e.children)
    ⟨fun h => ⟨h.1, h.2.1, h.2.2.1, h.2.2.2⟩, fun h => ⟨h.tag, h.prefixes, h.apart, h.children⟩⟩

theorem Node.isBlankText_unlined (n : Node) : n.unlined.isBlankText = n.isBlankText := by
  cases n <;> rfl

/-- Where no text is blank, none is dropped. -/
theorem filter_of_unlinedAll (hns : legalAll ns) (h : unlinedAll ms = unlinedAll ns) :
    ms.filter (fun n => !n.isBlankText) = ms := by
  induction ms generalizing ns with
  | nil => rfl
  | cons m ms ih =>
    cases ns with
    | nil => cases h
    | cons n ns =>
      obtain ⟨hhead, htail⟩ := List.cons.inj h
      have hblank : m.isBlankText = false := by
        rw [← m.isBlankText_unlined, hhead, n.isBlankText_unlined]
        cases n with
        | element u children => rfl
        | text s => exact hns.1.2
      rw [List.filter_cons_of_pos (by rw [hblank]; rfl), ih hns.2 htail]

/-! ## Content -/

/-- The reader is in this element, which was written in the namespace `inherited`. -/
structure Progress.Inside (prefixes : List (String × String)) (inherited : Option String) (f : Frame)
    (outer : List Frame) (p : Progress) : Prop where
  opened : p.opened = f :: outer
  scope : f.start.scope = writtenScope prefixes inherited
  known : ∀ d ∈ p.prefixes, d ∈ prefixes

/-- In the content of an element the node is read back, where a text is not read right behind another one. -/
def Node.Rereads (prefixes : List (String × String)) (inherited : Option String) (n : Node) : Prop :=
  ∀ (p : Progress) (f : Frame) (outer : List Frame) (t : List Char), p.Inside prefixes inherited f outer →
    p.cursor.rest = n.write inherited ++ t → (n.isElement = false → p.inText = false ∧ ∃ w, t = '<' :: w) →
    ∃ (q : Progress) (m : Node), p.run = q.run ∧ q.Inside prefixes inherited (f.addNode m) outer ∧ q.cursor.rest = t ∧
      q.inText = !n.isElement ∧ m.unlined = n.unlined

/-- In front of the end of an element the nodes are read back. -/
def RereadsAll (prefixes : List (String × String)) (inherited : Option String) (ns : List Node) : Prop :=
  ∀ (p : Progress) (f : Frame) (outer : List Frame) (t : List Char), p.Inside prefixes inherited f outer →
    p.cursor.rest = Node.writeAll inherited ns ++ '<' :: t →
    (∀ n ∈ ns.head?, n.isElement = false → p.inText = false) →
    ∃ (q : Progress) (ms : List Node), p.run = q.run ∧
      q.Inside prefixes inherited ⟨f.start, ms.reverse ++ f.children⟩ outer ∧ q.cursor.rest = '<' :: t ∧
      unlinedAll ms = unlinedAll ns

theorem rereads_text {s : List Char} (hlegal : Node.Legal (.text s)) (hstable : '\r' ∉ s) :
    Node.Rereads prefixes inherited (.text s) := by
  intro p f outer t hp h hapart
  obtain ⟨htext, w, rfl⟩ := hapart rfl
  have hne : s ≠ [] := by
    rintro rfl
    exact absurd hlegal.2 (by decide)
  obtain ⟨c, text, hc, hdata, hrun⟩ := run_of_text hlegal.1 hne hp.opened h
  rw [characterData_escapeText _ hstable, Except.ok.injEq] at hdata
  subst hdata
  refine ⟨_, .text s, hrun, ⟨?_, hp.scope, hp.known⟩, hc, rfl, rfl⟩
  rw [Progress.addText, htext]
  rfl

/-- The start tag of an element is read, up to the end of the element or up to its content. -/
theorem readStartTag_write {parent : Scope} {u : Tag} (hprefixes : LegalPrefixes prefixes)
    (hsame : StablePrefixes prefixes) (hlegal : u.Legal) (hstable : u.Stable prefixes inherited)
    (hown : u.prefixes = [] ∨ u.prefixes = prefixes)
    (hscope : (declared inherited u).extend parent = writtenScope prefixes u.space)
    (h : c.rest = Node.write inherited (.element u ns) ++ t) :
    ∃ tag tagEnd c', readStartTag parent c = .ok (some tag, tagEnd, c') ∧
      tag.name = ⟨[], u.name.toList⟩ ∧ tag.scope = writtenScope prefixes u.space ∧
      tag.tag = { u with prefixes := [], line := c.position.row } ∧ (∀ d ∈ tag.prefixes, d ∈ prefixes) ∧
      c'.rest.length < c.rest.length ∧ (tagEnd = .empty ∧ ns = [] ∧ c'.rest = t ∨
        tagEnd = .opened ∧ c'.rest = Node.writeAll u.space ns ++ '<' :: '/' :: (u.name.toList ++ '>' :: t)) := by
  cases ns with
  | nil =>
    rw [Node.write, List.append_assoc] at h
    obtain ⟨tag, c', hread, hrest, hname, hfound, htag, hknown⟩ := readStartTag_writeHead .empty ['/', '>'] hprefixes
      hsame hlegal hstable hown hscope (by decide) ⟨'/', ['>'], rfl, by decide⟩
      (fun a c hc => readAttributes_empty a hc) h
    refine ⟨tag, .empty, c', hread, hname, hfound, htag, hknown, ?_, Or.inl ⟨rfl, rfl, hrest⟩⟩
    simp only [hrest, h, List.length_append, List.length_cons]
    omega
  | cons n ns =>
    have hspace : (u.space <|> inherited) = u.space := by
      cases hspace : u.space with
      | none => exact hstable.inherits hspace
      | some v => rfl
    have hopened : c.rest = writeHead inherited u ++
        (['>'] ++ (Node.writeAll u.space (n :: ns) ++ '<' :: '/' :: (u.name.toList ++ '>' :: t))) := by
      rw [h, Node.write, hspace]
      simp
    obtain ⟨tag, c', hread, hrest, hname, hfound, htag, hknown⟩ := readStartTag_writeHead .opened ['>'] hprefixes
      hsame hlegal hstable hown hscope (by decide) ⟨'>', [], rfl, by decide⟩
      (fun a c hc => readAttributes_opened a hc) hopened
    refine ⟨tag, .opened, c', hread, hname, hfound, htag, hknown, ?_, Or.inr ⟨rfl, hrest⟩⟩
    simp only [hrest, hopened, List.length_append, List.length_cons]
    omega

theorem exists_write_start {u : Tag} (hu : u.Legal) (inherited : Option String) (ns : List Node) :
    ∃ x w, Node.write inherited (.element u ns) = '<' :: x :: w ∧ isNameStart x = true := by
  obtain ⟨y, s, hwrite, -⟩ := exists_write_element inherited u ns
  obtain ⟨x, word, hword, hx⟩ := hu.name.start
  rw [hword, List.cons_append] at hwrite
  exact ⟨x, _, hwrite, hx⟩

/-- The content of an element is read, and its end tag. -/
theorem run_of_content {u : Tag} {tag : StartTag} (hu : u.Legal) (hname : tag.name = ⟨[], u.name.toList⟩)
    (hlegal : legalAll ns) (hns : RereadsAll prefixes u.space ns) (hp : p.Inside prefixes u.space ⟨tag, []⟩ outer)
    (htext : p.inText = false)
    (h : p.cursor.rest = Node.writeAll u.space ns ++ '<' :: '/' :: (u.name.toList ++ '>' :: t)) :
    ∃ (q : Progress) (ms : List Node) (c : Cursor), p.run = (q.finish ⟨tag.tag, ms⟩ outer c).run ∧ c.rest = t ∧
      (∀ d ∈ q.prefixes, d ∈ prefixes) ∧ unlinedAll ms = unlinedAll ns := by
  obtain ⟨q, ms, hrun, hq, hrest, hms⟩ := hns p _ outer _ hp h fun _ _ _ => htext
  obtain ⟨c, hc, hclosed⟩ := run_of_endTag hu.name hq.opened hname hrest
  rw [List.append_nil, Frame.close, List.reverse_reverse, filter_of_unlinedAll hlegal hms] at hclosed
  exact ⟨q, ms, c, hrun.trans hclosed, hc, hq.known, hms⟩

/-- An element is read back when its content is. -/
theorem rereads_element {u : Tag} (hprefixes : LegalPrefixes prefixes) (hsame : StablePrefixes prefixes)
    (hlegal : Node.Legal (.element u ns)) (hstable : u.Stable prefixes inherited)
    (hns : RereadsAll prefixes u.space ns) : Node.Rereads prefixes inherited (.element u ns) := by
  intro p f outer t hp h _
  obtain ⟨hu, hnone, hchildren⟩ := hlegal
  have hparent : p.scope = writtenScope prefixes inherited := by
    rw [Progress.scope, hp.opened]
    exact hp.scope
  obtain ⟨tag, tagEnd, c, hread, hname, hfound, htag, hknown, hless, hend⟩ := readStartTag_write hprefixes hsame hu
    hstable (Or.inl hnone) (declared_child hprefixes hnone hstable.inherits) h
  rw [← hparent] at hread
  obtain ⟨x, w, hwrite, hx⟩ := exists_write_start hu inherited ns
  have hrest : p.cursor.rest = '<' :: x :: (w ++ t) := by rw [h, hwrite, List.cons_append, List.cons_append]
  have hnoted : ∀ d ∈ (p.note tag).prefixes, d ∈ prefixes := fun d hd => (mem_foldl_new hd).elim (hp.known d) (hknown d)
  have hunlined : ∀ ms, unlinedAll ms = unlinedAll ns →
      (Node.element tag.tag ms).unlined = (Node.element u ns).unlined := by
    intro ms hms
    rw [Node.unlined, Node.unlined, hms, htag, ← hnone]
  have hrun := run_of_startTag hx hp.opened hrest hread hless
  rcases hend with ⟨rfl, rfl, hc⟩ | ⟨rfl, hc⟩
  · refine ⟨_, .element tag.tag [], hrun, ⟨?_, hp.scope, ?_⟩, ?_, ?_, hunlined [] rfl⟩
    · rw [Progress.enter, if_pos rfl, hp.opened]
      rfl
    · rw [Progress.enter, if_pos rfl, hp.opened]
      exact hnoted
    · rw [cursor_enter, hc]
    · rw [Progress.enter, if_pos rfl, hp.opened]
      rfl
  · have hinside : (p.enter tag .opened c).Inside prefixes u.space ⟨tag, []⟩ (f :: outer) := by
      refine ⟨?_, hfound, hnoted⟩
      rw [Progress.enter, if_neg (by decide), hp.opened]
    obtain ⟨q, ms, c', hrun', hc', hq, hms⟩ := run_of_content hu hname hchildren hns hinside rfl
      (by rw [cursor_enter, hc])
    exact ⟨_, .element tag.tag ms, hrun.trans hrun', ⟨rfl, hp.scope, hq⟩, hc', rfl, hunlined ms hms⟩

theorem rereadsAll_nil : RereadsAll prefixes inherited [] :=
  fun p _ _ _ hp h _ => ⟨p, [], rfl, hp, h, rfl⟩

/-- Nodes are read back one after the other, since one of two neighbours is an element. -/
theorem rereadsAll_cons (hn : n.Rereads prefixes inherited) (hns : RereadsAll prefixes inherited ns)
    (hapart : Apart (n :: ns)) : RereadsAll prefixes inherited (n :: ns) := by
  intro p f outer t hp h hfirst
  rw [Node.writeAll, List.append_assoc] at h
  have hbehind : n.isElement = false → ∃ w, Node.writeAll inherited ns ++ '<' :: t = '<' :: w := by
    intro htext
    cases ns with
    | nil => exact ⟨t, rfl⟩
    | cons m ns =>
      rcases (List.isChain_cons_cons.1 hapart).1 with helement | helement
      · rw [htext] at helement
        cases helement
      · cases m with
        | text s => cases helement
        | element u children =>
          obtain ⟨y, s, hwrite, -⟩ := exists_write_element inherited u children
          exact ⟨_, by rw [Node.writeAll, hwrite]; rfl⟩
  obtain ⟨q, m, hrun, hq, hrest, htext, hm⟩ := hn p f outer _ hp h fun helement =>
    ⟨hfirst n rfl helement, hbehind helement⟩
  have hnext : ∀ n' ∈ ns.head?, n'.isElement = false → q.inText = false := by
    intro n' hn' htext'
    cases ns with
    | nil => cases hn'
    | cons n'' ns =>
      obtain rfl : n'' = n' := Option.some.inj hn'
      rcases (List.isChain_cons_cons.1 hapart).1 with helement | helement
      · rw [htext, helement]
        rfl
      · rw [htext'] at helement
        cases helement
  obtain ⟨q', ms, hrun', hq', hrest', hms⟩ := hns q (f.addNode m) outer t hq hrest hnext
  refine ⟨q', m :: ms, hrun.trans hrun', ?_, hrest', by rw [unlinedAll, unlinedAll, hm, hms]⟩
  rw [List.reverse_cons, List.append_assoc]
  exact hq'

mutual

/-- A tree is read back in the content of an element. -/
theorem rereads (hprefixes : LegalPrefixes prefixes) (hsame : StablePrefixes prefixes) :
    ∀ {inherited : Option String} {n : Node}, n.Legal → n.Stable prefixes inherited → n.Rereads prefixes inherited
  | _, .text _, hlegal, hstable => rereads_text hlegal hstable
  | _, .element _ _, hlegal, hstable => by
    obtain ⟨hu, hapart, hchildren⟩ := hstable
    exact rereads_element hprefixes hsame hlegal hu (rereadsAll hprefixes hsame hlegal.2.2 hapart hchildren)

theorem rereadsAll (hprefixes : LegalPrefixes prefixes) (hsame : StablePrefixes prefixes) :
    ∀ {inherited : Option String} {ns : List Node}, legalAll ns → Apart ns → stableAll prefixes inherited ns →
      RereadsAll prefixes inherited ns
  | _, [], _, _, _ => rereadsAll_nil
  | _, _ :: _, hlegal, hapart, hstable => by
    obtain ⟨hn, hns⟩ := hstable
    exact rereadsAll_cons (rereads hprefixes hsame hlegal.1 hn)
      (rereadsAll hprefixes hsame hlegal.2 (List.IsChain.of_cons hapart) hns) hapart

end

/-! ## Documents -/

/-- **An element is read back** as it is written, up to lines. Of its prefixes those are declared again that are in
use. -/
theorem exists_parse_toXml (hlegal : e.Legal) (hstable : e.Stable) : ∃ root, parse e.toXml = .ok root ∧
    root.tag = { e.tag with prefixes := root.tag.prefixes, line := root.tag.line } ∧
    unlinedAll root.children = unlinedAll e.children ∧ ∀ d ∈ root.tag.prefixes, d ∈ e.tag.prefixes := by
  obtain ⟨u, ns⟩ := e
  obtain ⟨hu, hprefixes, hchildren⟩ := hlegal
  obtain ⟨hutag, hsame, hapart, hstable⟩ := hstable
  dsimp only at hu hprefixes hchildren hutag hsame hapart hstable
  obtain ⟨x, w, hwrite, hx⟩ := exists_write_start hu none ns
  have htext : (Element.mk u ns).toXml = '<' :: x :: w := hwrite
  obtain ⟨c, hprolog, hrest⟩ := readProlog_of_cons (t := w) hx
  rw [← htext] at hprolog hrest
  obtain ⟨tag, tagEnd, c', hread, hname, hscope, htag, hknown, -, hend⟩ := readStartTag_write (t := []) hprefixes hsame
    hu hutag (Or.inr rfl) (declared_root u) (hrest.trans (List.append_nil _).symm)
  have hfirst : Progress.start ⟨c, [], false, [], none⟩ = .ok (Progress.enter ⟨c, [], false, [], none⟩ tag tagEnd c') :=
    Progress.start_eq_ok.2 ⟨some tag, tagEnd, c', hread, rfl⟩
  have hhead : c.rest.head? = some '<' := by
    rw [hrest, htext]
    rfl
  have hnoted : ∀ d ∈ (Progress.note ⟨c, [], false, [], none⟩ tag).prefixes, d ∈ u.prefixes := by
    intro d hd
    rcases mem_foldl_new hd with hd | hd
    · cases hd
    · exact hknown d hd
  rcases hend with ⟨rfl, rfl, hc⟩ | ⟨rfl, hc⟩
  · refine ⟨_, parse_of_run (q := Progress.enter ⟨c, [], false, [], none⟩ tag .empty c') (e := ⟨tag.tag, []⟩) hprolog
      hhead hfirst ?_ hc rfl rfl, ?_, rfl, hnoted⟩
    · rw [Progress.run]
      rfl
    · dsimp only
      rw [htag]
  · have hinside : (Progress.enter ⟨c, [], false, [], none⟩ tag .opened c').Inside u.prefixes u.space ⟨tag, []⟩ [] :=
      ⟨rfl, hscope, hnoted⟩
    obtain ⟨q, ms, c'', hrun, hc'', hq, hms⟩ := run_of_content hu hname hchildren
      (rereadsAll hprefixes hsame hchildren hapart hstable) hinside rfl (by rw [cursor_enter, hc])
    have hdone : (Progress.enter ⟨c, [], false, [], none⟩ tag .opened c').run =
        .ok (q.finish ⟨tag.tag, ms⟩ [] c'') := by
      rw [hrun, Progress.finish, Progress.run]
    refine ⟨_, parse_of_run hprolog hhead hfirst hdone hc'' rfl rfl, ?_, hms, hq⟩
    dsimp only
    rw [htag]

end MathMarkup.Xml
