import MathMarkup.Proofs.Xml.Admission
import MathMarkup.Proofs.Xml.Rereading

/-!
# What is read can be written

Every step of the reader keeps that the elements it has read can be written again (`Progress.Legal`), and that the
prefixes noted so far are those of the attributes read so far, in the order of their first use (`Progress.used`).

Main statement: `legal_of_parse`.
-/

namespace MathMarkup.Xml

open Text

variable {p p' : Progress} {f : Frame} {outer : List Frame} {c : Cursor} {s : List Char} {n : Node} {ns ms : List Node}
  {e root : Element}

/-! ## Prefixes in use -/

mutual

/-- The prefixes that the attributes in a tree are known by, in the order of the text. -/
def Node.used : Node → List String
  | .element u ns => u.used ++ usedAll ns
  | .text _ => []

def usedAll : List Node → List String
  | [] => []
  | n :: rest => n.used ++ usedAll rest

end

/-- Adds a prefix that is not known yet. -/
def addPrefix (known : List String) (pre : String) : List String :=
  if known.any (· == pre) then known else known ++ [pre]

/-- The prefixes without those that were used before. -/
def firstUses (names : List String) : List String := names.foldl addPrefix []

theorem usedAll_append (ns ms : List Node) : usedAll (ns ++ ms) = usedAll ns ++ usedAll ms := by
  induction ns with
  | nil => rfl
  | cons n ns ih => rw [List.cons_append, usedAll, ih, usedAll, List.append_assoc]

theorem usedAll_singleton (n : Node) : usedAll [n] = n.used := List.append_nil _

/-- Texts use no prefixes. -/
theorem usedAll_filter (ns : List Node) : usedAll (ns.filter fun n => !n.isBlankText) = usedAll ns := by
  induction ns with
  | nil => rfl
  | cons n ns ih =>
    rw [List.filter_cons]
    split
    · rw [usedAll, ih, usedAll]
    · rename_i hblank
      cases n with
      | element => exact absurd rfl hblank
      | text s => exact ih

theorem nodup_foldl_addPrefix {known : List String} (h : known.Nodup) (names : List String) :
    (names.foldl addPrefix known).Nodup := by
  induction names generalizing known with
  | nil => exact h
  | cons pre names ih =>
    refine ih ?_
    unfold addPrefix
    split
    · exact h
    · rename_i hnew
      refine List.nodup_append.2 ⟨h, by simp, fun x hx y hy heq => hnew ?_⟩
      rw [List.any_eq_true]
      exact ⟨x, hx, by simpa [heq] using hy⟩

theorem map_fst_foldl_new {known more : List (String × String)} :
    (more.foldl (fun known d => if known.any (·.1 == d.1) then known else known ++ [d]) known).map Prod.fst =
      (more.map Prod.fst).foldl addPrefix (known.map Prod.fst) := by
  induction more generalizing known with
  | nil => rfl
  | cons d more ih =>
    have hknown : ((known.map Prod.fst).any fun pre => pre == d.1) = known.any fun e => e.1 == d.1 := List.any_map
    rw [List.foldl_cons, ih, List.map_cons, List.foldl_cons, addPrefix, hknown]
    split
    · rfl
    · rw [List.map_append]
      rfl

/-! ## Open elements -/

/-- A node in an element that is open: texts that are blank are not dropped yet. -/
def Node.Readable : Node → Prop
  | .element u ns => Node.Legal (.element u ns)
  | .text s => IsAdmitted s

/-- An element that is open, with a start tag and children that can be written again. -/
structure Frame.Legal (f : Frame) : Prop where
  start : f.start.Legal
  children : ∀ n ∈ f.children, n.Readable

/-- The prefixes in use in an element that is open. -/
def Frame.used (f : Frame) : List String := f.start.tag.used ++ usedAll f.children.reverse

theorem legalAll_iff : legalAll ns ↔ ∀ n ∈ ns, n.Legal := by
  induction ns with
  | nil => exact ⟨fun _ => List.forall_mem_nil _, fun _ => trivial⟩
  | cons n ns ih => rw [List.forall_mem_cons, legalAll, ih]

theorem Frame.used_addNode (f : Frame) (n : Node) : (f.addNode n).used = f.used ++ n.used := by
  rw [used, addNode, List.reverse_cons, usedAll_append, usedAll_singleton, used, List.append_assoc]

theorem Frame.used_addText (f : Frame) (merge : Bool) (s : List Char) : (f.addText merge s).used = f.used := by
  unfold Frame.addText
  split
  · rename_i before rest heq
    rw [used, used, heq, List.reverse_cons, List.reverse_cons, usedAll_append, usedAll_append]
    rfl
  · rw [used, used, List.reverse_cons, usedAll_append, usedAll_singleton, Node.used, List.append_nil]

theorem Frame.used_close (f : Frame) : f.close.toNode.used = f.used := by
  rw [Element.toNode, close, Node.used, usedAll_filter, used]

theorem Frame.Legal.addNode (h : f.Legal) (hn : n.Readable) : (f.addNode n).Legal :=
  ⟨h.start, List.forall_mem_cons.2 ⟨hn, h.children⟩⟩

theorem Frame.Legal.addText (h : f.Legal) (hs : IsAdmitted s) (merge : Bool) : (f.addText merge s).Legal := by
  have hchildren := h.children
  unfold Frame.addText
  split
  · rename_i before rest heq
    rw [heq, List.forall_mem_cons] at hchildren
    refine ⟨h.start, List.forall_mem_cons.2 ⟨?_, hchildren.2⟩⟩
    intro d hd
    exact (List.mem_append.1 hd).elim (hchildren.1 d) (hs d)
  · exact ⟨h.start, List.forall_mem_cons.2 ⟨hs, hchildren⟩⟩

theorem Frame.Legal.close (h : f.Legal) : f.close.toNode.Legal := by
  refine ⟨h.start.tag, h.start.bare, legalAll_iff.2 fun n hn => ?_⟩
  obtain ⟨hmem, hblank⟩ := List.mem_filter.1 hn
  have hreadable := h.children n (List.mem_reverse.1 hmem)
  cases n with
  | element u ns => exact hreadable
  | text s => exact ⟨hreadable, Bool.not_eq_true' _ ▸ hblank⟩

/-! ## Progress -/

namespace Progress

/-- The prefixes in use in what was read. -/
def used (p : Progress) : List String :=
  p.opened.reverse.flatMap Frame.used ++ p.root.elim [] fun e => e.toNode.used

/-- All that was read can be written again, and the prefixes that it uses are noted. -/
structure Legal (p : Progress) : Prop where
  opened : ∀ f ∈ p.opened, f.Legal
  root : ∀ e, p.root = some e → p.opened = [] ∧ e.toNode.Legal
  known : ∀ d ∈ p.prefixes, IsLocalName d.1.toList ∧ d.1 ≠ "xml" ∧ IsSpaceName d.2
  noted : p.prefixes.map Prod.fst = firstUses p.used

theorem Legal.root_eq_none (h : p.Legal) (hopened : p.opened = f :: outer) : p.root = none := by
  rw [Option.eq_none_iff_forall_ne_some]
  intro e he
  rw [(h.root e he).1] at hopened
  cases hopened

/-- An element is complete. -/
theorem legal_finish (houter : ∀ f ∈ outer, f.Legal) (he : e.toNode.Legal) (hroot : p.root = none)
    (hknown : ∀ d ∈ p.prefixes, IsLocalName d.1.toList ∧ d.1 ≠ "xml" ∧ IsSpaceName d.2)
    (hnoted : p.prefixes.map Prod.fst = firstUses (outer.reverse.flatMap Frame.used ++ e.toNode.used)) (c : Cursor) :
    (p.finish e outer c).Legal := by
  cases outer with
  | nil => exact ⟨List.forall_mem_nil _, fun e' he' => ⟨rfl, Option.some.inj he' ▸ he⟩, hknown, hnoted⟩
  | cons f outer =>
    rw [List.forall_mem_cons] at houter
    refine ⟨List.forall_mem_cons.2 ⟨houter.1.addNode he, houter.2⟩, fun e' he' => ?_, hknown, ?_⟩
    · rw [finish] at he'
      dsimp only at he'
      rw [hroot] at he'
      cases he'
    · rw [finish, used]
      dsimp only
      rw [hroot, hnoted]
      simp [Frame.used_addNode]

theorem Legal.enter (h : p.Legal) (hroot : p.root = none) {tag : StartTag} (htag : tag.Legal) (tagEnd : TagEnd)
    (c : Cursor) : (p.enter tag tagEnd c).Legal := by
  have hknown : ∀ d ∈ (p.note tag).prefixes, IsLocalName d.1.toList ∧ d.1 ≠ "xml" ∧ IsSpaceName d.2 :=
    fun d hd => (mem_foldl_new hd).elim (h.known d) (htag.known d)
  have hnoted : (p.note tag).prefixes.map Prod.fst =
      firstUses (p.opened.reverse.flatMap Frame.used ++ tag.tag.used) := by
    have hbefore := h.noted
    rw [used, hroot, Option.elim_none, List.append_nil] at hbefore
    rw [firstUses, List.foldl_append, ← firstUses, ← hbefore, ← htag.used]
    exact map_fst_foldl_new
  unfold Progress.enter
  split
  · refine legal_finish (p := p.note tag) (e := ⟨tag.tag, []⟩) h.opened ⟨htag.tag, htag.bare, trivial⟩ hroot hknown ?_ c
    rw [hnoted, Element.toNode, Node.used, usedAll, List.append_nil]
  · refine ⟨List.forall_mem_cons.2 ⟨⟨htag, List.forall_mem_nil _⟩, h.opened⟩, fun e he => ?_, hknown, ?_⟩
    · exact absurd (hroot.symm.trans he) (Option.some_ne_none e).symm
    · refine hnoted.trans ?_
      rw [used]
      dsimp only [note]
      rw [hroot]
      simp [Frame.used, usedAll]

theorem Legal.start (h : p.Legal) (hroot : p.root = none) (hread : p.start = .ok p') : p'.Legal := by
  obtain ⟨tag, tagEnd, c, htag, rfl⟩ := start_eq_ok.1 hread
  cases tag with
  | none => exact ⟨h.opened, h.root, h.known, h.noted⟩
  | some tag =>
    refine h.enter hroot (legal_of_readStartTag ?_ htag) tagEnd c
    unfold Progress.scope
    cases hopened : p.opened with
    | nil => exact .nil
    | cons f outer => exact (h.opened f (by rw [hopened]; exact List.mem_cons_self)).start.scope

theorem Legal.addText (h : p.Legal) (hopened : p.opened = f :: outer) (hs : IsAdmitted s) (c : Cursor) :
    (p.addText s f outer c).Legal := by
  have hroot := h.root_eq_none hopened
  have hall := h.opened
  rw [hopened, List.forall_mem_cons] at hall
  refine ⟨List.forall_mem_cons.2 ⟨hall.1.addText hs _, hall.2⟩, fun e he => ?_, h.known, ?_⟩
  · exact absurd (hroot.symm.trans he) (Option.some_ne_none e).symm
  · refine h.noted.trans ?_
    rw [used, used, hopened, Progress.addText]
    simp [Frame.used_addText]

theorem Legal.step (h : p.Legal) (hopened : p.opened = f :: outer) (hread : p.step f outer = .ok p') : p'.Legal := by
  have hroot := h.root_eq_none hopened
  unfold Progress.step at hread
  dsimp only at hread
  split at hread
  · split at hread
    · obtain ⟨c, -, rfl⟩ := map_eq_ok.1 hread
      exact ⟨h.opened, h.root, h.known, h.noted⟩
    · split at hread
      · obtain ⟨⟨s, c⟩, hs, rfl⟩ := map_eq_ok.1 hread
        exact h.addText hopened (isAdmitted_of_readSection hs) c
      · cases hread
  · obtain ⟨c, -, rfl⟩ := map_eq_ok.1 hread
    exact ⟨h.opened, h.root, h.known, h.noted⟩
  · obtain ⟨c, -, rfl⟩ := map_eq_ok.1 hread
    have hall := h.opened
    rw [hopened, List.forall_mem_cons] at hall
    refine legal_finish hall.2 hall.1.close hroot h.known ?_ c
    rw [h.noted, used, hroot, hopened, Frame.used_close]
    simp
  · cases hread
  · exact h.start hroot hread
  · obtain ⟨⟨s, c⟩, hs, rfl⟩ := map_eq_ok.1 hread
    exact h.addText hopened (isAdmitted_of_readText hs) c

theorem Legal.run (h : p.Legal) (hread : p.run = .ok p') : p'.Legal := by
  fun_induction Progress.run p with
  | case1 p hp =>
    cases hread
    exact h
  | case2 p f outer hp hend =>
    cases hread
    exact h
  | case3 => cases hread
  | case4 p f outer hp hend next hstep hless ih => exact ih (h.step hp hstep) hread
  | case5 => cases hread

end Progress

/-! ## Documents -/

/-- **What is read can be written**, and the prefixes on the root are those in use, in the order of their first use. -/
theorem legal_of_parse (h : parse s = .ok root) :
    root.Legal ∧ root.tag.prefixes.map Prod.fst = firstUses root.toNode.used := by
  obtain ⟨e, prefixes, hread, rfl⟩ := parse_eq_ok.1 h
  obtain ⟨c, p, behind, -, hrun, -, -, hopened, hroot, rfl⟩ := readRoot_eq_ok.1 hread
  have hbefore : Progress.Legal ⟨c, [], false, [], none⟩ :=
    ⟨List.forall_mem_nil _, fun e he => absurd he.symm (Option.some_ne_none e), List.forall_mem_nil _, rfl⟩
  have hlegal : p.Legal := by
    split at hrun
    · obtain ⟨first, hfirst, hrun⟩ := hrun
      exact (hbefore.start rfl hfirst).run hrun
    · exact hrun ▸ hbefore
  obtain ⟨htag, -, hchildren⟩ := (hlegal.root e hroot).2
  have hnoted := hlegal.noted
  rw [Progress.used, hopened, hroot] at hnoted
  have hnodup : (p.prefixes.map Prod.fst).Nodup := by
    rw [hnoted]
    exact nodup_foldl_addPrefix List.nodup_nil _
  refine ⟨⟨⟨htag.name, htag.space, htag.keys, htag.values⟩, ⟨?_, ?_, hnodup⟩, hchildren⟩, hnoted⟩
  · exact fun d hd => ⟨(hlegal.known d hd).1, (hlegal.known d hd).2.1⟩
  · exact fun d hd => (hlegal.known d hd).2.2

end MathMarkup.Xml
