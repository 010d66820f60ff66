import MathMarkup.Proofs.Xml.Readers

/-!
# The root is the first element

The outermost element stays the one whose start tag was read first, while it is open and once it is complete
(`Progress.Rooted`). So the root of a document has the name and the namespace of the start tag behind what
stands in front of it.

Main statement: `exists_startTag_of_parse`.
-/

namespace MathMarkup.Xml

variable {p p' : Progress} {f : Frame} {outer : List Frame} {tag : Tag} {s : List Char}

/-- The outermost element has this tag. -/
def Progress.Rooted (tag : Tag) (p : Progress) : Prop :=
  (p.opened.map fun f => f.start.tag).getLast?.or (p.root.map Element.tag) = some tag

theorem start_addText (f : Frame) (merge : Bool) (s : List Char) : (f.addText merge s).start = f.start := by
  unfold Frame.addText
  split <;> rfl

namespace Progress

/-- As long as an element is open, it is the outermost open one that counts. -/
theorem Rooted.of_cons (h : p.Rooted tag) (fs : List Frame) (hopened : p.opened = f :: outer)
    (hopened' : p'.opened.map (fun f => f.start.tag) = fs.map (fun f => f.start.tag) ++ f.start.tag ::
      outer.map fun f => f.start.tag) : p'.Rooted tag := by
  rw [Rooted, hopened, List.map_cons, List.getLast?_cons, Option.some_or] at h
  rw [Rooted, hopened', List.getLast?_append, List.getLast?_cons, Option.some_or, Option.some_or, h]

theorem Rooted.finish (h : p.Rooted tag) {q : Progress} (hopened : p.opened = f :: outer) {e : Element}
    (he : e.tag = f.start.tag) (c : Cursor) : (q.finish e outer c).Rooted tag := by
  rw [Rooted, hopened] at h
  cases outer with
  | nil =>
    rw [Rooted, Progress.finish, List.map_nil, List.getLast?_nil, Option.none_or, Option.map_some, he]
    exact h
  | cons g outer =>
    rw [List.map_cons, List.map_cons, List.getLast?_cons_cons, List.getLast?_cons, Option.some_or] at h
    rw [Rooted, Progress.finish, List.map_cons, List.getLast?_cons, Option.some_or]
    exact h

theorem Rooted.start (h : p.Rooted tag) (hopened : p.opened = f :: outer) (hread : p.start = .ok p') :
    p'.Rooted tag := by
  obtain ⟨t, tagEnd, c, -, rfl⟩ := start_eq_ok.1 hread
  cases t with
  | none => exact h
  | some t =>
    dsimp only [enter]
    split
    · rw [hopened]
      exact h.of_cons [] hopened rfl
    · exact h.of_cons [⟨t, []⟩] hopened (by rw [hopened]; rfl)

theorem Rooted.step (h : p.Rooted tag) (hopened : p.opened = f :: outer) (hread : p.step f outer = .ok p') :
    p'.Rooted tag := by
  have htext : ∀ (s : List Char) (c : Cursor), (p.addText s f outer c).Rooted tag := fun s c =>
    h.of_cons [] hopened (by
      rw [Progress.addText, List.map_cons, start_addText]
      rfl)
  unfold Progress.step at hread
  dsimp only at hread
  split at hread
  · split at hread
    · obtain ⟨c, -, rfl⟩ := map_eq_ok.1 hread
      exact h
    · split at hread
      · obtain ⟨⟨s, c⟩, -, rfl⟩ := map_eq_ok.1 hread
        exact htext s c
      · cases hread
  · obtain ⟨c, -, rfl⟩ := map_eq_ok.1 hread
    exact h
  · obtain ⟨c, -, rfl⟩ := map_eq_ok.1 hread
    exact h.finish hopened rfl c
  · cases hread
  · exact h.start hopened hread
  · obtain ⟨⟨s, c⟩, -, rfl⟩ := map_eq_ok.1 hread
    exact htext s c

theorem Rooted.run (h : p.Rooted tag) (hread : p.run = .ok p') : p'.Rooted tag := by
  fun_induction Progress.run p with
  | case1 p hp =>
    cases hread
    exact h
  | case2 p f outer hp hend =>
    cases hread
    exact h
  | case3 => cases hread
  | case4 p f outer hp hend next hstep hless ih => exact ih (h.step hp hstep) hread
  | case5 => cases hread

end Progress

/-- **The root has the name and the namespace that were read first.** -/
theorem exists_startTag_of_parse {root : Element} (h : parse s = .ok root) :
    ∃ c t tagEnd c', readProlog (Cursor.start s) = .ok c ∧ readStartTag [] c = .ok (some t, tagEnd, c') ∧
      root.tag.name = t.tag.name ∧ root.tag.space = t.tag.space := by
  obtain ⟨e, prefixes, hread, rfl⟩ := parse_eq_ok.1 h
  obtain ⟨c, p, behind, hprolog, hrun, -, -, hopened, hroot, -⟩ := readRoot_eq_ok.1 hread
  split at hrun
  · obtain ⟨first, hfirst, hrun⟩ := hrun
    obtain ⟨t, tagEnd, c', htag, rfl⟩ := Progress.start_eq_ok.1 hfirst
    cases t with
    | none =>
      -- nothing is open, so nothing more is read
      rw [Progress.run] at hrun
      cases hrun
      cases hroot
    | some t =>
      refine ⟨c, t, tagEnd, c', hprolog, htag, ?_⟩
      have hrooted : p.Rooted t.tag := by
        refine Progress.Rooted.run ?_ hrun
        dsimp only [Progress.enter]
        split
        · rfl
        · rfl
      rw [Progress.Rooted, hopened, hroot] at hrooted
      rw [← Option.some.inj hrooted]
      exact ⟨rfl, rfl⟩
  · subst hrun
    cases hroot

end MathMarkup.Xml
