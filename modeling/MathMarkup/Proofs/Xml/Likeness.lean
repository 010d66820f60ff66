import Mathlib.Data.List.Forall2
import MathMarkup.Proofs.Xml.Widening

/-!
# Content in a wider scope

The elements that are open, and what was read of them so far, are alike in both readings (`Progress.Like`), and
every step keeps this. So what is read of an element is the same tree, up to namespaces and the prefixes of
attributes.

Main statement: `Progress.Like.run`.
-/

namespace MathMarkup.Xml

open Text

variable {space : String} {c c' d : Cursor} {f g : Frame} {outer outer' : List Frame} {p q p' : Progress}
  {s : List Char} {n m : Node} {ns ms : List Node}

/-! ## Trees -/

mutual

/-- The same tree, with tags that are alike. -/
def Node.Like : Node → Node → Prop
  | .text s, .text t => t = s
  | .element t ns, .element u ms => t.Like u ∧ likeAll ns ms
  | .text _, .element .. => False
  | .element .., .text _ => False

def likeAll : List Node → List Node → Prop
  | [], [] => True
  | n :: ns, m :: ms => n.Like m ∧ likeAll ns ms
  | [], _ :: _ => False
  | _ :: _, [] => False

end

theorem likeAll_iff : likeAll ns ms ↔ List.Forall₂ Node.Like ns ms := by
  induction ns generalizing ms with
  | nil =>
    cases ms with
    | nil => exact ⟨fun _ => .nil, fun _ => trivial⟩
    | cons m ms => exact ⟨False.elim, nofun⟩
  | cons n ns ih =>
    cases ms with
    | nil => exact ⟨False.elim, nofun⟩
    | cons m ms => rw [likeAll, ih, List.forall₂_cons]

theorem Node.Like.isBlankText (h : n.Like m) : m.isBlankText = n.isBlankText := by
  cases n with
  | element t ns =>
    cases m with
    | element => rfl
    | text => exact h.elim
  | text s =>
    cases m with
    | element => exact h.elim
    | text t => rw [show t = s from h]

/-! ## Open elements -/

/-- Elements that were opened alike and hold the same so far. -/
structure Frame.Like (space : String) (f g : Frame) : Prop where
  start : f.start.Like space g.start
  children : List.Forall₂ Node.Like f.children g.children

theorem Frame.Like.addNode (h : f.Like space g) (hn : n.Like m) : (f.addNode n).Like space (g.addNode m) :=
  ⟨h.start, .cons hn h.children⟩

theorem Frame.Like.addText (h : f.Like space g) (merge : Bool) (s : List Char) :
    (f.addText merge s).Like space (g.addText merge s) := by
  obtain ⟨start, children⟩ := f
  obtain ⟨start', children'⟩ := g
  obtain ⟨hstart, hchildren⟩ := h
  have hnew : Frame.Like space ⟨start, .text s :: children⟩ ⟨start', .text s :: children'⟩ :=
    ⟨hstart, .cons rfl hchildren⟩
  cases merge with
  | false => exact hnew
  | true =>
    cases hchildren with
    | nil => exact hnew
    | @cons n m ns ms hn hns =>
      -- a text continues another one in both frames, or in none
      cases n with
      | element t ns =>
        cases m with
        | element => exact hnew
        | text => exact hn.elim
      | text before =>
        cases m with
        | element => exact hn.elim
        | text before' =>
          obtain rfl : before' = before := hn
          exact ⟨hstart, .cons rfl hns⟩

theorem Frame.Like.close (h : f.Like space g) : f.close.toNode.Like g.close.toNode := by
  refine ⟨h.start.tag, likeAll_iff.2 ?_⟩
  refine List.rel_filter (fun n m hnm => ?_) (List.rel_reverse h.children)
  dsimp only
  rw [hnm.isBlankText]

/-! ## Parts of the content -/

theorem readSection_like (hrest : d.rest = c.rest) (hread : readSection c = .ok (s, c')) :
    ∃ d', readSection d = .ok (s, d') ∧ d'.rest = c'.rest := by
  obtain ⟨text, c₁, htext, hend, hs⟩ := readSection_eq_ok.1 hread
  obtain ⟨d₁, hd₁, h₁⟩ :=
    ((beside_of_rest_eq hrest).advance (before_nil _)).admitted (fun _ => rfl) htext (before_nil _)
  obtain ⟨d', hd', h'⟩ := h₁.expectWord (by decide) hend (before_nil _)
  exact ⟨d', readSection_eq_ok.2 ⟨text, d₁, hd₁, hd', hs⟩, h'.rest_eq⟩

theorem readText_like (hrest : d.rest = c.rest) (hread : readText c = .ok (s, c')) :
    ∃ d', readText d = .ok (s, d') ∧ d'.rest = c'.rest := by
  obtain ⟨raw, hraw, hclose, hdata⟩ := readText_eq_ok.1 hread
  obtain ⟨d', hd', h'⟩ := (beside_of_rest_eq hrest).admitted (fun _ => rfl) hraw (before_nil _)
  exact ⟨d', readText_eq_ok.2 ⟨raw, hd', hclose, characterData_eq_ok hdata _⟩, h'.rest_eq⟩

theorem readEndTag_like {opened : QName} (hrest : d.rest = c.rest) (hread : readEndTag opened c = .ok c') :
    ∃ d', readEndTag opened d = .ok d' ∧ d'.rest = c'.rest := by
  obtain ⟨c₁, hname, hend⟩ := readEndTag_eq_ok.1 hread
  obtain ⟨d₁, hd₁, h₁⟩ := ((beside_of_rest_eq hrest).advance (before_nil _)).qname hname (before_nil _)
  obtain ⟨d', hd', h'⟩ := (h₁.skipSpace (before_nil _)).expect hend (before_nil _)
  exact ⟨d', readEndTag_eq_ok.2 ⟨d₁, hd₁, hd'⟩, h'.rest_eq⟩

/-! ## Progress -/

/-- Both readings have come to the same place, with elements alike. -/
structure Progress.Like (space : String) (p q : Progress) : Prop where
  rest : q.cursor.rest = p.cursor.rest
  opened : List.Forall₂ (Frame.Like space) p.opened q.opened
  inText : q.inText = p.inText
  root : Option.Rel (fun e e' : Element => e.toNode.Like e'.toNode) p.root q.root

namespace Progress

theorem Like.scope (h : p.Like space q) : Widens space p.scope q.scope := by
  have hopened := h.opened
  unfold Progress.scope
  generalize p.opened = fs at hopened
  generalize q.opened = gs at hopened
  cases hopened with
  | nil => exact .refl _
  | cons hf _ => exact hf.start.scope

theorem Like.finish (h : p.Like space q) {e e' : Element} (he : e.toNode.Like e'.toNode)
    (houter : List.Forall₂ (Frame.Like space) outer outer') (hrest : d.rest = c.rest) :
    (p.finish e outer c).Like space (q.finish e' outer' d) := by
  cases houter with
  | nil => exact ⟨hrest, .nil, rfl, .some he⟩
  | cons hf houter => exact ⟨hrest, .cons (hf.addNode he) houter, rfl, h.root⟩

theorem Like.addText (h : p.Like space q) (hf : f.Like space g) (houter : List.Forall₂ (Frame.Like space) outer outer')
    (s : List Char) (hrest : d.rest = c.rest) :
    (p.addText s f outer c).Like space (q.addText s g outer' d) :=
  ⟨hrest, .cons (h.inText ▸ hf.addText p.inText s) houter, rfl, h.root⟩

theorem Like.enter (h : p.Like space q) {t u : StartTag} (htu : t.Like space u) (tagEnd : TagEnd)
    (hrest : d.rest = c.rest) : (p.enter t tagEnd c).Like space (q.enter u tagEnd d) := by
  have hnote : (p.note t).Like space (q.note u) := ⟨h.rest, h.opened, rfl, h.root⟩
  have hempty : (Element.mk t.tag []).toNode.Like (Element.mk u.tag []).toNode := ⟨htu.tag, trivial⟩
  unfold Progress.enter
  split
  · exact hnote.finish hempty h.opened hrest
  · exact ⟨hrest, .cons ⟨htu, .nil⟩ h.opened, rfl, h.root⟩

theorem Like.start (h : p.Like space q) (hread : p.start = .ok p') : ∃ q', q.start = .ok q' ∧ p'.Like space q' := by
  obtain ⟨tag, tagEnd, c, htag, rfl⟩ := start_eq_ok.1 hread
  obtain ⟨tag', d, htag', hlike, hrest⟩ := readStartTag_like h.scope h.rest htag
  refine ⟨_, start_eq_ok.2 ⟨tag', tagEnd, d, htag', rfl⟩, ?_⟩
  cases hlike with
  | none => exact ⟨hrest, h.opened, rfl, h.root⟩
  | some htu => exact h.enter htu tagEnd hrest

theorem Like.step (h : p.Like space q) (hf : f.Like space g) (houter : List.Forall₂ (Frame.Like space) outer outer')
    (hread : p.step f outer = .ok p') : ∃ q', q.step g outer' = .ok q' ∧ p'.Like space q' := by
  have hbeside := beside_of_rest_eq h.rest
  have hskip : ∀ {c d : Cursor}, d.rest = c.rest →
      Like space { p with cursor := c, inText := false } { q with cursor := d, inText := false } :=
    fun hrest => ⟨hrest, h.opened, rfl, h.root⟩
  unfold Progress.step at hread ⊢
  dsimp only at hread ⊢
  rw [h.rest, hbeside.sees (by decide), hbeside.sees (by decide)]
  generalize p.cursor.rest = r at hread ⊢
  split at hread
  · split at hread
    · rename_i hcomment
      obtain ⟨c, hc, rfl⟩ := map_eq_ok.1 hread
      obtain ⟨d, hd, hlike⟩ := hbeside.readComment hc (before_nil c)
      exact ⟨_, by rw [if_pos hcomment, hd]; rfl, hskip hlike.rest_eq⟩
    · rename_i hcomment
      split at hread
      · rename_i hsection
        obtain ⟨⟨s, c⟩, hc, rfl⟩ := map_eq_ok.1 hread
        obtain ⟨d, hd, hrest⟩ := readSection_like h.rest hc
        exact ⟨_, by rw [if_neg hcomment, if_pos hsection, hd]; rfl, h.addText hf houter s hrest⟩
      · cases hread
  · obtain ⟨c, hc, rfl⟩ := map_eq_ok.1 hread
    obtain ⟨d, hd, hlike⟩ := hbeside.readInstruction hc (before_nil c)
    exact ⟨_, by rw [hd]; rfl, hskip hlike.rest_eq⟩
  · obtain ⟨c, hc, rfl⟩ := map_eq_ok.1 hread
    rw [hf.start.name]
    obtain ⟨d, hd, hrest⟩ := readEndTag_like h.rest hc
    exact ⟨_, by rw [hd]; rfl, h.finish hf.close houter hrest⟩
  · cases hread
  · exact h.start hread
  · obtain ⟨⟨s, c⟩, hc, rfl⟩ := map_eq_ok.1 hread
    obtain ⟨d, hd, hrest⟩ := readText_like h.rest hc
    exact ⟨_, by rw [hd]; rfl, h.addText hf houter s hrest⟩

/-- **What is read alike** up to some place goes on alike. -/
theorem Like.run (h : p.Like space q) (hread : p.run = .ok p') : ∃ q', q.run = .ok q' ∧ p'.Like space q' := by
  have hopened := h.opened
  fun_induction Progress.run p generalizing q with
  | case1 p hp =>
    cases hread
    rw [hp] at hopened
    refine ⟨q, ?_, h⟩
    rw [Progress.run, List.forall₂_nil_left_iff.1 hopened]
  | case2 p f outer hp hend =>
    cases hread
    refine ⟨q, ?_, h⟩
    rw [Progress.run, h.rest, hend]
    split
    · rfl
    · rfl
  | case3 p f outer hp hend fault hstep => cases hread
  | case4 p f outer hp hend next hstep hless ih =>
    rw [hp] at hopened
    obtain ⟨g, outer', hf, houter, hq⟩ := List.forall₂_cons_left_iff.1 hopened
    obtain ⟨next', hstep', hnext⟩ := h.step hf houter hstep
    obtain ⟨q', hq', hlike⟩ := ih hnext hread hnext.opened
    refine ⟨q', ?_, hlike⟩
    rw [Progress.run, hq]
    simp only [h.rest, hend, Bool.false_eq_true, if_false, hstep', hnext.rest, if_pos hless]
    exact hq'
  | case5 p f outer hp hend next hstep hless => cases hread

end Progress

end MathMarkup.Xml
