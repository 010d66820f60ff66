import Mathlib.Data.List.Nodup
import MathMarkup.Proofs.Xml.Legality

/-!
# What is read is written and read again

A tree that was read can be written (`legal_of_parse`), but not every one is read again as it was: references stand
for characters that are replaced where they are written, comments keep texts apart, an element without a namespace may
stand in one that has one, and the prefix of an attribute is looked up by its namespace, which may be the default one.
Trees in which none of this occurs are stable (`Element.Stable`).

Main theorem: `parse_toXml_of_stable`.
-/

namespace MathMarkup.Xml

open Text

variable {s : List Char} {n m : Node} {ns ms : List Node} {root : Element}

/-! ## Prefixes in use -/

mutual

/-- The lines of a tree do not matter for its prefixes. -/
theorem used_unlined : ∀ n : Node, n.unlined.used = n.used
  | .element u ns => by
    rw [Node.unlined, Node.used, Node.used, usedAll_unlinedAll ns]
    rfl
  | .text _ => rfl

theorem usedAll_unlinedAll : ∀ ns : List Node, usedAll (unlinedAll ns) = usedAll ns
  | [] => rfl
  | n :: rest => by rw [unlinedAll, usedAll, used_unlined n, usedAll_unlinedAll rest, usedAll]

end

/-- Declarations of the same prefixes that are taken from a list are that list. -/
theorem eq_of_map_fst_eq {α β : Type} {l l' : List (α × β)} (hnodup : (l.map Prod.fst).Nodup)
    (hsame : l'.map Prod.fst = l.map Prod.fst) (hsub : ∀ d ∈ l', d ∈ l) : l' = l := by
  have hlength : l'.length = l.length := by
    rw [← List.length_map (f := Prod.fst), hsame, List.length_map]
  refine List.ext_getElem hlength fun i hi hi' => ?_
  refine List.inj_on_of_nodup_map hnodup (hsub _ (List.getElem_mem hi)) (List.getElem_mem hi') ?_
  have hfst : (l'.map Prod.fst)[i]? = (l.map Prod.fst)[i]? := by rw [hsame]
  simpa [hi, hi'] using hfst

/-- **A stable tree that was read** is written as XML that is read as the same tree, up to lines. -/
theorem parse_toXml_of_stable (h : parse s = .ok root) (hstable : root.Stable) :
    ∃ root', parse root.toXml = .ok root' ∧ root'.unlined = root.unlined := by
  obtain ⟨hlegal, hused⟩ := legal_of_parse h
  obtain ⟨root', hparse, htag, hchildren, hknown⟩ := exists_parse_toXml hlegal hstable
  refine ⟨root', hparse, ?_⟩
  have htags : root'.tag.used = root.tag.used := by rw [htag, Tag.used, Tag.used]
  have hsame : root'.toNode.used = root.toNode.used := by
    rw [Element.toNode, Element.toNode, Node.used, Node.used, htags, ← usedAll_unlinedAll root'.children, hchildren,
      usedAll_unlinedAll]
  have hprefixes : root'.tag.prefixes = root.tag.prefixes :=
    eq_of_map_fst_eq hlegal.prefixes.nodup (by rw [(legal_of_parse hparse).2, hsame, hused]) hknown
  rw [Element.unlined, Element.unlined, hchildren, htag, hprefixes]

/-- A prefix that is declared inside, a default namespace that changes, references and a comment. -/
theorem parse_toXml_of_stable_prefixed :
    let s := ("<math xmlns='m'><!-- c --><mrow xmlns:l='n' l:href='#a'>x&lt;<svg xmlns='v' xml:lang='e&quot;'/>" ++
      "</mrow></math>").toList
    ∃ root, parse s = .ok root ∧ root.Stable ∧ root.tag.prefixes = [("l", "n")] ∧
      ∃ root', parse root.toXml = .ok root' ∧ root'.unlined = root.unlined := by
  intro s
  have hread : (parse s).map (fun e => (decide e.Stable, e.tag.prefixes)) = .ok (true, [("l", "n")]) := by
    decide +kernel
  obtain ⟨root, hroot, heq⟩ := map_eq_ok.1 hread
  obtain ⟨hstable, hprefixes⟩ := Prod.mk.inj heq
  exact ⟨root, hroot, of_decide_eq_true hstable, hprefixes, parse_toXml_of_stable hroot (of_decide_eq_true hstable)⟩

/-- Where the default namespace is that of a prefix, the prefix is lost, and an attribute may then be given twice. Where
a comment stands between two texts, they become one. -/
theorem parse_toXml_unstable :
    (∃ root fault, parse "<math xmlns='u' xmlns:p='u' p:x='1' x='2'/>".toList = .ok root ∧
      parse root.toXml = .error fault) ∧
    ∃ root root', parse "<mi>a<!-- c -->b</mi>".toList = .ok root ∧ parse root.toXml = .ok root' ∧
      root'.unlined ≠ root.unlined := by
  constructor
  · have hwritten : (parse "<math xmlns='u' xmlns:p='u' p:x='1' x='2'/>".toList).map Element.toXml =
        .ok "<math xmlns=\"u\" x=\"1\" x=\"2\"/>".toList := by decide +kernel
    have hrefused : (parse "<math xmlns=\"u\" x=\"1\" x=\"2\"/>".toList).map Element.toXml =
        .error (.at (.duplicateAttribute "x") ⟨1, 23⟩) := by decide +kernel
    obtain ⟨root, hroot, hxml⟩ := map_eq_ok.1 hwritten
    cases hagain : parse root.toXml with
    | error fault => exact ⟨root, fault, hroot, hagain⟩
    | ok root' =>
      rw [← hxml, hagain] at hrefused
      cases hrefused
  · have hwritten : (parse "<mi>a<!-- c -->b</mi>".toList).map (fun e => (e.toXml, e.unlined.children.length)) =
        .ok ("<mi>ab</mi>".toList, 2) := by decide +kernel
    have hmerged : (parse "<mi>ab</mi>".toList).map (fun e => e.unlined.children.length) = .ok 1 := by decide +kernel
    obtain ⟨root, hroot, heq⟩ := map_eq_ok.1 hwritten
    obtain ⟨hxml, htwo⟩ := Prod.mk.inj heq
    rw [← hxml] at hmerged
    obtain ⟨root', hroot', hone⟩ := map_eq_ok.1 hmerged
    refine ⟨root, root', hroot, hroot', fun hsame => ?_⟩
    rw [hsame, htwo] at hone
    cases hone

end MathMarkup.Xml
