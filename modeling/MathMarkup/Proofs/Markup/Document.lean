import MathMarkup.Proofs.Markup.Sound
import MathMarkup.Proofs.Xml.Heads

/-!
# Documents

A `math` element that declares the namespace of MathML, with sound markup in it, is read back
(`parse_math`) and passes validation (`validate_math`).
-/

namespace MathMarkup.MathML

open Text Xml

/-- The `math` element around markup. -/
def mathElement (ms : List Markup) : Markup := .element "math" [("xmlns", mathNamespace.toList)] ms

/-! ## The root -/

theorem isSpaceName_mathNamespace : IsSpaceName mathNamespace := ⟨by decide, by decide, by decide⟩

/-- The declaration of the namespace, in front of other attributes. -/
theorem readAttributes_mathNamespace {c : Cursor} {t : List Char}
    (h : c.rest = Markup.renderAttribute ("xmlns", mathNamespace.toList) ++ t) :
    ∃ c', readAttributes ⟨[], []⟩ c = readAttributes ⟨[(none, mathNamespace)], []⟩ c' ∧ c'.rest = t :=
  readAttributes_xmlns ⟨[], []⟩ isSpaceName_mathNamespace (by decide) h

/-- The start tag of the root declares the namespace that the root is in. -/
theorem readStartTag_math {c : Cursor} {t : List Char}
    (h : c.rest = Markup.renderHead "math" [("xmlns", mathNamespace.toList)] ++ '>' :: t) :
    ∃ tag c', readStartTag [] c = .ok (some tag, .opened, c') ∧ c'.rest = t ∧
      tag.name = ⟨[], "math".toList⟩ ∧ tag.tag.name = "math" ∧ tag.tag.space = some mathNamespace := by
  have hrest : c.rest = '<' :: ("math".toList ++
      (Markup.renderAttribute ("xmlns", mathNamespace.toList) ++ '>' :: t)) := by
    rw [h]
    simp [Markup.renderHead]
  obtain ⟨c1, hqname, hr1⟩ := qname_of_isWord (x := ' ') (by decide) (by decide) (rest_advance_one hrest)
  obtain ⟨c2, hread, hr2⟩ := readAttributes_mathNamespace hr1
  obtain ⟨c3, hopened, hr3⟩ := readAttributes_opened ⟨[(none, mathNamespace)], []⟩ hr2
  obtain ⟨tag, hmake, hname, htag, hspace, -⟩ := makeTag_plain [] c.position "math".toList
    (a := ⟨[(none, mathNamespace)], []⟩) (by simp) (by simp)
  refine ⟨tag, c3, ?_, hr3, hname, by rw [htag, String.ofList_toList], hspace⟩
  have hplain : ¬ [] = "xmlns".toList := by decide
  simp only [readStartTag, hqname, hplain, ↓reduceIte, hread, hopened, hmake, bind, Except.bind, pure,
    Except.pure]

/-- A `math` element around markup that is read as elements is read as one itself. -/
theorem parse_math_of_readsAs {R : Markup → Node → Prop} {ms : List Markup} (hms : ∀ m ∈ ms, ReadsAs R m)
    (helement : ∀ m n, R m n → n.isElement) :
    ∃ tag ns, parse (mathElement ms).render = .ok ⟨tag, ns⟩ ∧ tag.name = "math" ∧
      tag.space = some mathNamespace ∧ List.Forall₂ R ms ns := by
  have hname : IsWord "math".toList := by decide
  obtain ⟨c0, hprolog, hr0⟩ := readProlog_of_cons (x := 'm') (by decide)
    (t := "ath".toList ++ (Markup.renderAttribute ("xmlns", mathNamespace.toList) ++
      ('>' :: (Markup.renderList ms ++ '<' :: '/' :: ("math".toList ++ '>' :: [])))))
  have hrender : (mathElement ms).render = '<' :: 'm' :: ("ath".toList ++
      (Markup.renderAttribute ("xmlns", mathNamespace.toList) ++
        ('>' :: (Markup.renderList ms ++ '<' :: '/' :: ("math".toList ++ '>' :: []))))) := by
    simp [mathElement, Markup.render, Markup.renderHead]
  rw [← hrender] at hprolog hr0
  obtain ⟨tag, c1, hstart, hr1, htagname, htag, hspace⟩ := readStartTag_math (c := c0)
    (t := Markup.renderList ms ++ '<' :: '/' :: ("math".toList ++ '>' :: [])) (by
      rw [hr0, mathElement, Markup.render]
      simp)
  obtain ⟨p1, hp1, hcursor, hopened⟩ : ∃ p1 : Xml.Progress,
      (Xml.Progress.mk c0 [] false [] none).start = .ok p1 ∧ p1.cursor = c1 ∧ p1.opened = [⟨tag, []⟩] := by
    have hscope : (Xml.Progress.mk c0 [] false [] none).scope = [] := rfl
    rw [Xml.Progress.start, hscope, hstart]
    exact ⟨_, rfl, rfl, rfl⟩
  obtain ⟨ns, hns, q, hrun, hrest, hopened⟩ := comes_of_readsAs hms hopened
    (by rw [hcursor, hr1])
  rw [List.append_nil] at hopened
  obtain ⟨c2, hr2, hend⟩ := run_of_endTag hname.isLocalName hopened htagname hrest
  rw [close_of_isElement (isElement_of_forall₂ helement hns)] at hend
  have hdone : p1.run = .ok (q.finish ⟨tag.tag, ns⟩ [] c2) := by
    rw [hrun, hend, Xml.Progress.finish, Xml.Progress.run]
  have hhead : c0.rest.head? = some '<' := by rw [hr0, hrender]; rfl
  exact ⟨_, ns, parse_of_run hprolog hhead hp1 hdone hr2 rfl rfl, htag, hspace, hns⟩

/-- **A `math` element is read back**, with readings of the markup in it. -/
theorem parse_math {ms : List Markup} (hms : ∀ m ∈ ms, m.Sound) :
    ∃ tag ns, parse (mathElement ms).render = .ok ⟨tag, ns⟩ ∧ tag.name = "math" ∧
      tag.space = some mathNamespace ∧ List.Forall₂ IsReading ms ns :=
  parse_math_of_readsAs (fun m hm => readsBack_of_sound (hms m hm)) fun _ _ => IsReading.isElement

/-- **A `math` element around sound markup is valid**, and needs no namespace. -/
theorem validate_math (config : Config) {ms : List Markup} (hms : ∀ m ∈ ms, m.Sound) :
    validate config (mathElement ms).render = ⟨[], false⟩ := by
  obtain ⟨tag, ns, hparse, hname, hspace, hns⟩ := parse_math hms
  have hviolations : violations (.element tag ns) = [] := by
    have hmodel : contentModel? tag.name = some .row := by rw [hname]; rfl
    have hrequired : requiredAttributes tag.name = [] := by rw [hname]; rfl
    exact violations_of_readings hmodel hrequired trivial hns
  have hroot : rootViolations tag = [] := if_pos hname
  have hnamespace : spaceViolations tag = [] := by
    rw [spaceViolations, hspace]
    exact if_pos rfl
  rw [validate, hparse]
  simp [validateTree, hroot, hnamespace, Element.toNode, hviolations, hspace]

end MathMarkup.MathML
