import MathMarkup.Proofs.Xml.Rereading

/-!
# Reading undoes writing

A tree is in normal form when nothing in it has a prefix, no attribute is given twice, no two texts touch, and nothing
occurs that the reader replaces. An element has a namespace when its parent has one.

Main theorem: `parse_toXml`.
-/

namespace MathMarkup.Xml

open Text

variable {prefixes : List (String × String)} {inherited : Option String}

/-- A tag in normal form, in the namespace `inherited`: nothing has a prefix, nothing is given twice, and there is
nothing in it that the reader replaces. -/
structure Tag.Normal (inherited : Option String) (u : Tag) : Prop where
  name : IsLocalName u.name.toList
  keys : ∀ a ∈ u.attributes, IsLocalName a.1.toList ∧ a.1 ≠ "xmlns"
  nodup : (u.attributes.map Prod.fst).Nodup
  values : ∀ a ∈ u.attributes, IsAdmitted a.2 ∧ IsPlain a.2
  space : ∀ v, u.space = some v → IsSpaceName v ∧ IsPlain v.toList
  inherits : u.space = none → inherited = none
  prefixes : u.prefixes = []

mutual

/-- A tree in normal form, in the namespace `inherited`. -/
def Node.Normal (inherited : Option String) : Node → Prop
  | .element u ns => u.Normal inherited ∧ Apart ns ∧ normalAll u.space ns
  | .text s => IsAdmitted s ∧ '\r' ∉ s ∧ s.all isBlank = false

def normalAll (inherited : Option String) : List Node → Prop
  | [] => True
  | n :: rest => n.Normal inherited ∧ normalAll inherited rest

end

/-- The name of an attribute in normal form has no prefix. -/
theorem Tag.Normal.exists_key {u : Tag} (h : u.Normal inherited) {a : String × List Char} (ha : a ∈ u.attributes) :
    ∃ name : QName, name.IsKey ∧ name.prefixName = [] ∧ a.1 = name.render := by
  obtain ⟨hname, hxmlns⟩ := h.keys a ha
  refine ⟨⟨[], a.1.toList⟩, ⟨Or.inl rfl, hname, fun heq => hxmlns (String.toList_inj.1 heq)⟩, rfl, ?_⟩
  rw [QName.render, if_pos List.isEmpty_nil, String.ofList_toList]

theorem Tag.Normal.legal {u : Tag} (h : u.Normal inherited) : u.Legal where
  name := h.name
  space v hv := (h.space v hv).1
  keys a ha := by
    obtain ⟨name, hname, -, hrender⟩ := h.exists_key ha
    exact ⟨name, hname, hrender⟩
  values a ha := (h.values a ha).1

theorem Tag.Normal.stable {u : Tag} (h : u.Normal inherited) : u.Stable prefixes inherited where
  inherits := h.inherits
  space v hv := (h.space v hv).2
  values a ha := (h.values a ha).2
  keys := h.nodup
  prefixes a ha pre hpre := by
    obtain ⟨name, hname, hnone, hrender⟩ := h.exists_key ha
    rw [hrender, keyPrefix?_render hname, if_pos (Or.inl hnone)] at hpre
    cases hpre

mutual

theorem Node.Normal.legal : ∀ {inherited : Option String} {n : Node}, n.Normal inherited → n.Legal
  | _, .element _ _, h => ⟨h.1.legal, h.1.prefixes, legalAll_of_normalAll h.2.2⟩
  | _, .text _, h => ⟨h.1, h.2.2⟩

theorem legalAll_of_normalAll : ∀ {inherited : Option String} {ns : List Node}, normalAll inherited ns → legalAll ns
  | _, [], _ => trivial
  | _, _ :: _, h => ⟨Node.Normal.legal h.1, legalAll_of_normalAll h.2⟩

end

mutual

theorem Node.Normal.stable :
    ∀ {inherited : Option String} {n : Node}, n.Normal inherited → n.Stable prefixes inherited
  | _, .element _ _, h => ⟨h.1.stable, h.2.1, stableAll_of_normalAll h.2.2⟩
  | _, .text _, h => h.2.1

theorem stableAll_of_normalAll :
    ∀ {inherited : Option String} {ns : List Node}, normalAll inherited ns → stableAll prefixes inherited ns
  | _, [], _ => trivial
  | _, _ :: _, h => ⟨Node.Normal.stable h.1, stableAll_of_normalAll h.2⟩

end

/-- **Reading undoes writing** on trees in normal form, up to lines. -/
theorem parse_toXml (e : Element) (h : e.toNode.Normal none) :
    ∃ root, parse e.toXml = .ok root ∧ root.unlined = e.unlined := by
  obtain ⟨u, ns⟩ := e
  obtain ⟨hu, hapart, hns⟩ := h
  have hnone : u.prefixes = [] := hu.prefixes
  have hlegal : (Element.mk u ns).Legal := by
    refine ⟨hu.legal, ?_, legalAll_of_normalAll hns⟩
    rw [hnone]
    exact ⟨List.forall_mem_nil _, List.forall_mem_nil _, List.nodup_nil⟩
  have hstable : (Element.mk u ns).Stable := by
    refine ⟨hu.stable, ?_, hapart, stableAll_of_normalAll hns⟩
    rw [hnone]
    exact ⟨List.forall_mem_nil _, List.forall_mem_nil _⟩
  obtain ⟨root, hparse, htag, hchildren, hknown⟩ := exists_parse_toXml hlegal hstable
  have hempty : root.tag.prefixes = [] := by
    rw [List.eq_nil_iff_forall_not_mem]
    intro d hd
    have hmem := hknown d hd
    rw [hnone] at hmem
    cases hmem
  refine ⟨root, hparse, ?_⟩
  rw [Element.unlined, Element.unlined, hchildren, htag, hempty, ← hnone]

/-- Escapes in a value and in texts, and a namespace that changes. -/
theorem parse_toXml_mixed :
    let e : Element := ⟨{ name := "math", space := some "u", attributes := [("alttext", "\"a\" < b".toList)] },
      [.text "a & b".toList, .element { name := "svg", space := some "v" } [.text "]]>".toList]]⟩
    e.toNode.Normal none ∧ ∃ root, parse e.toXml = .ok root ∧ root.unlined = e.unlined := by
  intro e
  have hspace : ∀ u v : String, u = "u" ∨ u = "v" → some u = some v → IsSpaceName v ∧ IsPlain v.toList := by
    rintro u v hu huv
    obtain rfl := Option.some.inj huv
    rcases hu with rfl | rfl <;> exact ⟨⟨by decide, by decide, by decide⟩, by decide⟩
  have hkeys : ∀ a ∈ e.tag.attributes, IsLocalName a.1.toList ∧ a.1 ≠ "xmlns" := by
    intro a ha
    obtain rfl := List.mem_singleton.1 ha
    exact ⟨IsWord.isLocalName (by decide), by decide⟩
  have hsvg : Tag.Normal (some "u") { name := "svg", space := some "v" } :=
    ⟨IsWord.isLocalName (by decide), List.forall_mem_nil _, List.nodup_nil, List.forall_mem_nil _,
      fun w => hspace "v" w (Or.inr rfl), by simp, rfl⟩
  have hmath : e.tag.Normal none :=
    ⟨IsWord.isLocalName (by decide), hkeys, by decide, by decide, fun w => hspace "u" w (Or.inl rfl), by simp [e], rfl⟩
  have hnormal : e.toNode.Normal none :=
    ⟨hmath, by decide, ⟨by decide, by decide, by decide⟩,
      ⟨hsvg, by decide, ⟨by decide, by decide, by decide⟩, trivial⟩, trivial⟩
  exact ⟨hnormal, parse_toXml e hnormal⟩

end MathMarkup.Xml
