import MathMarkup.Proofs.Markup.Document
import MathMarkup.Proofs.Xml.Roots

/-!
# Elements that are written and read again

When an element whose name has no prefix is written and read again, it has the same name, and a namespace if it had
one, since the declaration of its namespace is the first one of its start tag.

Main statement: `tag_of_parse_toXml`.
-/

namespace MathMarkup.Xml

open Text MathML

variable {c c' : Cursor} {a a' : Attributes} {tagEnd : TagEnd} {s : List Char} {e root : Element}

/-! ## Names -/

theorem name_of_makeTag {parent : Scope} {start : Position} {name : QName} {t : StartTag}
    (h : makeTag parent start name a = .ok t) : t.tag.name.toList = name.localName := by
  obtain ⟨attributes, space, -, -, rfl⟩ := makeTag_eq_ok.1 h
  exact String.toList_ofList

/-! ## Declarations -/

/-- What is declared already stays in front. -/
theorem own_prefix_of_add {name : QName} {value : List Char} {p : Position} (h : a.add name value p = .ok a') :
    a.own <+: a'.own := by
  have hcases := add_eq_ok.1 h
  split at hcases
  · obtain ⟨own, hown, rfl⟩ := hcases
    obtain ⟨-, -, -, rfl⟩ := declarePrefix_eq_ok.1 hown
    split
    · exact List.prefix_refl _
    · exact List.prefix_append _ _
  · split at hcases
    · obtain ⟨own, hown, rfl⟩ := hcases
      obtain ⟨-, -, rfl⟩ := declareDefault_eq_ok.1 hown
      exact List.prefix_append _ _
    · subst hcases
      exact List.prefix_refl _

theorem own_prefix_of_readAttributes (h : readAttributes a c = .ok (a', tagEnd, c')) : a.own <+: a'.own :=
  readAttributes_induction (P := fun b => a.own <+: b.own) h (List.prefix_refl _) fun _ _ hadd ha =>
    ha.trans (own_prefix_of_add hadd)

/-- A start tag whose attributes begin with the declaration of a namespace has one. -/
theorem own_of_readAttributes_xmlns (h : readAttributes ⟨[], []⟩ c = .ok (a, tagEnd, c'))
    (hc : c.rest = ' ' :: ("xmlns".toList ++ '=' :: s)) : ∃ space own, a.own = (none, space) :: own := by
  have hhere : c.skipSpace.rest = "xmlns".toList ++ '=' :: s := by
    rw [rest_skipSpace, hc]
    rfl
  have hcases := readAttributes_eq_ok.1 h
  rw [hc, hhere, List.isEmpty_cons, if_neg Bool.false_ne_true] at hcases
  obtain ⟨-, -, name, raw, start, behind, value, b, hread, -, hadd, -, hrec⟩ := hcases
  obtain ⟨c₁, c₂, quote, c₃, c₄, hname, -⟩ := readAttribute_eq_ok.1 hread
  obtain ⟨c₁', hname', -⟩ := qname_of_isWord (by decide) (by decide) hhere
  rw [hname', Except.ok.injEq, Prod.mk.injEq] at hname
  have hlocal : (⟨[], "xmlns".toList⟩ : QName).localName = "xmlns".toList := rfl
  have hdeclare := add_eq_ok.1 hadd
  rw [← hname.1, if_neg (by decide), if_pos hlocal] at hdeclare
  obtain ⟨own, hown, rfl⟩ := hdeclare
  obtain ⟨rest, hrest⟩ := own_prefix_of_readAttributes hrec
  obtain ⟨-, -, rfl⟩ := declareDefault_eq_ok.1 hown
  exact ⟨_, rest, hrest.symm⟩

/-! ## Elements -/

/-- An element starts with its name, and with the declaration of its namespace right behind that. -/
theorem exists_toXml (e : Element) : ∃ x s, e.toXml = '<' :: (e.tag.name.toList ++ x :: s) ∧ isNamePart x = false ∧
    (e.tag.space.isSome = true → ∃ t, x :: s = ' ' :: ("xmlns".toList ++ '=' :: t)) := by
  obtain ⟨u, ns⟩ := e
  obtain ⟨y, t, hwrite, hy⟩ := exists_write_element none u ns
  cases hspace : u.space with
  | none =>
    obtain ⟨x, s, htail, hx⟩ := exists_writeTail none u hy t
    rw [htail] at hwrite
    exact ⟨x, s, hwrite, hx, fun hsome => absurd hsome Bool.false_ne_true⟩
  | some space =>
    have htail : ∃ rest, writeTail none u = ' ' :: ("xmlns".toList ++ '=' :: rest) := by
      rw [writeTail, hspace]
      simp [writeSpace, writeAttribute]
    obtain ⟨rest, hrest⟩ := htail
    rw [hrest] at hwrite
    exact ⟨' ', _, hwrite, by decide, fun _ => ⟨rest ++ y :: t, rfl⟩⟩

/-- **An element that is read again** has its name, and a namespace if it had one. -/
theorem tag_of_parse_toXml (hname : IsLocalName e.tag.name.toList) (h : parse e.toXml = .ok root) :
    root.tag.name = e.tag.name ∧ (e.tag.space.isSome = true → root.tag.space.isSome = true) := by
  obtain ⟨c, t, tagEnd, c', hprolog, hstart, hrootname, hrootspace⟩ := exists_startTag_of_parse h
  obtain ⟨name, c₁, a, hqname, -, hattributes, -, hmake⟩ := readStartTag_some_eq_ok.1 hstart
  obtain ⟨x, s, htext, hx, hspace⟩ := exists_toXml e
  -- nothing stands in front of the root
  have hrest : c.rest = '<' :: (e.tag.name.toList ++ x :: s) := by
    obtain ⟨y, rest, hy, hystart⟩ := hname.start
    rw [hy, List.cons_append] at htext ⊢
    obtain ⟨d, hd, hdrest⟩ := readProlog_of_cons (t := rest ++ x :: s) hystart
    rw [htext, hd] at hprolog
    rw [← Except.ok.inj hprolog, hdrest]
  obtain ⟨d, hd, hdrest⟩ := qname_of_isLocalName hname hx (rest_advance_one hrest)
  rw [hd, Except.ok.injEq, Prod.mk.injEq] at hqname
  obtain ⟨rfl, rfl⟩ := hqname
  refine ⟨hrootname.trans (String.toList_inj.1 (name_of_makeTag hmake)), fun hsome => ?_⟩
  obtain ⟨t', ht'⟩ := hspace hsome
  obtain ⟨value, own, hown⟩ := own_of_readAttributes_xmlns hattributes (hdrest.trans ht')
  obtain ⟨attributes, space, -, helement, rfl⟩ := makeTag_eq_ok.1 hmake
  rw [hown, extend_nil] at helement
  rw [hrootspace, ← Except.ok.inj helement]
  rfl

end MathMarkup.Xml
