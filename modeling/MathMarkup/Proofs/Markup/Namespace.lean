import MathMarkup.MathML.Process
import MathMarkup.Proofs.Markup.Grammar
import MathMarkup.Proofs.Markup.Written
import MathMarkup.Proofs.Repair.Completeness
import MathMarkup.Proofs.Xml.Legality

/-!
# The namespace of processed MathML

The namespace of a root that has none is added to the text, in the first `math` tag that is found there. Where
that is the start tag of the root (`findsRoot`), the text is read as before, with the root in the namespace
(`parse_declared`), and stays valid (`violations_eq_nil_of_like`). A root that is repaired is written with its
namespace.

Main theorem: `validate_process`.
-/

namespace MathMarkup.MathML

open Text Xml

variable {s u rest tag before : List Char} {c c' d : Cursor} {root : Element} {config : Config}

/-! ## A root that is declared -/

/-- The declaration of the namespace that is added to the text. -/
def declaration : List Char := (" xmlns=\"" ++ mathNamespace ++ "\"").toList

theorem declaration_eq : declaration = Markup.renderAttribute ("xmlns", mathNamespace.toList) := by decide +kernel

/-- A name without a colon in front that has no prefix is all of the word. -/
theorem eq_of_ofChars? {word name : List Char} (h : QName.ofChars? word = some ⟨[], name⟩)
    (hword : word.head? ≠ some ':') : word = name := by
  have hsplit := List.takeWhile_append_dropWhile (p := (· != ':')) (l := word)
  unfold QName.ofChars? at h
  rw [List.span_eq_takeWhile_dropWhile] at h
  dsimp only at h
  split at h
  · rename_i start heq
    obtain ⟨rfl, hnil⟩ := Prod.mk.inj heq
    split at h
    · cases h
    · rw [hnil, List.append_nil] at hsplit
      exact hsplit.symm.trans (congrArg QName.localName (Option.some.inj h))
  · rename_i pre colon rest heq
    obtain ⟨rfl, hrest⟩ := Prod.mk.inj heq
    split at h
    · cases h
    · -- the colon would be the first character
      have hpre : word.takeWhile (· != ':') = [] := congrArg QName.prefixName (Option.some.inj h)
      have hcolon := List.head?_dropWhile_not (· != ':') word
      rw [hrest, List.head?_cons] at hcolon
      rw [hpre, hrest, List.nil_append] at hsplit
      rw [← hsplit] at hword
      simp at hcolon
      exact absurd (congrArg some hcolon) hword

/-- Behind a name without a prefix its text has been read. -/
theorem rest_of_qname {name : List Char} (h : c.qname = .ok (⟨[], name⟩, c')) (hc : c.rest = name ++ rest)
    (hcolon : c.rest.head? ≠ some ':') : c'.rest = rest := by
  obtain ⟨hword, rfl⟩ := Cursor.qname_eq_ok.1 h
  have hname : c.rest.takeWhile isNamePart = name := by
    refine eq_of_ofChars? hword fun hhead => hcolon ?_
    rw [List.head?_takeWhile, Option.filter_eq_some_iff] at hhead
    exact hhead.1
  have hsplit := List.takeWhile_append_dropWhile (p := isNamePart) (l := c.rest)
  rw [hname] at hsplit
  rw [rest_span]
  exact List.append_cancel_left (hsplit.trans hc)

/-- **The start tag of the root** is read as before, and the root is in the namespace. -/
theorem readStartTag_declared {t : StartTag} {tagEnd : TagEnd} (hread : readStartTag [] c = .ok (some t, tagEnd, c'))
    (hname : t.tag.name = "math") (hbare : t.tag.space = none) (hc : c.rest = "<math".toList ++ rest)
    (hd : d.rest = "<math".toList ++ (declaration ++ rest)) :
    ∃ u d', readStartTag [] d = .ok (some u, tagEnd, d') ∧ t.Like mathNamespace u ∧
      u.tag.space = some mathNamespace ∧ d'.rest = c'.rest := by
  obtain ⟨name, c₁, a, hqname, -, hattributes, hend, hmake⟩ := readStartTag_some_eq_ok.1 hread
  have hlocal : name.localName = "math".toList := by rw [← name_of_makeTag hmake, hname]
  obtain ⟨attributes, space, hresolved, helement, rfl⟩ := makeTag_eq_ok.1 hmake
  rw [extend_nil] at helement
  obtain rfl : space = none := hbare
  -- a prefix would give the root a namespace
  obtain ⟨hplain, hspace⟩ := prefixName_of_elementSpace helement
  obtain rfl : name = ⟨[], "math".toList⟩ := by
    cases name
    exact congrArg₂ QName.mk hplain hlocal
  have hafter : (c.advance 1).rest = "math".toList ++ rest := rest_advance_one hc
  have hrest : c₁.rest = rest := by
    refine rest_of_qname hqname hafter ?_
    rw [hafter]
    exact fun h => absurd (Option.some.inj h) (by decide)
  rw [declaration_eq] at hd
  have hword : IsWord "math".toList := by decide
  obtain ⟨d₁, hd₁, h₁⟩ := qname_of_isWord hword (x := ' ') (by decide) (rest_advance_one hd)
  obtain ⟨d₂, hd₂, h₂⟩ := readAttributes_mathNamespace h₁
  have hlike : Attributes.Like [(none, mathNamespace)] ⟨[], []⟩ ⟨[(none, mathNamespace)], []⟩ := ⟨rfl, .nil⟩
  obtain ⟨b, d', hd', hab, hrest'⟩ := readAttributes_like hlike (by simp) (h₂.trans hrest.symm) hattributes
  have hwidens : Widens mathNamespace (a.own.extend []) (b.own.extend []) := by
    rw [extend_nil, extend_nil, hab.own]
    refine .insert [] a.own fun e he hnone => ?_
    have hne := List.lookup_eq_none_iff.1 hspace e he
    rw [hnone] at hne
    exact absurd hne (by decide)
  obtain ⟨u, hu, htu⟩ := makeTag_like hwidens hab.list hmake d.position
  refine ⟨u, d', readStartTag_some_eq_ok.2 ⟨_, d₁, b, hd₁, by decide, hd₂.trans hd', hend, hu⟩, htu, ?_, hrest'⟩
  obtain ⟨attributes', space', -, helement', rfl⟩ := makeTag_eq_ok.1 hu
  rw [hab.own, extend_nil] at helement'
  exact (Except.ok.inj helement').symm

/-- Where the root is entered alike, with the same text behind its start tag, all that is in it is read alike. -/
theorem parse_like {space : String} {s' : List Char} {t v : StartTag} {tagEnd : TagEnd} {d' : Cursor}
    (h : parse s = .ok root) (hprolog : readProlog (Cursor.start s) = .ok c) (hc : c.rest.head? = some '<')
    (htag : readStartTag [] c = .ok (some t, tagEnd, c')) (hprolog' : readProlog (Cursor.start s') = .ok d)
    (hd : d.rest.head? = some '<') (htag' : readStartTag [] d = .ok (some v, tagEnd, d')) (htv : t.Like space v)
    (hrest : d'.rest = c'.rest) : ∃ root', parse s' = .ok root' ∧ root.toNode.Like root'.toNode := by
  obtain ⟨e, prefixes, hread, rfl⟩ := parse_eq_ok.1 h
  obtain ⟨c₁, p, behind, hprolog₁, hrun, hmisc, hbehind, hopened, hproot, -⟩ := readRoot_eq_ok.1 hread
  obtain rfl : c = c₁ := Except.ok.inj (hprolog.symm.trans hprolog₁)
  rw [if_pos hc] at hrun
  obtain ⟨first, hfirst, hrun⟩ := hrun
  obtain ⟨t', tagEnd', c₂, htag₁, rfl⟩ := Xml.Progress.start_eq_ok.1 hfirst
  have hsame := Except.ok.inj (htag.symm.trans htag₁)
  obtain ⟨rfl, rfl, rfl⟩ : some t = t' ∧ tagEnd = tagEnd' ∧ c' = c₂ := by simpa using hsame
  have hstart : Xml.Progress.Like space ⟨c', [], false, [], none⟩ ⟨d', [], false, [], none⟩ :=
    ⟨hrest, .nil, rfl, .none⟩
  obtain ⟨q, hq, hpq⟩ := (hstart.enter htv tagEnd hrest).run hrun
  obtain ⟨behind', hmisc', hlast⟩ := (beside_of_rest_eq hpq.rest).skipMisc hmisc (before_nil _)
  obtain ⟨e', hqroot, hlike⟩ : ∃ e', q.root = some e' ∧ e.toNode.Like e'.toNode := by
    have hroots := hpq.root
    rw [hproot] at hroots
    generalize q.root = found at hroots ⊢
    cases hroots with
    | some hlike => exact ⟨_, rfl, hlike⟩
  have hqopened : q.opened = [] := by
    have hnil := hpq.opened
    rw [hopened] at hnil
    exact List.forall₂_nil_left_iff.1 hnil
  have hqrun : ∃ first, Xml.Progress.start ⟨d, [], false, [], none⟩ = .ok first ∧ first.run = .ok q :=
    ⟨_, Xml.Progress.start_eq_ok.2 ⟨some v, tagEnd, d', htag', rfl⟩, hq⟩
  have hparse : parse s' = .ok { e' with tag := { e'.tag with prefixes := q.prefixes } } := by
    refine parse_eq_ok.2 ⟨e', q.prefixes, readRoot_eq_ok.2 ⟨d, q, behind', hprolog', ?_, hmisc', ?_, hqopened, hqroot,
      rfl⟩, rfl⟩
    · rwa [if_pos hd]
    · rw [hlast.rest_eq, hbehind]
  exact ⟨_, hparse, ⟨hlike.1.name, hlike.1.get?⟩, hlike.2⟩

/-- **A root that is declared** is the same tree, in the namespace. -/
theorem parse_declared (h : parse (u ++ ("<math".toList ++ rest)) = .ok root) (hname : root.tag.name = "math")
    (hbare : root.tag.space = none) (hprolog : readProlog (Cursor.start (u ++ ("<math".toList ++ rest))) = .ok c)
    (hc : c.rest = "<math".toList ++ rest) :
    ∃ root', parse (u ++ ("<math".toList ++ (declaration ++ rest))) = .ok root' ∧ root.toNode.Like root'.toNode ∧
      root'.tag.space = some mathNamespace := by
  -- what stands in front of the root is read as before
  have hbeside : Beside ("<math".toList ++ rest) ("<math".toList ++ (declaration ++ rest))
      (Cursor.start (u ++ ("<math".toList ++ rest))) (Cursor.start (u ++ ("<math".toList ++ (declaration ++ rest)))) :=
    ⟨.tag _ _, u, rfl, rfl⟩
  obtain ⟨d, hd, hcd⟩ := hbeside.readProlog hprolog (by rw [Before, hc])
  have hdrest : d.rest = "<math".toList ++ (declaration ++ rest) := by
    obtain ⟨v, hcv, hdv⟩ := hcd.rest
    rw [hc, List.self_eq_append_left] at hcv
    rwa [hcv] at hdv
  -- so is the start tag of the root, and then all that is in it
  obtain ⟨c₀, t, tagEnd, c', hprolog', htag, hroot⟩ := exists_startTag_of_parse h
  obtain rfl : c = c₀ := Except.ok.inj (hprolog.symm.trans hprolog')
  obtain ⟨v, d', hv, htv, hspace, hrest'⟩ := readStartTag_declared htag (hroot.1.symm.trans hname)
    (hroot.2.symm.trans hbare) hc hdrest
  obtain ⟨root', hparse, hlike⟩ := parse_like h hprolog (by rw [hc]; rfl) htag hd (by rw [hdrest]; rfl) hv htv hrest'
  refine ⟨root', hparse, hlike, ?_⟩
  obtain ⟨d₀, v', tagEnd₀, d₂, hd₀, hv', -, hspace'⟩ := exists_startTag_of_parse hparse
  obtain rfl : d = d₀ := Except.ok.inj (hd.symm.trans hd₀)
  have hv'' := Except.ok.inj (hv.symm.trans hv')
  obtain ⟨rfl, -⟩ : v = v' ∧ _ := by simpa using hv''
  exact hspace'.trans hspace

/-! ## The tag that is found -/

/-- The tag is found in the text. -/
theorem exists_of_breakAtMath? (h : breakAtMath? s = some (before, tag, rest)) :
    ∃ u, before = u ++ "<math".toList ∧ s = u ++ ("<math".toList ++ rest) := by
  induction s generalizing before with
  | nil => cases h
  | cons a s ih =>
    have hlater : (breakAtMath? s).map (fun found => (a :: found.1, found.2.1, found.2.2)) =
        some (before, tag, rest) → ∃ u, before = u ++ "<math".toList ∧ a :: s = u ++ ("<math".toList ++ rest) := by
      intro hmap
      obtain ⟨⟨before', tag', rest'⟩, hbreak, heq⟩ := Option.map_eq_some_iff.1 hmap
      cases heq
      obtain ⟨u, rfl, rfl⟩ := ih hbreak
      exact ⟨a :: u, rfl, rfl⟩
    rw [breakAtMath?] at h
    dsimp only at h
    split at h
    · rename_i rest' hafter
      split at h
      · cases h
        have htext := eq_append_of_after? hafter
        exact ⟨[], rfl, htext⟩
      · exact hlater h
    · exact hlater h

/-- Is the first `math` tag that is found in the text the start tag of the root, without the word `xmlns=`? -/
def findsRoot (s : List Char) : Bool :=
  match breakAtMath? s, readProlog (Cursor.start s) with
  | some (_, tag, rest), .ok c => !contains "xmlns=".toList tag && c.rest == "<math".toList ++ rest
  | _, _ => false

theorem exists_of_findsRoot (h : findsRoot s = true) : ∃ before tag rest c, breakAtMath? s = some (before, tag, rest) ∧
    contains "xmlns=".toList tag = false ∧ readProlog (Cursor.start s) = .ok c ∧ c.rest = "<math".toList ++ rest := by
  unfold findsRoot at h
  split at h
  · rename_i before tag rest c hbreak hprolog
    rw [Bool.and_eq_true, Bool.not_eq_true', beq_iff_eq] at h
    exact ⟨before, tag, rest, c, hbreak, h.1, hprolog, h.2⟩
  · cases h

/-! ## Validation -/

theorem isValid_validate_iff : (validate config s).isValid = true ↔ ∃ root, parse s = .ok root ∧
    root.tag.name = "math" ∧ (∀ space, root.tag.space = some space → space = mathNamespace) ∧
      (config.grammarChecks = true → violations root.toNode = []) := by
  rw [validate]
  cases parse s with
  | error => simp [Validation.isValid]
  | ok root =>
    simp only [Except.ok.injEq, exists_eq_left']
    rw [Validation.isValid, validateTree, List.isEmpty_iff, List.append_eq_nil_iff, List.append_eq_nil_iff, and_assoc]
    refine and_congr ?_ (and_congr ?_ ?_)
    · rw [rootViolations]
      split
      · rename_i hname
        exact ⟨fun _ => hname, fun _ => rfl⟩
      · rename_i hname
        exact iff_of_false (List.cons_ne_nil _ _) hname
    · rw [spaceViolations]
      cases root.tag.space with
      | none => simp only [reduceCtorEq, false_implies, implies_true]
      | some space =>
        simp only [Option.some.injEq, forall_eq']
        split
        · rename_i hspace
          exact ⟨fun _ => hspace, fun _ => rfl⟩
        · rename_i hspace
          exact iff_of_false (List.cons_ne_nil _ _) hspace
    · cases config.grammarChecks with
      | true => exact ⟨fun h _ => h, fun h => h rfl⟩
      | false => simp

theorem lacksNamespace_of_parse (h : parse s = .ok root) :
    (validate config s).lacksNamespace = root.tag.space.isNone := by
  rw [validate, h]
  rfl

/-- A repaired text that is valid is a repaired root that was written. -/
theorem exists_of_isValid_repair (hinvalid : (validate config s).isValid = false)
    (h : (validate config (repair s (validate config s)).text).isValid = true) :
    ∃ root, parse s = .ok root ∧ (repair s (validate config s)).text = (repairedRoot root).toXml := by
  -- a text that is left as it is stays invalid
  have hchanged : (repair s (validate config s)).text ≠ s := by
    intro heq
    rw [heq, hinvalid] at h
    cases h
  unfold repair at hchanged ⊢
  split at hchanged
  · exact absurd rfl hchanged
  · rename_i hcond
    rw [if_neg hcond]
    split at hchanged
    · rename_i root hparse
      exact ⟨root, hparse, rfl⟩
    · exact absurd rfl hchanged

/-- **Repair leaves no root without the namespace**, where it leaves a valid fragment. -/
theorem lacksNamespace_repair (hinvalid : (validate config s).isValid = false)
    (h : (validate config (repair s (validate config s)).text).isValid = true) :
    (validate config (repair s (validate config s)).text).lacksNamespace = false := by
  obtain ⟨root, hparse, htext⟩ := exists_of_isValid_repair hinvalid h
  rw [htext] at h ⊢
  obtain ⟨root', hparse', hname', -⟩ := isValid_validate_iff.1 h
  have hname : (repairedRoot root).tag.name = root.tag.name := by
    rw [tag_repairedRoot, withNamespace]
    split <;> rfl
  obtain ⟨hsame, hspace⟩ := tag_of_parse_toXml (hname ▸ (legal_of_parse hparse).1.tag.name) hparse'
  rw [lacksNamespace_of_parse hparse', ← Option.not_isSome, hspace ?_, Bool.not_true]
  -- the root is `math`, so repair has given it a namespace
  rw [tag_repairedRoot, withNamespace]
  split
  · rfl
  · rename_i hneeds
    have hmath : (withRequired root.tag).name = "math" := hname.symm.trans (hsame.symm.trans hname')
    rw [needsNamespace, hmath, beq_self_eq_true, Bool.true_and, Bool.not_eq_true, ← Option.not_isSome,
      Bool.not_eq_false'] at hneeds
    exact hneeds

theorem ensureNamespace_eq (h : breakAtMath? s = some (before, tag, rest))
    (hcontains : contains "xmlns=".toList tag = false) : ensureNamespace s = before ++ declaration ++ rest := by
  rw [ensureNamespace, h]
  simp only [hcontains, Bool.false_eq_true, if_false]
  rfl

/-- **The namespace is added where the root is found.** -/
theorem validate_ensureNamespace (hvalid : (validate config s).isValid = true)
    (hlacks : (validate config s).lacksNamespace = true) (hfinds : findsRoot s = true) :
    (validate config (ensureNamespace s)).isValid = true ∧
      (validate config (ensureNamespace s)).lacksNamespace = false := by
  obtain ⟨before, tag, rest, c, hbreak, hcontains, hprolog, hc⟩ := exists_of_findsRoot hfinds
  rw [ensureNamespace_eq hbreak hcontains]
  obtain ⟨u, rfl, rfl⟩ := exists_of_breakAtMath? hbreak
  obtain ⟨root, hparse, hname, -, hviolations⟩ := isValid_validate_iff.1 hvalid
  rw [lacksNamespace_of_parse hparse, Option.isNone_iff_eq_none] at hlacks
  obtain ⟨root', hparse', hlike, hspace⟩ := parse_declared hparse hname hlacks hprolog hc
  rw [List.append_assoc, List.append_assoc]
  refine ⟨isValid_validate_iff.2
    ⟨root', hparse', hlike.1.name.trans hname, fun space hsome => ?_, fun hchecks => ?_⟩, ?_⟩
  · rw [hspace] at hsome
    exact (Option.some.inj hsome).symm
  · exact violations_eq_nil_of_like hlike (hviolations hchecks)
  · rw [lacksNamespace_of_parse hparse', hspace]
    rfl

/-- **Valid MathML stays valid**, and carries the namespace. Whatever the configuration: what processing gives
for a fragment that is reported as valid is accepted by the same validator, which finds no namespace to add.
A fragment that is accepted as it is, with a root without a namespace, must have this root as the first `math`
tag in its text, without the word `xmlns=` in it. -/
theorem validate_process (config : Config) (raw : List Char) (h : (process config raw).isValid = true)
    (hfinds : (validate config (entered config raw)).isValid = true →
      (validate config (entered config raw)).lacksNamespace = true → findsRoot (entered config raw) = true) :
    (validate config (process config raw).normalized).isValid = true ∧
      (validate config (process config raw).normalized).lacksNamespace = false := by
  unfold process at h ⊢
  dsimp only at h ⊢
  generalize entered config raw = s at h hfinds ⊢
  split at h
  · rename_i hvalid
    rw [if_pos hvalid]
    dsimp only
    split
    · rename_i hlacks
      exact validate_ensureNamespace hvalid hlacks (hfinds hvalid hlacks)
    · rename_i hlacks
      exact ⟨hvalid, Bool.eq_false_iff.2 hlacks⟩
  · rename_i hinvalid
    rw [if_neg hinvalid]
    split at h
    · rename_i hrepaired
      rw [if_pos hrepaired]
      exact ⟨hrepaired, lacksNamespace_repair (Bool.eq_false_iff.2 hinvalid) hrepaired⟩
    · cases h

/-- A comment in front of the root, and an angle bracket in its start tag. -/
theorem validate_process_comment :
    (validate {} (process {} "<!-- a --><math alttext='a>b'><mi>x</mi></math>".toList).normalized).isValid = true ∧
      (validate {} (process {} "<!-- a --><math alttext='a>b'><mi>x</mi></math>".toList).normalized).lacksNamespace =
        false :=
  validate_process {} _ (by decide +kernel) fun _ _ => by decide +kernel

/-- A `math` tag in a comment gets the declaration, or an attribute with the word in it stands for one: the fragment is
reported as valid, and its root has no namespace. -/
theorem validate_process_unfound :
    ((process {} "<!-- <math> --><math><mi>x</mi></math>".toList).isValid = true ∧
      (validate {} (process {} "<!-- <math> --><math><mi>x</mi></math>".toList).normalized).lacksNamespace = true) ∧
    (process {} "<math alttext=\"xmlns=\"><mi>x</mi></math>".toList).isValid = true ∧
      (validate {} (process {} "<math alttext=\"xmlns=\"><mi>x</mi></math>".toList).normalized).lacksNamespace =
        true := by
  decide +kernel

end MathMarkup.MathML
