import MathMarkup.Proofs.Xml.Heads

/-!
# What start tags are read into

Values and texts that are read consist of characters that XML admits, and names are names without colons. So the
element of a start tag can be written again (`Tag.Legal`), and the prefixes that its attributes are known by are the
prefixes that are noted for it (`Tag.used`).

Main statement: `legal_of_readStartTag`.
-/

namespace MathMarkup.Xml

open Text

variable {c c' : Cursor} {s t : List Char} {a a' : Attributes} {scope parent : Scope} {p : Position}

/-! ## Characters -/

theorem isAdmitted_cons {d : Char} : IsAdmitted (d :: s) ↔ Cursor.isAdmitted d = true ∧ IsAdmitted s :=
  List.forall_mem_cons

theorem IsAdmitted.of_subset (h : IsAdmitted t) (hsub : s ⊆ t) : IsAdmitted s := fun d hd => h d (hsub hd)

theorem isAdmitted_of_admittedFrom {stop : List Char → Bool} (h : Cursor.admittedFrom stop p s = .ok (t, c')) :
    IsAdmitted t := by
  induction s generalizing p t with
  | nil =>
    obtain ⟨rfl, -⟩ := Prod.mk.inj (Except.ok.inj h)
    exact List.forall_mem_nil _
  | cons d s ih =>
    rw [Cursor.admittedFrom] at h
    split at h
    · cases h
    · rename_i hd
      split at h
      · obtain ⟨rfl, -⟩ := Prod.mk.inj (Except.ok.inj h)
        exact List.forall_mem_nil _
      · obtain ⟨⟨text, rest⟩, hrest, heq⟩ := map_eq_ok.1 h
        obtain ⟨rfl, rfl⟩ := Prod.mk.inj heq
        rw [Bool.not_eq_true, Bool.not_eq_false'] at hd
        exact isAdmitted_cons.2 ⟨hd, ih hrest⟩

/-! ## References -/

theorem isAdmitted_of_numbered? {radix : Nat} {digits : List Char} {r : Reference}
    (h : numbered? radix digits = some r) : ∃ d, r = .char d ∧ Cursor.isAdmitted d = true := by
  unfold numbered? at h
  dsimp only at h
  split at h
  · cases h
  · split at h
    · rename_i hadmitted
      exact ⟨_, (Option.some.inj h).symm, hadmitted⟩
    · cases h

theorem isAdmitted_of_named {name : List Char} {d : Char} (h : named name = .char d) : Cursor.isAdmitted d = true := by
  unfold named at h
  split at h
  · rename_i e hlookup
    obtain rfl : e = d := Reference.char.inj h
    obtain ⟨before, after, hsplit, -⟩ := List.lookup_eq_some_iff.1 hlookup
    have hmem : (String.ofList name, e) ∈ predefined := by
      rw [hsplit]
      exact List.mem_append_right _ List.mem_cons_self
    exact (by decide : ∀ q ∈ predefined, Cursor.isAdmitted q.2 = true) _ hmem
  · cases h

theorem suffix_of_splitNumber? {radix : Nat} {r : Reference} (h : splitNumber? radix s = some (r, t)) :
    (∃ d, r = .char d ∧ Cursor.isAdmitted d = true) ∧ t <:+ s := by
  obtain ⟨r', hr, heq⟩ := Option.map_eq_some_iff.1 h
  obtain ⟨rfl, rfl⟩ := Prod.mk.inj heq
  exact ⟨isAdmitted_of_numbered? hr, List.dropWhile_suffix _⟩

/-- A character that a reference stands for is admitted, and what is behind it was there before. -/
theorem suffix_of_splitReference? {d : Char} (h : splitReference? s = some (.char d, t)) :
    Cursor.isAdmitted d = true ∧ t <:+ s := by
  simp only [splitReference?, Option.bind_eq_bind, Option.bind_eq_some_iff, Prod.exists, Option.pure_def,
    Option.some.injEq, Prod.mk.injEq] at h
  obtain ⟨r, rest, hunclosed, rest', hclose, rfl, rfl⟩ := h
  have hbehind : rest' <:+ rest := ⟨[';'], (after?_eq_some_iff.1 hclose).symm⟩
  unfold splitUnclosed? at hunclosed
  split at hunclosed
  · obtain ⟨⟨d', heq, hd⟩, hrest⟩ := suffix_of_splitNumber? hunclosed
    obtain rfl := Reference.char.inj heq
    exact ⟨hd, (hbehind.trans hrest).trans ((List.suffix_cons _ _).trans (List.suffix_cons _ _))⟩
  · obtain ⟨⟨d', heq, hd⟩, hrest⟩ := suffix_of_splitNumber? hunclosed
    obtain rfl := Reference.char.inj heq
    exact ⟨hd, (hbehind.trans hrest).trans (List.suffix_cons _ _)⟩
  · obtain ⟨⟨name, rest''⟩, hname, heq⟩ := Option.map_eq_some_iff.1 hunclosed
    obtain ⟨hnamed, rfl⟩ := Prod.mk.inj heq
    refine ⟨isAdmitted_of_named hnamed, hbehind.trans ?_⟩
    unfold splitName? at hname
    split at hname
    · cases hname
    · split at hname
      · obtain ⟨-, rfl⟩ := Prod.mk.inj (Option.some.inj hname)
        exact (List.dropWhile_suffix _).trans (List.suffix_cons _ _)
      · cases hname

theorem isAdmitted_of_resolve {letters : List Letter} (h : resolve p s = .ok letters) (hs : IsAdmitted s) :
    IsAdmitted (letters.map Letter.char) := by
  fun_induction resolve p s generalizing letters with
  | case1 =>
    obtain rfl := Except.ok.inj h
    exact List.forall_mem_nil _
  | case2 p d s hd ih =>
    obtain ⟨rest, hrest, rfl⟩ := map_eq_ok.1 h
    exact isAdmitted_cons.2 ⟨(isAdmitted_cons.1 hs).1, ih hrest (isAdmitted_cons.1 hs).2⟩
  | case3 => cases h
  | case4 => cases h
  | case5 p d s hd e rest hsplit hless ih =>
    obtain ⟨tail, htail, rfl⟩ := map_eq_ok.1 h
    obtain ⟨he, hrest⟩ := suffix_of_splitReference? hsplit
    exact isAdmitted_cons.2 ⟨he, ih htail ((isAdmitted_cons.1 hs).2.of_subset hrest.subset)⟩
  | case6 => cases h

/-! ## Values and texts -/

theorem isAdmitted_normalizeBlanks {letters : List Letter} (h : IsAdmitted (letters.map Letter.char)) :
    IsAdmitted (normalizeBlanks letters) := by
  induction letters with
  | nil => exact List.forall_mem_nil _
  | cons u rest ih =>
    obtain ⟨d, referenced⟩ := u
    obtain ⟨hd, hrest⟩ := isAdmitted_cons.1 h
    cases referenced with
    | true => exact isAdmitted_cons.2 ⟨hd, ih hrest⟩
    | false =>
      rw [normalizeBlanks]
      split
      · exact ih hrest
      · refine isAdmitted_cons.2 ⟨?_, ih hrest⟩
        split
        · decide
        · exact hd

theorem isAdmitted_of_attributeValue (h : attributeValue p s = .ok t) (hs : IsAdmitted s) : IsAdmitted t := by
  obtain ⟨letters, hletters, rfl⟩ := map_eq_ok.1 h
  exact isAdmitted_normalizeBlanks (isAdmitted_of_resolve hletters hs)

theorem isAdmitted_appendWritten {d : Char} (hs : IsAdmitted s) (hd : Cursor.isAdmitted d = true) (last : Bool) :
    IsAdmitted (appendWritten s d last) := by
  have hfeed : Cursor.isAdmitted '\n' = true := by decide
  unfold appendWritten
  split
  · have htail := (isAdmitted_cons.1 hs).2
    split
    · exact isAdmitted_cons.2 ⟨hfeed, isAdmitted_cons.2 ⟨hfeed, htail⟩⟩
    · split
      · exact isAdmitted_cons.2 ⟨hfeed, htail⟩
      · exact isAdmitted_cons.2 ⟨hd, isAdmitted_cons.2 ⟨hfeed, htail⟩⟩
  · split
    · exact isAdmitted_cons.2 ⟨hfeed, hs⟩
    · exact isAdmitted_cons.2 ⟨hd, hs⟩

theorem isAdmitted_normalizeLines {letters : List Letter} (h : IsAdmitted (letters.map Letter.char)) (hs : IsAdmitted s)
    (asIs : Bool) : IsAdmitted (normalizeLines asIs s letters) := by
  induction letters generalizing s asIs with
  | nil => exact fun d hd => hs d (List.mem_reverse.1 hd)
  | cons u rest ih =>
    obtain ⟨hd, hrest⟩ := isAdmitted_cons.1 h
    rw [normalizeLines]
    split
    · exact ih hrest (isAdmitted_cons.2 ⟨hd, hs⟩) _
    · exact ih hrest (isAdmitted_appendWritten hs hd _) _

theorem isAdmitted_of_characterData (h : characterData p s = .ok t) (hs : IsAdmitted s) : IsAdmitted t := by
  unfold characterData at h
  split at h
  · obtain ⟨letters, hletters, rfl⟩ := map_eq_ok.1 h
    exact isAdmitted_normalizeLines (isAdmitted_of_resolve hletters hs) (List.forall_mem_nil _) _
  · exact Except.ok.inj h ▸ hs

theorem isAdmitted_of_readText (h : readText c = .ok (s, c')) : IsAdmitted s := by
  obtain ⟨raw, hraw, -, hdata⟩ := readText_eq_ok.1 h
  exact isAdmitted_of_characterData hdata (isAdmitted_of_admittedFrom hraw)

theorem isAdmitted_of_readSection (h : readSection c = .ok (s, c')) : IsAdmitted s := by
  obtain ⟨text, c₁, htext, -, rfl⟩ := readSection_eq_ok.1 h
  refine isAdmitted_normalizeLines ?_ (List.forall_mem_nil _) _
  rw [List.map_map, show Letter.char ∘ (fun d => ⟨d, false⟩) = id from rfl, List.map_id]
  exact isAdmitted_of_admittedFrom htext

/-! ## Names -/

theorem isLocalName_of_ofChars? {name : QName} (h : QName.ofChars? s = some name)
    (hs : ∀ c ∈ s, isNamePart c = true) : IsLocalName name.localName := by
  have hfit : ∀ part : List Char, (∀ c ∈ part, isNamePart c = true ∧ c ≠ ':') → part.isEmpty = false →
      (part.head?.map isNameStart).getD true = true → IsLocalName part := by
    intro part hpart hne hstart
    cases part with
    | nil => cases hne
    | cons c part => exact ⟨⟨c, part, rfl, hstart⟩, hpart⟩
  unfold QName.ofChars? at h
  rw [List.span_eq_takeWhile_dropWhile] at h
  dsimp only at h
  split at h
  · rename_i word heq
    obtain ⟨rfl, -⟩ := Prod.mk.inj heq
    split at h
    · cases h
    · rename_i hgood
      rw [Bool.or_eq_true, not_or, Bool.not_eq_true, Bool.not_eq_true, Bool.not_eq_false'] at hgood
      obtain rfl := Option.some.inj h
      refine hfit _ (fun c hc => ⟨hs c ((List.takeWhile_prefix _).subset hc), ?_⟩) hgood.1 hgood.2
      have hcolon := List.mem_takeWhile_imp hc
      exact bne_iff_ne.1 hcolon
  · rename_i pre colon word heq
    obtain ⟨-, hword⟩ := Prod.mk.inj heq
    split at h
    · cases h
    · rename_i hgood
      simp only [Bool.or_eq_true, not_or, Bool.not_eq_true, Bool.not_eq_false'] at hgood
      obtain rfl := Option.some.inj h
      refine hfit word (fun c hc => ⟨hs c ?_, ?_⟩) hgood.1.1.2 hgood.2
      · exact (List.dropWhile_suffix _).subset (hword ▸ List.mem_cons_of_mem colon hc)
      · rintro rfl
        rw [List.contains_iff_mem.2 hc] at hgood
        exact absurd hgood.1.1.1 Bool.noConfusion

theorem isLocalName_of_qname {name : QName} (h : c.qname = .ok (name, c')) : IsLocalName name.localName :=
  isLocalName_of_ofChars? (Cursor.qname_eq_ok.1 h).1 fun _ hc => List.mem_takeWhile_imp hc

/-! ## Scopes -/

/-- Namespaces and prefixes that can be declared. -/
structure Scope.Legal (scope : Scope) : Prop where
  space : ∀ d ∈ scope, IsSpaceName d.2
  name : ∀ d ∈ scope, ∀ pre, d.1 = some pre → IsLocalName pre.toList ∧ pre ≠ "xml"

theorem Scope.Legal.nil : Scope.Legal [] := ⟨List.forall_mem_nil _, List.forall_mem_nil _⟩

theorem Scope.Legal.concat {own : Scope} (h : own.Legal) {d : Option String × String} (hspace : IsSpaceName d.2)
    (hname : ∀ pre, d.1 = some pre → IsLocalName pre.toList ∧ pre ≠ "xml") : Scope.Legal (own ++ [d]) := by
  constructor
  · rw [List.forall_mem_append]
    exact ⟨h.space, List.forall_mem_singleton.2 hspace⟩
  · rw [List.forall_mem_append]
    exact ⟨h.name, List.forall_mem_singleton.2 hname⟩

theorem Scope.Legal.extend {own : Scope} (h : own.Legal) (hparent : parent.Legal) : (own.extend parent).Legal := by
  have hmem : ∀ d ∈ own.extend parent, d ∈ own ∨ d ∈ parent := by
    unfold Scope.extend
    split
    · exact fun d => Or.inr
    · exact fun d => mem_foldl_new
  exact ⟨fun d hd => (hmem d hd).elim (h.space d) (hparent.space d),
    fun d hd => (hmem d hd).elim (h.name d) (hparent.name d)⟩

/-! ## Attributes -/

/-- Declarations and attributes that can be written again. -/
structure Attributes.Legal (a : Attributes) : Prop where
  own : a.own.Legal
  list : ∀ r ∈ a.list, IsLocalName r.name.localName ∧ r.name.localName ≠ "xmlns".toList ∧ IsAdmitted r.value

theorem Attributes.Legal.add (h : a.Legal) {name : QName} {value : List Char} (hname : IsLocalName name.localName)
    (hvalue : IsAdmitted value) (hadd : a.add name value p = .ok a') : a'.Legal := by
  have hcases := add_eq_ok.1 hadd
  have hadmitted : IsAdmitted (String.ofList value).toList := by rwa [String.toList_ofList]
  split at hcases
  · obtain ⟨own, hown, rfl⟩ := hcases
    obtain ⟨hxmlns, hxml, -, rfl⟩ := declarePrefix_eq_ok.1 hown
    refine ⟨?_, h.list⟩
    split
    · exact h.own
    · rename_i hspace
      refine h.own.concat ⟨hadmitted, hspace, hxmlns⟩ fun pre hpre => ?_
      obtain rfl := Option.some.inj hpre
      rw [String.toList_ofList]
      exact ⟨hname, fun heq => hspace (hxml.1 heq)⟩
  · split at hcases
    · obtain ⟨own, hown, rfl⟩ := hcases
      obtain ⟨hspace, hxmlns, rfl⟩ := declareDefault_eq_ok.1 hown
      refine ⟨h.own.concat ⟨hadmitted, hspace, hxmlns⟩ fun pre hpre => ?_, h.list⟩
      cases hpre
    · rename_i hlocal
      subst hcases
      refine ⟨h.own, ?_⟩
      rw [List.forall_mem_append]
      exact ⟨h.list, List.forall_mem_singleton.2 ⟨hname, hlocal, hvalue⟩⟩

theorem legal_of_readAttributes {tagEnd : TagEnd} (h : readAttributes ⟨[], []⟩ c = .ok (a, tagEnd, c')) : a.Legal := by
  refine readAttributes_induction h ⟨.nil, List.forall_mem_nil _⟩ fun hread hvalue hadd ha => ?_
  obtain ⟨c₁, c₂, quote, c₃, c₄, hname, -, -, -, hraw, -⟩ := readAttribute_eq_ok.1 hread
  exact ha.add (isLocalName_of_qname hname)
    (isAdmitted_of_attributeValue hvalue (isAdmitted_of_admittedFrom hraw)) hadd

/-! ## Prefixes in use -/

/-- The prefixes that the attributes of an element are known by. -/
def Tag.used (u : Tag) : List String := u.attributes.filterMap fun a => keyPrefix? a.1

/-- A prefix that is known is in scope. -/
theorem mem_of_knownPrefix? {space : Option String} {d : String × String} (h : knownPrefix? scope space = some d)
    (hxml : d.1 ≠ "xml") : (some d.1, d.2) ∈ scope := by
  obtain ⟨pre, u⟩ := d
  simp only [knownPrefix?, Option.bind_eq_bind, Option.bind_eq_some_iff] at h
  obtain ⟨v, -, pre', hpre, h⟩ := h
  split at h
  · cases h
  · obtain ⟨rfl, rfl⟩ := Prod.mk.inj (Option.some.inj h)
    unfold Scope.prefixOf? at hpre
    split at hpre
    · exact absurd (Option.some.inj hpre).symm hxml
    · obtain ⟨e, he, hename⟩ := Option.bind_eq_some_iff.1 hpre
      have hspace := List.find?_some he
      have hmem := List.mem_of_find?_eq_some he
      rw [← hename, ← eq_of_beq hspace]
      exact hmem

/-- An attribute is known by a name that can be written again, with the prefix that is noted. -/
theorem exists_keyed (hscope : scope.Legal) {r : RawAttribute} (hname : IsLocalName r.name.localName)
    (hxmlns : r.name.localName ≠ "xmlns".toList) (space : Option String) :
    ∃ name : QName, name.IsKey ∧ (keyed scope (space, r)).1 = name.render ∧
      ((knownPrefix? scope space).filter fun d => d.1 ≠ "xml").map Prod.fst = keyPrefix? name.render := by
  rw [keyed_eq, keyOf]
  cases hknown : knownPrefix? scope space with
  | none =>
    have hkey : QName.IsKey ⟨[], r.name.localName⟩ := ⟨Or.inl rfl, hname, hxmlns⟩
    exact ⟨_, hkey, rfl, by rw [keyPrefix?_render hkey, if_pos (Or.inl rfl)]; rfl⟩
  | some d =>
    by_cases hxml : d.1 = "xml"
    · have hword : IsLocalName "xml".toList := IsWord.isLocalName (by decide)
      have hkey : QName.IsKey ⟨"xml".toList, r.name.localName⟩ := ⟨Or.inr hword, hname, hxmlns⟩
      refine ⟨_, hkey, ?_, ?_⟩
      · rw [render_prefixed (by decide), String.ofList_toList, ← hxml]
      · rw [keyPrefix?_render hkey, if_pos (Or.inr rfl), Option.filter_some, if_neg (by simp [hxml])]
        rfl
    · have hpre := (hscope.name _ (mem_of_knownPrefix? hknown hxml) d.1 rfl).1
      have hne : d.1.toList ≠ [] := by
        obtain ⟨x, rest, hcons, -⟩ := hpre.start
        rw [hcons]
        exact List.cons_ne_nil _ _
      have hkey : QName.IsKey ⟨d.1.toList, r.name.localName⟩ := ⟨Or.inr hpre, hname, hxmlns⟩
      refine ⟨_, hkey, ?_, ?_⟩
      · rw [render_prefixed hne, String.ofList_toList]
      · have hneither : ¬(d.1.toList = [] ∨ d.1.toList = "xml".toList) :=
          fun heq => heq.elim hne fun heq => hxml (String.toList_inj.1 heq)
        rw [keyPrefix?_render hkey, if_neg hneither, Option.filter_some, if_pos (by simpa using hxml),
          String.ofList_toList]
        rfl

/-! ## Start tags -/

/-- A start tag whose element can be written again, and whose prefixes are those of its attributes. -/
structure StartTag.Legal (u : StartTag) : Prop where
  tag : u.tag.Legal
  bare : u.tag.prefixes = []
  scope : u.scope.Legal
  known : ∀ d ∈ u.prefixes, IsLocalName d.1.toList ∧ d.1 ≠ "xml" ∧ IsSpaceName d.2
  used : u.prefixes.map Prod.fst = u.tag.used

theorem map_snd_of_resolveAttributes {seen : List (Option String × List Char)} {list : List RawAttribute}
    {resolved : List (Option String × RawAttribute)} (h : resolveAttributes scope seen list = .ok resolved) :
    resolved.map Prod.snd = list := by
  induction list generalizing seen resolved with
  | nil =>
    obtain rfl := Except.ok.inj h
    rfl
  | cons r list ih =>
    obtain ⟨space, rest, -, -, hrest, rfl⟩ := resolveAttributes_cons_eq_ok.1 h
    rw [List.map_cons, ih hrest]

theorem isSpaceName_of_spaceOf? (h : scope.Legal) {pre : Option String} {u : String}
    (hfound : scope.spaceOf? pre = some u) : IsSpaceName u := by
  obtain ⟨before, after, hsplit, -⟩ := List.lookup_eq_some_iff.1 hfound
  have hmem : (pre, u) ∈ scope := by
    rw [hsplit]
    exact List.mem_append_right _ List.mem_cons_self
  exact h.space _ hmem

theorem isSpaceName_of_elementSpace (h : scope.Legal) {name : QName} {found : Option String} {u : String}
    (hfound : elementSpace scope p name = .ok found) (hu : found = some u) : IsSpaceName u := by
  subst hu
  unfold elementSpace at hfound
  split at hfound
  · exact isSpaceName_of_spaceOf? h (Except.ok.inj hfound)
  · obtain ⟨v, hv, heq⟩ := map_eq_ok.1 hfound
    obtain rfl := Option.some.inj heq
    unfold resolvePrefix at hv
    split at hv
    · rename_i hlookup
      obtain rfl := Except.ok.inj hv
      exact isSpaceName_of_spaceOf? h hlookup
    · cases hv

theorem legal_of_makeTag {name : QName} {u : StartTag} (ha : a.Legal) (hparent : parent.Legal)
    (hname : IsLocalName name.localName) (h : makeTag parent p name a = .ok u) : u.Legal := by
  obtain ⟨resolved, space, hresolved, hspace, rfl⟩ := makeTag_eq_ok.1 h
  have hscope := ha.own.extend hparent
  have hlist := ha.list
  rw [← map_snd_of_resolveAttributes hresolved, List.forall_mem_map] at hlist
  have hkeyed := fun b (hb : b ∈ resolved) => exists_keyed hscope (hlist b hb).1 (hlist b hb).2.1 b.1
  constructor
  · constructor
    · rwa [String.toList_ofList]
    · exact fun v hv => isSpaceName_of_elementSpace hscope hspace hv
    · rw [List.forall_mem_map]
      intro b hb
      obtain ⟨key, hkey, hrender, -⟩ := hkeyed b hb
      exact ⟨key, hkey, hrender⟩
    · rw [List.forall_mem_map]
      intro b hb
      rw [keyed_eq]
      exact (hlist b hb).2.2
  · rfl
  · exact hscope
  · intro d hd
    obtain ⟨hd, hxml⟩ := List.mem_filter.1 hd
    obtain ⟨b, -, hknown⟩ := List.mem_filterMap.1 hd
    have hmem := mem_of_knownPrefix? hknown (of_decide_eq_true hxml)
    exact ⟨(hscope.name _ hmem d.1 rfl).1, (hscope.name _ hmem d.1 rfl).2, hscope.space _ hmem⟩
  · rw [Tag.used, List.filterMap_map, List.filter_filterMap, List.map_filterMap]
    refine List.filterMap_congr fun b hb => ?_
    obtain ⟨key, -, hrender, hprefix⟩ := hkeyed b hb
    rw [Function.comp_apply, hrender, ← hprefix]

/-- **A start tag that is read** has an element that can be written again. -/
theorem legal_of_readStartTag {u : StartTag} {tagEnd : TagEnd} (hparent : parent.Legal)
    (h : readStartTag parent c = .ok (some u, tagEnd, c')) : u.Legal := by
  obtain ⟨name, c₁, a, hname, -, hattributes, -, hmake⟩ := readStartTag_some_eq_ok.1 h
  exact legal_of_makeTag (legal_of_readAttributes hattributes) hparent (isLocalName_of_qname hname) hmake

end MathMarkup.Xml
