import Mathlib.Data.List.Forall2
import MathMarkup.Proofs.Xml.Readers
import MathMarkup.Proofs.Xml.Tags

/-!
# Start tags of trees are read as they are written

A value without blanks other than spaces is read as it is written (`attributeValue_escapeAttribute`), and so is a text
without carriage returns (`characterData_escapeText`).

What every tag that was read has is `Tag.Legal`; what it takes to be read again is `Tag.Stable`. All prefixes are
declared on the root, so that the namespaces in scope are those of `writtenScope` everywhere in a tree.

Main statement: `readStartTag_writeHead`.
-/

namespace MathMarkup.Xml

open Text

variable {c : Cursor} {s t : List Char} {a : Attributes} {prefixes : List (String × String)} {space : Option String}

/-! ## Values -/

/-- There is no blank but spaces. -/
def IsPlain (s : List Char) : Prop := '\t' ∉ s ∧ '\n' ∉ s ∧ '\r' ∉ s

instance : DecidablePred IsPlain := fun _ => inferInstanceAs (Decidable (_ ∧ _ ∧ _))

theorem normalizeBlanks_eq {letters : List Letter} (h : IsPlain (letters.map Letter.char)) :
    normalizeBlanks letters = letters.map Letter.char := by
  induction letters with
  | nil => rfl
  | cons u rest ih =>
    obtain ⟨d, referenced⟩ := u
    simp only [IsPlain, List.map_cons, List.mem_cons, not_or] at h
    obtain ⟨⟨htab, h₁⟩, ⟨hfeed, h₂⟩, hreturn, h₃⟩ := h
    have hrec := ih ⟨h₁, h₂, h₃⟩
    cases referenced with
    | true => rw [normalizeBlanks, hrec, List.map_cons]
    | false =>
      rw [normalizeBlanks, if_neg (fun hd => hreturn hd.1.symm), hrec, List.map_cons,
        if_neg (by simp [Ne.symm hfeed, Ne.symm hreturn, Ne.symm htab])]

theorem attributeValue_escapeAttribute (p : Position) (h : IsPlain s) :
    attributeValue p (escapeAttribute s) = .ok s := by
  obtain ⟨letters, hletters, rfl⟩ := resolve_flatMap isEscape_escapeAttributeChar p s
  rw [attributeValue, escapeAttribute, hletters, Except.map, normalizeBlanks_eq h]

theorem appendWritten_eq {text : List Char} (h : '\r' ∉ text) {d : Char} (hd : d ≠ '\r') (last : Bool) :
    appendWritten text d last = d :: text := by
  unfold appendWritten
  split
  · exact absurd List.mem_cons_self h
  · exact if_neg fun heq => hd heq.2

theorem normalizeLines_eq (asIs : Bool) {text : List Char} {letters : List Letter} (htext : '\r' ∉ text)
    (h : '\r' ∉ letters.map Letter.char) :
    normalizeLines asIs text letters = text.reverse ++ letters.map Letter.char := by
  induction letters generalizing asIs text with
  | nil => simp [normalizeLines]
  | cons u rest ih =>
    rw [List.map_cons, List.mem_cons, not_or] at h
    have hmore : '\r' ∉ u.char :: text := by simp [h.1, htext]
    rw [normalizeLines, appendWritten_eq htext (Ne.symm h.1)]
    split
    · simp [ih u.referenced hmore h.2]
    · simp [ih false hmore h.2]

theorem escapeText_eq_self (h : '&' ∉ escapeText s) : escapeText s = s := by
  induction s with
  | nil => rfl
  | cons d s ih =>
    rw [escapeText, List.flatMap_cons, ← escapeText] at h ⊢
    rw [List.mem_append, not_or] at h
    rw [ih h.2]
    rcases isEscape_escapeTextChar d with ⟨-, hd⟩ | ⟨name, -, -, hd⟩
    · rw [hd]
      rfl
    · rw [hd] at h
      exact absurd List.mem_cons_self h.1

theorem characterData_escapeText (p : Position) (h : '\r' ∉ s) : characterData p (escapeText s) = .ok s := by
  unfold characterData
  split
  · obtain ⟨letters, hletters, rfl⟩ := resolve_flatMap isEscape_escapeTextChar p s
    rw [escapeText, hletters, Except.map, normalizeLines_eq false (List.not_mem_nil) h]
    rfl
  · rename_i hany
    rw [escapeText_eq_self]
    intro hamp
    exact hany (List.any_eq_true.2 ⟨'&', hamp, by simp⟩)

/-! ## Declarations -/

/-- A namespace that can be declared. -/
structure IsSpaceName (u : String) : Prop where
  admitted : IsAdmitted u.toList
  ne_xml : u ≠ xmlSpace
  ne_xmlns : u ≠ xmlnsSpace

/-- Prefixes that can be declared together. -/
structure LegalPrefixes (prefixes : List (String × String)) : Prop where
  name : ∀ d ∈ prefixes, IsLocalName d.1.toList ∧ d.1 ≠ "xml"
  space : ∀ d ∈ prefixes, IsSpaceName d.2
  nodup : (prefixes.map Prod.fst).Nodup

/-- A plain value is read, and the reader goes on behind it with what the attribute adds. -/
theorem readAttributes_of_isPlain (a : Attributes) (word : String) {name : QName} (hname : Spells word.toList name)
    (hs : IsAdmitted s) (hplain : IsPlain s) (h : c.rest = writeAttribute word s ++ t) :
    ∃ position, ∀ b, a.add name s position = .ok b → ∃ c', readAttributes a c = readAttributes b c' ∧ c'.rest = t := by
  obtain ⟨p, read, position, hread, hstep⟩ := readAttributes_cons a word hname hs h
  rw [attributeValue_escapeAttribute p hplain, Except.ok.injEq] at hread
  subst hread
  exact ⟨position, hstep⟩

theorem isLocalName_xmlns : IsLocalName "xmlns".toList := IsWord.isLocalName (by decide)

/-- A default namespace is declared. -/
theorem readAttributes_xmlns (a : Attributes) {u : String} (hu : IsSpaceName u) (hplain : IsPlain u.toList)
    (h : c.rest = writeAttribute "xmlns" u.toList ++ t) :
    ∃ c', readAttributes a c = readAttributes { a with own := a.own ++ [(none, u)] } c' ∧ c'.rest = t := by
  obtain ⟨position, hstep⟩ := readAttributes_of_isPlain a "xmlns" isLocalName_xmlns.spells hu.admitted hplain h
  have hlocal : (⟨[], "xmlns".toList⟩ : QName).localName = "xmlns".toList := rfl
  refine hstep _ (add_eq_ok.2 ?_)
  rw [if_neg (by simp), if_pos hlocal, String.ofList_toList]
  refine ⟨_, ?_, rfl⟩
  rw [Scope.declareDefault, if_neg hu.ne_xml, if_neg hu.ne_xmlns]

/-- Prefixes are declared one after the other. -/
theorem readAttributes_prefixes (a : Attributes) (hprefixes : LegalPrefixes prefixes)
    (hplain : ∀ d ∈ prefixes, IsPlain d.2.toList) (hnew : ∀ d ∈ prefixes, ∀ e ∈ a.own, e.1 ≠ some d.1)
    (h : c.rest = prefixes.flatMap (fun d => writeAttribute ("xmlns:" ++ d.1) d.2.toList) ++ t) :
    ∃ c', readAttributes a c =
      readAttributes { a with own := a.own ++ prefixes.map fun d => (some d.1, d.2) } c' ∧ c'.rest = t := by
  induction prefixes generalizing a c with
  | nil => exact ⟨c, by rw [List.map_nil, List.append_nil], h⟩
  | cons d prefixes ih =>
    obtain ⟨hname, hspace, hnodup⟩ := hprefixes
    rw [List.forall_mem_cons] at hname hspace hplain hnew
    rw [List.map_cons, List.nodup_cons] at hnodup
    rw [List.flatMap_cons, List.append_assoc] at h
    have hword : Spells ("xmlns:" ++ d.1).toList ⟨"xmlns".toList, d.1.toList⟩ := by
      have hspells := isLocalName_xmlns.spells_prefixed hname.1.1
      rwa [String.toList_append]
    obtain ⟨position, hstep⟩ :=
      readAttributes_of_isPlain a _ hword hspace.1.admitted hplain.1 h
    have hadd : a.add ⟨"xmlns".toList, d.1.toList⟩ d.2.toList position =
        .ok { a with own := a.own ++ [(some d.1, d.2)] } := by
      have hprefix : (⟨"xmlns".toList, d.1.toList⟩ : QName).prefixName = "xmlns".toList := rfl
      refine add_eq_ok.2 ?_
      rw [if_pos hprefix, String.ofList_toList, String.ofList_toList]
      refine ⟨_, ?_, rfl⟩
      have hown : ¬ (a.own.any fun e => e.1 == some d.1) = true := by
        rw [List.any_eq_true]
        rintro ⟨e, he, heq⟩
        exact hnew.1 e he (eq_of_beq heq)
      rw [Scope.declarePrefix, if_neg hspace.1.ne_xmlns, if_neg (fun hxml => hname.1.2 hxml.1),
        if_neg (fun hxml => hspace.1.ne_xml hxml.2), if_neg hown, if_neg hspace.1.ne_xml]
    obtain ⟨c₁, hread, hrest⟩ := hstep _ hadd
    obtain ⟨c', hread', hrest'⟩ := ih { a with own := a.own ++ [(some d.1, d.2)] } ⟨hname.2, hspace.2, hnodup.2⟩
      hplain.2 (fun d' hd' e he => by
        rcases List.mem_append.1 he with he | he
        · exact hnew.2 d' hd' e he
        · rw [List.mem_singleton.1 he]
          intro heq
          exact hnodup.1 (List.mem_map.2 ⟨d', hd', (Option.some.inj heq).symm⟩)) hrest
    refine ⟨c', hread.trans ?_, hrest'⟩
    rw [hread', List.map_cons, List.append_assoc]
    rfl

/-! ## Names of attributes -/

/-- The name of an attribute that is no declaration. -/
structure QName.IsKey (name : QName) : Prop where
  prefixName : name.prefixName = [] ∨ IsLocalName name.prefixName
  localName : IsLocalName name.localName
  ne_xmlns : name.localName ≠ "xmlns".toList

theorem QName.IsKey.spells {name : QName} (h : name.IsKey) : Spells name.render.toList name := by
  obtain ⟨pre, word⟩ := name
  obtain ⟨hpre, hword, -⟩ := h
  rw [QName.render, String.toList_ofList]
  rcases hpre with hpre | hpre
  · rw [show pre = [] from hpre]
    exact hword.spells
  · obtain ⟨x, rest, hcons, -⟩ := hpre.start
    rw [if_neg (by rw [show pre = x :: rest from hcons]; simp)]
    exact IsLocalName.spells_prefixed hpre hword

theorem render_prefixed {pre word : List Char} (h : pre ≠ []) :
    QName.render ⟨pre, word⟩ = String.ofList pre ++ ":" ++ String.ofList word := by
  rw [QName.render, if_neg (by rwa [List.isEmpty_iff]), ← String.toList_inj]
  simp

/-- The prefix in the name of an attribute, unless it needs no declaration. -/
def keyPrefix? (key : String) : Option String :=
  match QName.ofChars? key.toList with
  | some name =>
    if name.prefixName = [] ∨ name.prefixName = "xml".toList then none else some (String.ofList name.prefixName)
  | none => none

theorem keyPrefix?_render {name : QName} (h : name.IsKey) : keyPrefix? name.render =
    if name.prefixName = [] ∨ name.prefixName = "xml".toList then none else some (String.ofList name.prefixName) := by
  rw [keyPrefix?, h.spells.name]

/-- Attributes are added in their order. -/
theorem readAttributes_attributes (a : Attributes) {attributes : List (String × List Char)}
    (hkeys : ∀ b ∈ attributes, ∃ name : QName, name.IsKey ∧ name.prefixName ≠ "xmlns".toList ∧ b.1 = name.render)
    (hvalues : ∀ b ∈ attributes, IsAdmitted b.2) (hplain : ∀ b ∈ attributes, IsPlain b.2)
    (h : c.rest = attributes.flatMap (fun b => writeAttribute b.1 b.2) ++ t) :
    ∃ list c', readAttributes a c = readAttributes { a with list := a.list ++ list } c' ∧ c'.rest = t ∧
      List.Forall₂ (fun r b => r.name.IsKey ∧ b.1 = r.name.render ∧ r.value = b.2) list attributes := by
  induction attributes generalizing a c with
  | nil => exact ⟨[], c, by rw [List.append_nil], h, .nil⟩
  | cons b attributes ih =>
    rw [List.forall_mem_cons] at hkeys hvalues hplain
    rw [List.flatMap_cons, List.append_assoc] at h
    obtain ⟨⟨name, hname, hxmlns, hrender⟩, hkeys⟩ := hkeys
    obtain ⟨position, hstep⟩ :=
      readAttributes_of_isPlain a b.1 (hrender ▸ hname.spells) hvalues.1 hplain.1 h
    have hadd : a.add name b.2 position = .ok { a with list := a.list ++ [⟨name, b.2, position⟩] } := by
      refine add_eq_ok.2 ?_
      rw [if_neg hxmlns, if_neg hname.ne_xmlns]
    obtain ⟨c₁, hread, hrest⟩ := hstep _ hadd
    obtain ⟨list, c', hread', hrest', hlist⟩ := ih { a with list := a.list ++ [⟨name, b.2, position⟩] } hkeys
      hvalues.2 hplain.2 hrest
    refine ⟨⟨name, b.2, position⟩ :: list, c', hread.trans ?_, hrest', .cons ⟨hname, hrender, rfl⟩ hlist⟩
    rw [hread', List.append_assoc]
    rfl

/-! ## The namespaces in scope -/

/-- The namespaces in scope in an element that is written, with these prefixes on the root. -/
def writtenScope (prefixes : List (String × String)) (space : Option String) : Scope :=
  (space.map fun u => (none, u)).toList ++ prefixes.map fun d => (some d.1, d.2)

/-- What the start tag of an element declares. -/
def declared (inherited : Option String) (t : Tag) : Scope :=
  (if t.space = inherited then [] else (t.space.map fun u => (none, u)).toList) ++
    t.prefixes.map fun d => (some d.1, d.2)

theorem extend_nil (own : Scope) : own.extend [] = own := by
  unfold Scope.extend
  split
  · rename_i hempty
    exact (List.isEmpty_iff.1 hempty).symm
  · rfl

section

variable {α β : Type} [BEq α] {known more : List (α × β)}

/-- Nothing but what is new is taken over. -/
theorem mem_foldl_new {d : α × β}
    (h : d ∈ more.foldl (fun known d => if known.any (·.1 == d.1) then known else known ++ [d]) known) :
    d ∈ known ∨ d ∈ more := by
  induction more generalizing known with
  | nil => exact Or.inl h
  | cons e more ih =>
    rw [List.foldl_cons] at h
    rcases ih h with hknown | hmore
    · split at hknown
      · exact Or.inl hknown
      · rcases List.mem_append.1 hknown with hknown | hnew
        · exact Or.inl hknown
        · exact Or.inr (List.mem_singleton.1 hnew ▸ List.mem_cons_self)
    · exact Or.inr (List.mem_cons_of_mem _ hmore)

/-- What is new is all taken over. -/
theorem foldl_new_eq_append [LawfulBEq α] (hmore : (more.map Prod.fst).Nodup)
    (hnew : ∀ d ∈ more, ∀ e ∈ known, e.1 ≠ d.1) :
    more.foldl (fun known d => if known.any (·.1 == d.1) then known else known ++ [d]) known = known ++ more := by
  induction more generalizing known with
  | nil => exact (List.append_nil known).symm
  | cons d more ih =>
    rw [List.map_cons, List.nodup_cons] at hmore
    rw [List.forall_mem_cons] at hnew
    have hfresh : ¬ (known.any fun e => e.1 == d.1) = true := by
      rw [List.any_eq_true]
      rintro ⟨e, he, heq⟩
      exact hnew.1 e he (eq_of_beq heq)
    have hrest : ∀ d' ∈ more, ∀ e ∈ known ++ [d], e.1 ≠ d'.1 := by
      intro d' hd' e he
      rcases List.mem_append.1 he with he | he
      · exact hnew.2 d' hd' e he
      · rw [List.mem_singleton.1 he]
        exact fun heq => hmore.1 (List.mem_map.2 ⟨d', hd', heq.symm⟩)
    rw [List.foldl_cons, if_neg hfresh, ih hmore.2 hrest, List.append_assoc]
    rfl

end

/-- The root declares all that is in scope in it. -/
theorem declared_root (t : Tag) : (declared none t).extend [] = writtenScope t.prefixes t.space := by
  rw [extend_nil, declared, writtenScope]
  cases t.space with
  | none => rfl
  | some u => rw [if_neg (Option.some_ne_none u)]

/-- Another element declares its namespace when it is not the inherited one. -/
theorem declared_child {inherited : Option String} {t : Tag} (hprefixes : LegalPrefixes prefixes)
    (hnone : t.prefixes = []) (hinherits : t.space = none → inherited = none) :
    (declared inherited t).extend (writtenScope prefixes inherited) = writtenScope prefixes t.space := by
  rw [declared, hnone, List.map_nil, List.append_nil]
  split
  · rename_i hsame
    rw [hsame]
    rfl
  · rename_i hother
    cases hspace : t.space with
    | none => exact absurd (hspace.trans (hinherits hspace).symm) hother
    | some u =>
      have hadded : (prefixes.map fun d => (some d.1, d.2)).foldl
          (fun scope d => if scope.any (·.1 == d.1) then scope else scope ++ [d]) [(none, u)] =
            (none, u) :: prefixes.map fun d => (some d.1, d.2) := by
        refine foldl_new_eq_append ?_ fun d hd e he => ?_
        · have hnodup : ((prefixes.map Prod.fst).map some).Nodup :=
            List.Pairwise.map some (fun a b hne heq => hne (Option.some.inj heq)) hprefixes.nodup
          rw [List.map_map] at hnodup ⊢
          exact hnodup
        · obtain ⟨d', -, rfl⟩ := List.mem_map.1 hd
          rw [List.mem_singleton.1 he]
          exact (Option.some_ne_none d'.1).symm
      rw [Option.map_some, Option.toList_some, Scope.extend, if_neg (by simp), writtenScope, List.foldl_append]
      cases inherited with
      | none => exact hadded
      | some v => exact hadded

theorem spaceOf?_writtenScope_none (prefixes : List (String × String)) (space : Option String) :
    (writtenScope prefixes space).spaceOf? none = space := by
  rw [Scope.spaceOf?, writtenScope]
  cases space with
  | none =>
    rw [Option.map_none, Option.toList_none, List.nil_append, List.lookup_eq_none_iff]
    rintro d hd
    obtain ⟨d, -, rfl⟩ := List.mem_map.1 hd
    rfl
  | some u => rfl

theorem spaceOf?_writtenScope_some (hprefixes : (prefixes.map Prod.fst).Nodup) {d : String × String}
    (hd : d ∈ prefixes) (space : Option String) : (writtenScope prefixes space).spaceOf? (some d.1) = some d.2 := by
  obtain ⟨before, after, rfl⟩ := List.append_of_mem hd
  rw [List.map_append, List.map_cons, List.nodup_append] at hprefixes
  rw [Scope.spaceOf?, List.lookup_eq_some_iff]
  refine ⟨(space.map fun u => (none, u)).toList ++ before.map fun d => (some d.1, d.2),
    after.map fun d => (some d.1, d.2), by rw [writtenScope]; simp, ?_⟩
  intro e he
  rcases List.mem_append.1 he with he | he
  · obtain ⟨u, -, rfl⟩ := Option.map_eq_some_iff.1 (Option.mem_toList.1 he)
    rfl
  · obtain ⟨d', hd', rfl⟩ := List.mem_map.1 he
    rw [bne_iff_ne]
    intro heq
    exact hprefixes.2.2 d'.1 (List.mem_map_of_mem hd') d.1 List.mem_cons_self (Option.some.inj heq).symm

/-! ## Attributes are resolved -/

/-- The name that an attribute with this namespace and this local name is known by. -/
def keyOf (scope : Scope) (name : Option String × List Char) : String :=
  match knownPrefix? scope name.1 with
  | some (pre, _) => pre ++ ":" ++ String.ofList name.2
  | none => String.ofList name.2

theorem keyed_eq (scope : Scope) (a : Option String × RawAttribute) :
    keyed scope a = (keyOf scope (a.1, a.2.name.localName), a.2.value) := by
  rw [keyed, keyOf]
  cases knownPrefix? scope a.1 <;> rfl

/-- An attribute that was read is known by the name and the value that were written. -/
structure Resolves (prefixes : List (String × String)) (scope : Scope) (r : RawAttribute)
    (a : String × List Char) (found : Option String) : Prop where
  space : r.space scope = .ok found
  key : keyed scope (found, r) = a
  known : ∀ d, knownPrefix? scope found = some d → d.1 ≠ "xml" → d ∈ prefixes

/-- Attributes with different names are resolved. -/
theorem resolveAttributes_of_nodup {scope : Scope} {seen : List (Option String × List Char)} {list : List RawAttribute}
    {attributes : List (String × List Char)}
    (h : List.Forall₂ (fun r a => ∃ space, Resolves prefixes scope r a space) list attributes)
    (hnodup : (attributes.map Prod.fst).Nodup)
    (hseen : ∀ name ∈ seen, keyOf scope name ∉ attributes.map Prod.fst) :
    ∃ resolved, resolveAttributes scope seen list = .ok resolved ∧ resolved.map (keyed scope) = attributes ∧
      ∀ a ∈ resolved, ∀ d, knownPrefix? scope a.1 = some d → d.1 ≠ "xml" → d ∈ prefixes := by
  induction h generalizing seen with
  | nil => exact ⟨[], rfl, rfl, List.forall_mem_nil _⟩
  | @cons r a list attributes hr hlist ih =>
    obtain ⟨space, hr⟩ := hr
    rw [List.map_cons, List.nodup_cons] at hnodup
    have hkey : keyOf scope (space, r.name.localName) = a.1 := by rw [← hr.key, keyed_eq]
    have hfresh : seen.contains (space, r.name.localName) = false := by
      rw [Bool.eq_false_iff, ne_eq, List.contains_iff_mem]
      intro hmem
      refine hseen _ hmem ?_
      rw [hkey]
      exact List.mem_cons_self
    have hmore : ∀ name ∈ (space, r.name.localName) :: seen, keyOf scope name ∉ attributes.map Prod.fst := by
      rw [List.forall_mem_cons, hkey]
      exact ⟨hnodup.1, fun name hname hmem => hseen name hname (List.mem_cons_of_mem _ hmem)⟩
    obtain ⟨resolved, hresolved, hmap, hknown⟩ := ih hnodup.2 hmore
    refine ⟨(space, r) :: resolved, ?_, ?_, List.forall_mem_cons.2 ⟨hr.known, hknown⟩⟩
    · exact resolveAttributes_cons_eq_ok.2 ⟨space, resolved, hr.space, hfresh, hresolved, rfl⟩
    · rw [List.map_cons, hmap, hr.key]

/-- An attribute without a prefix, or with a prefix that is the first one for its namespace, is resolved. -/
theorem exists_resolves {r : RawAttribute} {a : String × List Char} (hprefixes : LegalPrefixes prefixes)
    (hname : r.name.IsKey) (hrender : a.1 = r.name.render) (hvalue : r.value = a.2)
    (hfirst : ∀ pre ∈ keyPrefix? a.1,
      ∃ d ∈ prefixes, d.1 = pre ∧ (writtenScope prefixes space).prefixOf? d.2 = some pre) :
    ∃ found, Resolves prefixes (writtenScope prefixes space) r a found := by
  obtain ⟨⟨pre, word⟩, value, position⟩ := r
  obtain ⟨key, value'⟩ := a
  dsimp only at hrender hvalue hfirst
  subst hrender hvalue
  by_cases hnil : pre = []
  · subst hnil
    refine ⟨none, rfl, rfl, fun d hd => ?_⟩
    cases hd
  by_cases hxml : pre = "xml".toList
  · subst hxml
    have hknown : knownPrefix? (writtenScope prefixes space) (some xmlSpace) = some ("xml", xmlSpace) := rfl
    refine ⟨some xmlSpace, rfl, ?_, ?_⟩
    · rw [keyed_eq, keyOf, hknown, render_prefixed hnil]
      rfl
    · intro d hd hne
      rw [hknown, Option.some.injEq] at hd
      exact absurd (congrArg Prod.fst hd).symm hne
  · have hused : keyPrefix? (QName.render ⟨pre, word⟩) = some (String.ofList pre) := by
      rw [keyPrefix?_render hname, if_neg fun h => h.elim hnil hxml]
    obtain ⟨⟨_, u⟩, hu, rfl, hfound⟩ := hfirst _ hused
    have hknown : knownPrefix? (writtenScope prefixes space) (some u) = some (String.ofList pre, u) := by
      have hempty : (String.ofList pre).isEmpty = false := by
        rw [Bool.eq_false_iff, ne_eq, String.isEmpty_iff]
        intro heq
        exact hnil (by rw [← String.toList_ofList (l := pre), heq]; rfl)
      simp only [knownPrefix?, Option.bind_eq_bind, Option.bind_some, hfound, hempty]
      rfl
    refine ⟨some u, ?_, ?_, ?_⟩
    · have hspace := spaceOf?_writtenScope_some hprefixes.nodup hu space
      rw [RawAttribute.space, if_neg hxml, if_neg (by simpa using hnil), resolvePrefix, hspace]
      rfl
    · rw [keyed_eq, keyOf, hknown, render_prefixed hnil]
    · intro d hd _
      rw [hknown, Option.some.injEq] at hd
      exact hd ▸ hu

/-! ## Start tags -/

/-- A tag that can be read. -/
structure Tag.Legal (u : Tag) : Prop where
  name : IsLocalName u.name.toList
  space : ∀ v, u.space = some v → IsSpaceName v
  keys : ∀ a ∈ u.attributes, ∃ name : QName, name.IsKey ∧ a.1 = name.render
  values : ∀ a ∈ u.attributes, IsAdmitted a.2

/-- A tag that is read as it is written, in the namespace `inherited` and with these prefixes on the root. -/
structure Tag.Stable (prefixes : List (String × String)) (inherited : Option String) (u : Tag) : Prop where
  /-- An element without a namespace is read in that of its parent. -/
  inherits : u.space = none → inherited = none
  space : ∀ v, u.space = some v → IsPlain v.toList
  values : ∀ a ∈ u.attributes, IsPlain a.2
  keys : (u.attributes.map Prod.fst).Nodup
  /-- A prefix is read again when it is the first one in scope for its namespace. -/
  prefixes : ∀ a ∈ u.attributes, ∀ pre ∈ keyPrefix? a.1,
    ∃ d ∈ prefixes, d.1 = pre ∧ (writtenScope prefixes u.space).prefixOf? d.2 = some pre

/-- Prefixes on a root that are read as they are written. -/
structure StablePrefixes (prefixes : List (String × String)) : Prop where
  plain : ∀ d ∈ prefixes, IsPlain d.2.toList
  ne_xmlns : ∀ d ∈ prefixes, d.1 ≠ "xmlns"

instance (prefixes : List (String × String)) (inherited : Option String) (u : Tag) :
    Decidable (u.Stable prefixes inherited) :=
  decidable_of_iff ((u.space = none → inherited = none) ∧ (∀ v ∈ u.space, IsPlain v.toList) ∧
      (∀ a ∈ u.attributes, IsPlain a.2) ∧ (u.attributes.map Prod.fst).Nodup ∧
      ∀ a ∈ u.attributes, ∀ pre ∈ keyPrefix? a.1,
        ∃ d ∈ prefixes, d.1 = pre ∧ (writtenScope prefixes u.space).prefixOf? d.2 = some pre)
    ⟨fun h => ⟨h.1, h.2.1, h.2.2.1, h.2.2.2.1, h.2.2.2.2⟩,
      fun h => ⟨h.inherits, h.space, h.values, h.keys, h.prefixes⟩⟩

instance (prefixes : List (String × String)) : Decidable (StablePrefixes prefixes) :=
  decidable_of_iff ((∀ d ∈ prefixes, IsPlain d.2.toList) ∧ ∀ d ∈ prefixes, d.1 ≠ "xmlns")
    ⟨fun h => ⟨h.1, h.2⟩, fun h => ⟨h.plain, h.ne_xmlns⟩⟩

/-- The namespace of an element is declared where it is not the inherited one. -/
theorem readAttributes_writeSpace {u : Tag} {inherited : Option String} (hlegal : u.Legal)
    (hstable : u.Stable prefixes inherited) (h : c.rest = writeSpace inherited (u.space <|> inherited) ++ t) :
    ∃ c', readAttributes ⟨[], []⟩ c =
      readAttributes ⟨if u.space = inherited then [] else (u.space.map fun v => (none, v)).toList, []⟩ c' ∧
      c'.rest = t := by
  cases hspace : u.space with
  | none =>
    rw [hspace, hstable.inherits hspace] at h
    rw [hstable.inherits hspace]
    exact ⟨c, rfl, h⟩
  | some v =>
    rw [hspace] at h
    by_cases hsame : some v = inherited
    · rw [if_pos hsame]
      refine ⟨c, rfl, ?_⟩
      rw [h, ← hsame]
      simp [writeSpace]
    · rw [if_neg hsame]
      refine readAttributes_xmlns ⟨[], []⟩ (hlegal.space v hspace) (hstable.space v hspace) ?_
      rw [h]
      simp [writeSpace, hsame]

/-- Attributes do not go on with a name. -/
theorem exists_writeAttributes {α : Type} (write : α → String × List Char) (attributes : List α) {x : Char}
    (hx : isNamePart x = false) (s : List Char) :
    ∃ y t, attributes.flatMap (fun a => writeAttribute (write a).1 (write a).2) ++ x :: s = y :: t ∧
      isNamePart y = false := by
  cases attributes with
  | nil => exact ⟨x, s, rfl, hx⟩
  | cons a attributes => exact ⟨' ', _, rfl, by decide⟩

/-- What is written of a tag behind its name. -/
def writeTail (inherited : Option String) (u : Tag) : List Char :=
  writeSpace inherited (u.space <|> inherited) ++
    (u.prefixes.flatMap (fun d => writeAttribute ("xmlns:" ++ d.1) d.2.toList) ++
      u.attributes.flatMap fun a => writeAttribute a.1 a.2)

theorem writeHead_eq (inherited : Option String) (u : Tag) :
    writeHead inherited u = '<' :: (u.name.toList ++ writeTail inherited u) := by
  simp [writeHead, writeTail]

theorem exists_writeTail (inherited : Option String) (u : Tag) {x : Char} (hx : isNamePart x = false) (s : List Char) :
    ∃ y w, writeTail inherited u ++ x :: s = y :: w ∧ isNamePart y = false := by
  obtain ⟨y, w, hattributes, hy⟩ := exists_writeAttributes (fun a : String × List Char => a) u.attributes hx s
  obtain ⟨y', w', hprefixes, hy'⟩ :=
    exists_writeAttributes (fun d : String × String => ("xmlns:" ++ d.1, d.2.toList)) u.prefixes hy w
  rw [writeTail, List.append_assoc, List.append_assoc, hattributes, hprefixes]
  unfold writeSpace
  split
  · split
    · exact ⟨y', w', rfl, hy'⟩
    · exact ⟨' ', _, rfl, by decide⟩
  · exact ⟨y', w', rfl, hy'⟩

/-- The start tag of an element ends behind what is written of its tag. -/
theorem exists_write_element (inherited : Option String) (u : Tag) (ns : List Node) :
    ∃ x s, Node.write inherited (.element u ns) = '<' :: (u.name.toList ++ (writeTail inherited u ++ x :: s)) ∧
      isNamePart x = false := by
  cases ns with
  | nil =>
    refine ⟨'/', ['>'], ?_, by decide⟩
    rw [Node.write, writeHead_eq]
    simp
  | cons n ns =>
    refine ⟨'>', Node.writeAll (u.space <|> inherited) (n :: ns) ++ '<' :: '/' :: u.name.toList ++ ['>'], ?_, by decide⟩
    rw [Node.write, writeHead_eq]
    simp

/-- What stands behind the name is read as it is written. -/
theorem readAttributes_writeTail {inherited : Option String} {u : Tag} (hown : LegalPrefixes u.prefixes)
    (hsame : StablePrefixes u.prefixes) (hlegal : u.Legal) (hstable : u.Stable prefixes inherited)
    (hxmlns : ∀ d ∈ prefixes, d.1 ≠ "xmlns") (h : c.rest = writeTail inherited u ++ t) :
    ∃ list c', readAttributes ⟨[], []⟩ c = readAttributes ⟨declared inherited u, list⟩ c' ∧ c'.rest = t ∧
      List.Forall₂ (fun r b => r.name.IsKey ∧ b.1 = r.name.render ∧ r.value = b.2) list u.attributes := by
  rw [writeTail, List.append_assoc, List.append_assoc] at h
  obtain ⟨c₁, hread₁, h₁⟩ := readAttributes_writeSpace hlegal hstable h
  have hnew : ∀ d ∈ u.prefixes,
      ∀ e ∈ (if u.space = inherited then [] else (u.space.map fun v => (none, v)).toList : Scope), e.1 ≠ some d.1 := by
    intro d _ e he
    split at he
    · cases he
    · obtain ⟨v, -, rfl⟩ := Option.map_eq_some_iff.1 (Option.mem_toList.1 he)
      exact (Option.some_ne_none d.1).symm
  obtain ⟨c₂, hread₂, h₂⟩ := readAttributes_prefixes ⟨_, []⟩ hown hsame.plain hnew h₁
  have hkeys : ∀ b ∈ u.attributes,
      ∃ name : QName, name.IsKey ∧ name.prefixName ≠ "xmlns".toList ∧ b.1 = name.render := by
    intro b hb
    obtain ⟨name, hname, hrender⟩ := hlegal.keys b hb
    refine ⟨name, hname, fun hprefix => ?_, hrender⟩
    have hused : keyPrefix? b.1 = some "xmlns" := by
      rw [hrender, keyPrefix?_render hname, hprefix, if_neg (by decide), String.ofList_toList]
    obtain ⟨d, hd, heq, -⟩ := hstable.prefixes b hb _ hused
    exact hxmlns d hd heq
  obtain ⟨list, c₃, hread₃, h₃, hlist⟩ :=
    readAttributes_attributes ⟨declared inherited u, []⟩ hkeys hlegal.values hstable.values h₂
  exact ⟨list, c₃, hread₁.trans (hread₂.trans hread₃), h₃, hlist⟩

/-- The element that a start tag stands for, where its attributes are resolved. -/
theorem makeTag_of_forall₂ {parent : Scope} {inherited : Option String} {u : Tag} {list : List RawAttribute}
    (start : Position) (hprefixes : LegalPrefixes prefixes) (hstable : u.Stable prefixes inherited)
    (hscope : (declared inherited u).extend parent = writtenScope prefixes u.space)
    (hlist : List.Forall₂ (fun r b => r.name.IsKey ∧ b.1 = r.name.render ∧ r.value = b.2) list u.attributes) :
    ∃ tag, makeTag parent start ⟨[], u.name.toList⟩ ⟨declared inherited u, list⟩ = .ok tag ∧
      tag.name = ⟨[], u.name.toList⟩ ∧ tag.scope = writtenScope prefixes u.space ∧
      tag.tag = { u with prefixes := [], line := start.row } ∧ ∀ d ∈ tag.prefixes, d ∈ prefixes := by
  have hresolves : List.Forall₂ (fun r b => ∃ found, Resolves prefixes (writtenScope prefixes u.space) r b found) list
      u.attributes := by
    refine ((List.forall₂_and_left _ _).2 ⟨hstable.prefixes, hlist.flip⟩).flip.imp fun r b hrb => ?_
    obtain ⟨hfirst, hname, hrender, hvalue⟩ := hrb
    exact exists_resolves hprefixes hname hrender hvalue hfirst
  obtain ⟨resolved, hresolved, hmap, hknown⟩ :=
    resolveAttributes_of_nodup hresolves hstable.keys (List.forall_mem_nil _)
  refine ⟨_, makeTag_eq_ok.2 ⟨resolved, u.space, ?_, ?_, rfl⟩, rfl, hscope, ?_, ?_⟩
  · rw [hscope]
    exact hresolved
  · rw [hscope, elementSpace, if_pos List.isEmpty_nil, spaceOf?_writtenScope_none]
  · rw [hscope, hmap, String.ofList_toList]
  · rw [hscope]
    intro d hd
    obtain ⟨hd, hne⟩ := List.mem_filter.1 hd
    obtain ⟨a, ha, hd⟩ := List.mem_filterMap.1 hd
    exact hknown a ha d hd (of_decide_eq_true hne)

/-- **A start tag of a tree** is read as it is written. `tagEnd` is how it ends, and `close` what is written for
that. -/
theorem readStartTag_writeHead {parent : Scope} {inherited : Option String} {u : Tag} (tagEnd : TagEnd)
    (close : List Char) (hprefixes : LegalPrefixes prefixes) (hsame : StablePrefixes prefixes) (hlegal : u.Legal)
    (hstable : u.Stable prefixes inherited) (hown : u.prefixes = [] ∨ u.prefixes = prefixes)
    (hscope : (declared inherited u).extend parent = writtenScope prefixes u.space) (hend : tagEnd ≠ .cutOff)
    (hclose : ∃ x s, close = x :: s ∧ isNamePart x = false)
    (hread : ∀ (a : Attributes) (c : Cursor), c.rest = close ++ t →
      ∃ c', readAttributes a c = .ok (a, tagEnd, c') ∧ c'.rest = t)
    (h : c.rest = writeHead inherited u ++ (close ++ t)) :
    ∃ tag c', readStartTag parent c = .ok (some tag, tagEnd, c') ∧ c'.rest = t ∧ tag.name = ⟨[], u.name.toList⟩ ∧
      tag.scope = writtenScope prefixes u.space ∧ tag.tag = { u with prefixes := [], line := c.position.row } ∧
      ∀ d ∈ tag.prefixes, d ∈ prefixes := by
  have hown : LegalPrefixes u.prefixes ∧ StablePrefixes u.prefixes := by
    rcases hown with hown | hown
    · rw [hown]
      exact ⟨⟨List.forall_mem_nil _, List.forall_mem_nil _, List.nodup_nil⟩, List.forall_mem_nil _,
        List.forall_mem_nil _⟩
    · rw [hown]
      exact ⟨hprefixes, hsame⟩
  obtain ⟨x, s, rfl, hx⟩ := hclose
  obtain ⟨y, w, htail, hy⟩ := exists_writeTail inherited u hx (s ++ t)
  have hrest : c.rest = '<' :: (u.name.toList ++ (writeTail inherited u ++ x :: (s ++ t))) := by
    rw [h, writeHead_eq]
    simp
  have hafter := rest_advance_one hrest
  rw [htail] at hafter
  obtain ⟨c₁, hname, h₁⟩ := qname_of_isLocalName hlegal.name hy hafter
  rw [← htail] at h₁
  obtain ⟨list, c₂, hattributes, h₂, hlist⟩ :=
    readAttributes_writeTail hown.1 hown.2 hlegal hstable hsame.ne_xmlns h₁
  obtain ⟨c₃, hclosed, h₃⟩ := hread _ c₂ h₂
  obtain ⟨tag, hmake, htag⟩ := makeTag_of_forall₂ c.position hprefixes hstable hscope hlist
  exact ⟨tag, c₃, readStartTag_some_eq_ok.2 ⟨_, c₁, _, hname, by simp, hattributes.trans hclosed, hend, hmake⟩, h₃,
    htag⟩

end MathMarkup.Xml
