import MathMarkup.Xml.Reader

/-!
# What readers do, step by step

For every reader that takes several steps, when it succeeds: each step does, and what is read is made of what
they read. Proofs about readers start here, in either direction.
-/

namespace MathMarkup.Xml

open Text

variable {α β : Type} {c c' : Cursor} {s : List Char} {fault : Fault}

/-! ## Steps -/

theorem bind_eq_ok {x : Except Fault α} {f : α → Except Fault β} {b : β} :
    (x >>= f) = .ok b ↔ ∃ a, x = .ok a ∧ f a = .ok b := by
  cases x with
  | ok a => exact ⟨fun h => ⟨a, rfl, h⟩, fun ⟨a', ha, h⟩ => Except.ok.inj ha ▸ h⟩
  | error => exact ⟨nofun, nofun⟩

theorem map_eq_ok {x : Except Fault α} {f : α → β} {b : β} : x.map f = .ok b ↔ ∃ a, x = .ok a ∧ f a = b := by
  cases x with
  | ok a => exact ⟨fun h => ⟨a, rfl, Except.ok.inj h⟩, fun ⟨a', ha, h⟩ => Except.ok.inj ha ▸ congrArg _ h⟩
  | error => exact ⟨nofun, nofun⟩

theorem pure_eq_ok {a b : α} : (pure a : Except Fault α) = .ok b ↔ a = b := ⟨Except.ok.inj, congrArg _⟩

/-- A reader goes on behind a guard that does not stop it. -/
theorem guard_eq_ok {cond : Prop} [Decidable cond] {f : PUnit → Except Fault α} {x : Except Fault α} {a : α} :
    (if cond then throw fault >>= f else x) = .ok a ↔ ¬cond ∧ x = .ok a := by
  split
  · rename_i h
    exact ⟨nofun, fun h' => absurd h h'.1⟩
  · rename_i h
    exact (and_iff_right h).symm

/-- A reader goes on only where a condition holds. -/
theorem ite_eq_ok {cond : Prop} [Decidable cond] {x : Except Fault α} {a : α} :
    (if cond then x else .error fault) = .ok a ↔ cond ∧ x = .ok a := by
  split
  · rename_i h
    exact (and_iff_right h).symm
  · rename_i h
    exact ⟨nofun, fun h' => absurd h'.1 h⟩

theorem require_eq_ok {cond : Prop} [Decidable cond] {a b : α} :
    (if cond then .ok a else .error fault : Except Fault α) = .ok b ↔ cond ∧ a = b :=
  ite_eq_ok.trans (and_congr_right fun _ => pure_eq_ok)

/-! ## Cursors -/

namespace Cursor

theorem expect_eq_ok {wanted : Char} : c.expect wanted = .ok c' ↔ c.rest.head? = some wanted ∧ c.advance 1 = c' := by
  rw [expect]
  cases c.rest with
  | nil => exact ⟨nofun, nofun⟩
  | cons got rest =>
    rw [List.head?_cons, Option.some.injEq]
    exact require_eq_ok

theorem expectWord_eq_ok {word : String} :
    c.expectWord word = .ok c' ↔ c.sees word = true ∧ c.advance word.length = c' := require_eq_ok

theorem expectQuote_eq_ok {quote : Char} : c.expectQuote = .ok (quote, c') ↔
    (quote = '\'' ∨ quote = '"') ∧ c.rest.head? = some quote ∧ c.advance 1 = c' := by
  rw [expectQuote]
  cases c.rest with
  | nil => exact ⟨nofun, nofun⟩
  | cons got rest =>
    rw [List.head?_cons, Option.some.injEq]
    refine require_eq_ok.trans ?_
    rw [Prod.mk.injEq]
    exact ⟨fun ⟨hgot, hquote, hc⟩ => ⟨hquote ▸ hgot, hquote, hc⟩, fun ⟨hquote, hgot, hc⟩ => ⟨hgot ▸ hquote, hgot, hc⟩⟩

theorem qname_eq_ok {name : QName} :
    c.qname = .ok (name, c') ↔ QName.ofChars? (c.span isNamePart).1 = some name ∧ (c.span isNamePart).2 = c' := by
  unfold qname
  dsimp only
  split
  · rename_i n hn
    simp only [Except.ok.injEq, Prod.mk.injEq, hn, Option.some.injEq]
  · rename_i hn
    rw [hn]
    exact ⟨nofun, nofun⟩

theorem name_eq_ok {name : List Char} : c.name = .ok (name, c') ↔
    (∃ a rest, c.rest = a :: rest ∧ isNameStart a = true ∧ a :: rest.takeWhile isNamePart = name) ∧
      c.advance name.length = c' := by
  rw [Cursor.name]
  cases c.rest with
  | nil =>
    constructor
    · intro h
      cases h
    · rintro ⟨⟨_, _, h, -⟩, -⟩
      cases h
  | cons a rest =>
    rw [splitName?]
    by_cases ha : isNameStart a = true
    · rw [if_pos ha]
      simp only [Except.ok.injEq, Prod.mk.injEq]
      constructor
      · rintro ⟨rfl, rfl⟩
        exact ⟨⟨a, rest, rfl, ha, rfl⟩, rfl⟩
      · rintro ⟨⟨_, _, heq, -, rfl⟩, rfl⟩
        cases heq
        exact ⟨rfl, rfl⟩
    · rw [if_neg ha]
      constructor
      · intro h
        cases h
      · rintro ⟨⟨_, _, heq, ha', -⟩, -⟩
        cases heq
        exact absurd ha' ha

end Cursor

/-! ## Parts of a document -/

theorem readComment_eq_ok : readComment c = .ok c' ↔ ∃ text c₁,
    (c.advance 4).admitted (Cursor.starts "-->") = .ok (text, c₁) ∧ c₁.expectWord "-->" = .ok c' ∧
      ¬(contains ['-', '-'] text || text.getLast? = some '-') := by
  simp only [readComment, bind_eq_ok, guard_eq_ok, pure_eq_ok, Prod.exists, exists_eq_right_right]

theorem readInstruction_eq_ok : readInstruction c = .ok c' ↔ c.sees "<?xml " = false ∧ ∃ name c₁ text c₂,
    (c.advance 2).name = .ok (name, c₁) ∧ c₁.skipSpace.admitted (Cursor.starts "?>") = .ok (text, c₂) ∧
      c₂.expectWord "?>" = .ok c' := by
  simp only [readInstruction, bind_eq_ok, guard_eq_ok, Prod.exists, Bool.not_eq_true, exists_and_left]

theorem readSection_eq_ok : readSection c = .ok (s, c') ↔ ∃ text c₁,
    (c.advance 9).admitted (Cursor.starts "]]>") = .ok (text, c₁) ∧ c₁.expectWord "]]>" = .ok c' ∧
      sectionText text = s := by
  simp only [readSection, bind_eq_ok, pure_eq_ok, Prod.exists, Prod.mk.injEq]
  refine exists_congr fun text => exists_congr fun c₁ => and_congr_right fun _ => ?_
  exact ⟨fun ⟨_, hword, htext, hc⟩ => ⟨hc ▸ hword, htext⟩, fun ⟨hword, htext⟩ => ⟨c', hword, htext, rfl⟩⟩

theorem readText_eq_ok : readText c = .ok (s, c') ↔ ∃ raw,
    c.admitted (fun s => s.head? = some '<') = .ok (raw, c') ∧ contains "]]>".toList raw = false ∧
      characterData c.position raw = .ok s := by
  simp only [readText, bind_eq_ok, guard_eq_ok, pure_eq_ok, Prod.exists, Prod.mk.injEq, Bool.not_eq_true]
  constructor
  · rintro ⟨raw, c₁, hraw, hclose, text, htext, rfl, rfl⟩
    exact ⟨raw, hraw, hclose, htext⟩
  · rintro ⟨raw, hraw, hclose, htext⟩
    exact ⟨raw, c', hraw, hclose, s, htext, rfl, rfl⟩

theorem readEndTag_eq_ok {opened : QName} : readEndTag opened c = .ok c' ↔ ∃ c₁,
    (c.advance 2).qname = .ok (opened, c₁) ∧ c₁.skipSpace.expect '>' = .ok c' := by
  simp only [readEndTag, bind_eq_ok, guard_eq_ok, pure_eq_ok, Prod.exists, Decidable.not_not]
  constructor
  · rintro ⟨name, c₁, hname, c₂, hc₂, rfl, rfl⟩
    exact ⟨c₁, hname, hc₂⟩
  · rintro ⟨c₁, hname, hc'⟩
    exact ⟨opened, c₁, hname, c', hc', rfl, rfl⟩

/-! ## Start tags -/

theorem readAttribute_eq_ok {name : QName} {raw : List Char} {start : Position} :
    readAttribute c = .ok (name, raw, start, c') ↔ ∃ c₁ c₂ quote c₃ c₄, c.qname = .ok (name, c₁) ∧
      c₁.skipSpace.expect '=' = .ok c₂ ∧ c₂.skipSpace.expectQuote = .ok (quote, c₃) ∧ c₃.position = start ∧
      c₃.admitted (fun s => s.head? = some quote || s.head? = some '<') = .ok (raw, c₄) ∧
      c₄.expect quote = .ok c' := by
  simp only [readAttribute, bind_eq_ok, pure_eq_ok, Prod.exists, Prod.mk.injEq]
  constructor
  · rintro ⟨_, c₁, hname, c₂, hequals, quote, c₃, hquote, _, c₄, hraw, _, hend, rfl, rfl, hstart, rfl⟩
    exact ⟨c₁, c₂, quote, c₃, c₄, hname, hequals, hquote, hstart, hraw, hend⟩
  · rintro ⟨c₁, c₂, quote, c₃, c₄, hname, hequals, hquote, hstart, hraw, hend⟩
    exact ⟨name, c₁, hname, c₂, hequals, quote, c₃, hquote, raw, c₄, hraw, c', hend, rfl, rfl, hstart, rfl⟩

theorem declarePrefix_eq_ok {own own' : Scope} {pre space : String} : own.declarePrefix pre space = .ok own' ↔
    space ≠ xmlnsSpace ∧ (pre = "xml" ↔ space = xmlSpace) ∧ (own.any fun d => d.1 == some pre) = false ∧
      (if space = xmlSpace then own else own ++ [(some pre, space)]) = own' := by
  unfold Scope.declarePrefix
  generalize (own.any fun d => d.1 == some pre) = taken
  by_cases hxmlns : space = xmlnsSpace
  · simp [hxmlns]
  · by_cases hxml : pre = "xml"
    · by_cases hspace : space = xmlSpace
      · cases taken <;> simp [hxml, hspace, xmlSpace, xmlnsSpace]
      · simp [hxmlns, hxml, hspace]
    · by_cases hspace : space = xmlSpace
      · simp [hxml, hspace, xmlSpace, xmlnsSpace]
      · cases taken <;> simp [hxmlns, hxml, hspace]

theorem declareDefault_eq_ok {own own' : Scope} {space : String} : own.declareDefault space = .ok own' ↔
    space ≠ xmlSpace ∧ space ≠ xmlnsSpace ∧ own ++ [(none, space)] = own' := by
  unfold Scope.declareDefault
  by_cases hspace : space = xmlSpace
  · simp [hspace]
  · by_cases hxmlns : space = xmlnsSpace
    · simp [hxmlns, xmlSpace, xmlnsSpace]
    · simp [hspace, hxmlns]

theorem add_eq_ok {a a' : Attributes} {name : QName} {value : List Char} {position : Position} :
    a.add name value position = .ok a' ↔
      if name.prefixName = "xmlns".toList then
        ∃ own, a.own.declarePrefix (String.ofList name.localName) (String.ofList value) = .ok own ∧
          { a with own := own } = a'
      else if name.localName = "xmlns".toList then
        ∃ own, a.own.declareDefault (String.ofList value) = .ok own ∧ { a with own := own } = a'
      else { a with list := a.list ++ [⟨name, value, position⟩] } = a' := by
  unfold Attributes.add
  dsimp only
  split
  · cases a.own.declarePrefix (String.ofList name.localName) (String.ofList value) with
    | ok own => simp only [Except.ok.injEq, exists_eq_left']
    | error => simp only [reduceCtorEq, false_and, exists_false]
  · split
    · cases a.own.declareDefault (String.ofList value) with
      | ok own => simp only [Except.ok.injEq, exists_eq_left']
      | error => simp only [reduceCtorEq, false_and, exists_false]
    · simp only [Except.ok.injEq]

theorem readAttributes_eq_ok {a a' : Attributes} {tagEnd : TagEnd} :
    readAttributes a c = .ok (a', tagEnd, c') ↔
      if c.rest.isEmpty then a = a' ∧ .cutOff = tagEnd ∧ c = c'
      else if c.skipSpace.rest.head? = some '/' then
        (c.skipSpace.advance 1).expect '>' = .ok c' ∧ a = a' ∧ .empty = tagEnd
      else if c.skipSpace.rest.head? = some '>' then a = a' ∧ .opened = tagEnd ∧ c.skipSpace.advance 1 = c'
      else c.skipSpace.rest.isEmpty = false ∧ c.atSpace = true ∧ ∃ name raw start behind value b,
        readAttribute c.skipSpace = .ok (name, raw, start, behind) ∧ attributeValue start raw = .ok value ∧
          a.add name value c.skipSpace.position = .ok b ∧ behind.rest.length < c.rest.length ∧
          readAttributes b behind = .ok (a', tagEnd, c') := by
  rw [readAttributes]
  split
  · simp only [Except.ok.injEq, Prod.mk.injEq]
  · dsimp only
    split
    · rename_i hend
      simp [hend]
    · rename_i rest hslash
      rw [hslash, List.head?_cons, if_pos rfl]
      simp only [map_eq_ok, Prod.mk.injEq]
      constructor
      · rintro ⟨c₁, hc₁, rfl, rfl, rfl⟩
        exact ⟨hc₁, rfl, rfl⟩
      · rintro ⟨hc', rfl, rfl⟩
        exact ⟨c', hc', rfl, rfl, rfl⟩
    · rename_i rest hclose
      rw [hclose, List.head?_cons, if_neg (by decide), if_pos rfl]
      simp only [Except.ok.injEq, Prod.mk.injEq]
    · rename_i next rest hslash hclose hnext
      have hneslash : ¬some next = some '/' := fun h => hslash (Option.some.inj h)
      have hneclose : ¬some next = some '>' := fun h => hclose (Option.some.inj h)
      rw [hnext, List.head?_cons, if_neg hneslash, if_neg hneclose]
      cases c.atSpace with
      | false =>
        constructor
        · intro h
          cases h
        · rintro ⟨-, h, -⟩
          cases h
      | true =>
        simp only [Bool.not_true, Bool.false_eq_true, if_false, List.isEmpty_cons, true_and]
        constructor
        · intro h
          split at h
          · cases h
          · rename_i name raw start behind hread
            split at h
            · cases h
            · rename_i value hvalue
              split at h
              · cases h
              · rename_i b hadd
                split at h
                · rename_i hless
                  exact ⟨name, raw, start, behind, value, b, hread, hvalue, hadd, hless, h⟩
                · cases h
        · rintro ⟨name, raw, start, behind, value, b, hread, hvalue, hadd, hless, h⟩
          simp only [hread, hvalue, hadd, if_pos hless, h]

/-- What holds before the attributes are read, and is kept by each attribute that is added, holds behind them. -/
theorem readAttributes_induction {P : Attributes → Prop} {a a' : Attributes} {tagEnd : TagEnd}
    (h : readAttributes a c = .ok (a', tagEnd, c')) (ha : P a)
    (hadd : ∀ {a b : Attributes} {c behind : Cursor} {name : QName} {raw value : List Char} {start position : Position},
      readAttribute c = .ok (name, raw, start, behind) → attributeValue start raw = .ok value →
        a.add name value position = .ok b → P a → P b) : P a' := by
  induction hlen : c.rest.length using Nat.strongRecOn generalizing a c with
  | ind len ih =>
    subst hlen
    have hcases := readAttributes_eq_ok.1 h
    split at hcases
    · exact hcases.1 ▸ ha
    · split at hcases
      · exact hcases.2.1 ▸ ha
      · split at hcases
        · exact hcases.1 ▸ ha
        · obtain ⟨-, -, name, raw, start, behind, value, b, hread, hvalue, hb, hless, hrec⟩ := hcases
          exact ih _ hless hrec (hadd hread hvalue hb ha) rfl

theorem resolveAttributes_cons_eq_ok {scope : Scope} {seen : List (Option String × List Char)} {a : RawAttribute}
    {rest : List RawAttribute} {r : List (Option String × RawAttribute)} :
    resolveAttributes scope seen (a :: rest) = .ok r ↔ ∃ space resolved, a.space scope = .ok space ∧
      seen.contains (space, a.name.localName) = false ∧
      resolveAttributes scope ((space, a.name.localName) :: seen) rest = .ok resolved ∧ (space, a) :: resolved = r := by
  simp only [resolveAttributes, bind_eq_ok, guard_eq_ok, pure_eq_ok, Bool.not_eq_true, exists_and_left]

/-- The namespace of an element by its name. -/
def elementSpace (scope : Scope) (start : Position) (name : QName) : Except Fault (Option String) :=
  if name.prefixName.isEmpty then .ok (scope.spaceOf? none)
  else (resolvePrefix scope name.prefixName (start.next '<')).map some

/-- An element is in no namespace when its name has no prefix and nothing declares a default. -/
theorem prefixName_of_elementSpace {scope : Scope} {start : Position} {name : QName}
    (h : elementSpace scope start name = .ok none) : name.prefixName = [] ∧ scope.spaceOf? none = none := by
  unfold elementSpace at h
  split at h
  · rename_i hempty
    exact ⟨List.isEmpty_iff.1 hempty, Except.ok.inj h⟩
  · obtain ⟨found, -, hsome⟩ := map_eq_ok.1 h
    cases hsome

theorem makeTag_eq_ok {parent : Scope} {start : Position} {name : QName} {a : Attributes} {tag : StartTag} :
    makeTag parent start name a = .ok tag ↔ ∃ attributes space,
      resolveAttributes (a.own.extend parent) [] a.list = .ok attributes ∧
      elementSpace (a.own.extend parent) start name = .ok space ∧
      tag = ⟨name, ⟨String.ofList name.localName, space, attributes.map (keyed (a.own.extend parent)), [], start.row⟩,
        a.own.extend parent,
        (attributes.filterMap fun a' => knownPrefix? (a.own.extend parent) a'.1).filter fun p => p.1 ≠ "xml"⟩ := by
  rw [makeTag, bind_eq_ok]
  refine exists_congr fun attributes => ?_
  rw [exists_and_left]
  refine and_congr_right fun _ => ?_
  simp only [elementSpace]
  split
  · exact bind_eq_ok.trans (exists_congr fun space => and_congr_right fun _ => pure_eq_ok.trans eq_comm)
  · exact bind_eq_ok.trans (exists_congr fun space => and_congr_right fun _ => pure_eq_ok.trans eq_comm)

theorem readStartTag_eq_ok {parent : Scope} {tag : Option StartTag} {tagEnd : TagEnd} :
    readStartTag parent c = .ok (tag, tagEnd, c') ↔ ∃ name c₁ a, (c.advance 1).qname = .ok (name, c₁) ∧
      name.prefixName ≠ "xmlns".toList ∧ readAttributes ⟨[], []⟩ c₁ = .ok (a, tagEnd, c') ∧
      match tagEnd with
      | .cutOff => tag = none
      | _ => ∃ t, makeTag parent c.position name a = .ok t ∧ tag = some t := by
  simp only [readStartTag, bind_eq_ok, guard_eq_ok, Prod.exists]
  refine exists_congr fun name => exists_congr fun c₁ => ?_
  constructor
  · rintro ⟨hname, hprefix, a, e, d, hread, h⟩
    refine ⟨a, hname, hprefix, ?_⟩
    cases e with
    | cutOff =>
      cases h
      exact ⟨hread, rfl⟩
    | opened | empty =>
      simp only [bind_eq_ok, pure_eq_ok, Prod.mk.injEq] at h
      obtain ⟨t, ht, rfl, rfl, rfl⟩ := h
      exact ⟨hread, t, ht, rfl⟩
  · rintro ⟨a, hname, hprefix, hread, h⟩
    refine ⟨hname, hprefix, a, tagEnd, c', hread, ?_⟩
    cases tagEnd with
    | cutOff =>
      subst h
      rfl
    | opened | empty =>
      obtain ⟨t, ht, rfl⟩ := h
      exact bind_eq_ok.2 ⟨t, ht, rfl⟩

/-- A start tag that does not end with the text. -/
theorem readStartTag_some_eq_ok {parent : Scope} {tag : StartTag} {tagEnd : TagEnd} :
    readStartTag parent c = .ok (some tag, tagEnd, c') ↔ ∃ name c₁ a, (c.advance 1).qname = .ok (name, c₁) ∧
      name.prefixName ≠ "xmlns".toList ∧ readAttributes ⟨[], []⟩ c₁ = .ok (a, tagEnd, c') ∧ tagEnd ≠ .cutOff ∧
      makeTag parent c.position name a = .ok tag := by
  rw [readStartTag_eq_ok]
  refine exists_congr fun name => exists_congr fun c₁ => exists_congr fun a => and_congr_right fun _ =>
    and_congr_right fun _ => and_congr_right fun _ => ?_
  cases tagEnd with
  | cutOff => exact ⟨nofun, fun h => absurd rfl h.1⟩
  | opened | empty =>
    simp only [Option.some.injEq, exists_eq_right', ne_eq, reduceCtorEq, not_false_eq_true, true_and]

/-! ## Content -/

namespace Progress

variable {p p' : Progress}

/-- What was read, with the prefixes of one more start tag. -/
def note (p : Progress) (tag : StartTag) : Progress :=
  { p with
    prefixes := tag.prefixes.foldl (fun known d => if known.any (·.1 == d.1) then known else known ++ [d]) p.prefixes
    inText := false }

/-- What was read, with an element that is opened, or complete at once. -/
def enter (p : Progress) (tag : StartTag) (tagEnd : TagEnd) (c : Cursor) : Progress :=
  if tagEnd = .empty then (p.note tag).finish ⟨tag.tag, []⟩ p.opened c
  else { p.note tag with cursor := c, opened := ⟨tag, []⟩ :: p.opened }

theorem start_eq_ok : p.start = .ok p' ↔ ∃ tag tagEnd c, readStartTag p.scope p.cursor = .ok (tag, tagEnd, c) ∧
    (match tag with
      | none => { p with cursor := c, inText := false }
      | some tag => p.enter tag tagEnd c) = p' := by
  rw [start, bind_eq_ok]
  simp only [Prod.exists]
  refine exists_congr fun tag => exists_congr fun tagEnd => exists_congr fun c => and_congr_right fun _ => ?_
  cases tag with
  | none => exact pure_eq_ok
  | some tag =>
    dsimp only [enter]
    split
    · exact pure_eq_ok
    · exact pure_eq_ok

end Progress

/-! ## Documents -/

theorem skipMisc_eq_ok : skipMisc c = .ok c' ↔
    if c.skipSpace.sees "<!--" then
      ∃ next, readComment c.skipSpace = .ok next ∧ next.rest.length < c.rest.length ∧ skipMisc next = .ok c'
    else if c.skipSpace.sees "<?" then
      ∃ next, readInstruction c.skipSpace = .ok next ∧ next.rest.length < c.rest.length ∧ skipMisc next = .ok c'
    else c.skipSpace = c' := by
  rw [skipMisc]
  dsimp only
  split
  · cases readComment c.skipSpace with
    | error => simp only [reduceCtorEq, false_and, exists_false]
    | ok next => simp only [Except.ok.injEq, exists_eq_left', ite_eq_ok]
  · split
    · cases readInstruction c.skipSpace with
      | error => simp only [reduceCtorEq, false_and, exists_false]
      | ok next => simp only [Except.ok.injEq, exists_eq_left', ite_eq_ok]
    · simp only [Except.ok.injEq]

theorem declarationSpace_eq_ok : declarationSpace c = .ok c' ↔
    if c.rest.isEmpty then c = c'
    else if c.atSpace then c.skipSpace = c'
    else c.sees "?>" = true ∧ c = c' := by
  rw [declarationSpace]
  cases c.rest with
  | nil => simp only [List.isEmpty_nil, if_true, Except.ok.injEq]
  | cons next rest =>
    rw [List.isEmpty_cons, if_neg Bool.false_ne_true]
    dsimp only
    split
    · simp only [Except.ok.injEq]
    · exact require_eq_ok

theorem declarationPart_eq_ok {word : String} : declarationPart word c = .ok c' ↔
    if c.sees word then ∃ name raw start, readAttribute c = .ok (name, raw, start, c') else c = c' := by
  rw [declarationPart]
  cases c.sees word with
  | false => exact pure_eq_ok
  | true =>
    refine bind_eq_ok.trans ?_
    simp only [pure_eq_ok, Prod.exists, exists_eq_right]
    rfl

theorem readDeclaration_eq_ok : readDeclaration c = .ok c' ↔ ∃ c₁ c₂ c₃ c₄ c₅,
    declarationSpace (c.advance 5) = .ok c₁ ∧ c₁.sees "version" = true ∧ declarationPart "version" c₁ = .ok c₂ ∧
      declarationSpace c₂ = .ok c₃ ∧
      (if c₃.sees "encoding" then ∃ d, declarationPart "encoding" c₃ = .ok d ∧ declarationSpace d = .ok c₄
        else c₃ = c₄) ∧
      declarationPart "standalone" c₄ = .ok c₅ ∧ c₅.skipSpace.expectWord "?>" = .ok c' := by
  rw [readDeclaration, bind_eq_ok]
  refine exists_congr fun c₁ => ?_
  simp only [guard_eq_ok, bind_eq_ok, exists_and_left, Bool.not_eq_true, Bool.not_eq_false']
  refine and_congr_right fun _ => and_congr_right fun _ => exists_congr fun c₂ => and_congr_right fun _ =>
    exists_congr fun c₃ => and_congr_right fun _ => ?_
  split
  · simp only [bind_eq_ok]
    exact ⟨fun ⟨d, hd, c₄, hc₄, h⟩ => ⟨c₄, ⟨d, hd, hc₄⟩, h⟩, fun ⟨c₄, ⟨d, hd, hc₄⟩, h⟩ => ⟨d, hd, c₄, hc₄, h⟩⟩
  · simp only [bind_eq_ok, pure_eq_ok]

theorem readProlog_eq_ok : readProlog c = .ok c' ↔ ∃ c₀, (if c.sees "\ufeff" then c.advance 1 else c) = c₀ ∧
    ∃ c₁, (if c₀.sees "<?xml " then readDeclaration c₀ = .ok c₁ else c₀ = c₁) ∧ skipMisc c₁ = .ok c' ∧
      c'.sees "<!DOCTYPE" = false := by
  simp only [readProlog, exists_eq_left']
  generalize (if c.sees "\ufeff" then c.advance 1 else c) = c₀
  split
  · simp only [bind_eq_ok, guard_eq_ok, pure_eq_ok, exists_eq_right_right, Bool.not_eq_true]
  · simp only [bind_eq_ok, guard_eq_ok, pure_eq_ok, exists_eq_right_right, Bool.not_eq_true]

/-- The end of a document: its root, and the prefixes in use. -/
theorem root_eq_ok {p : Progress} {root : Element} {prefixes : List (String × String)} :
    (match p.root with
      | some root => (pure (root, p.prefixes) : Except Fault (Element × List (String × String)))
      | none => throw Fault.noRoot) = .ok (root, prefixes) ↔ p.root = some root ∧ p.prefixes = prefixes := by
  cases p.root with
  | none =>
    constructor
    · intro h
      cases h
    · rintro ⟨h, -⟩
      cases h
  | some e => simp only [pure_eq_ok, Prod.mk.injEq, Option.some.injEq]

theorem readRoot_eq_ok {root : Element} {prefixes : List (String × String)} :
    readRoot s = .ok (root, prefixes) ↔ ∃ c p behind, readProlog (Cursor.start s) = .ok c ∧
      (if c.rest.head? = some '<' then
        ∃ first, Progress.start ⟨c, [], false, [], none⟩ = .ok first ∧ first.run = .ok p
      else ⟨c, [], false, [], none⟩ = p) ∧
      skipMisc p.cursor = .ok behind ∧ behind.rest = [] ∧ p.opened = [] ∧ p.root = some root ∧
      p.prefixes = prefixes := by
  rw [readRoot, bind_eq_ok]
  refine exists_congr fun c => ?_
  simp only [exists_and_left]
  refine and_congr_right fun _ => ?_
  split
  · simp only [bind_eq_ok, guard_eq_ok]
    constructor
    · rintro ⟨first, hfirst, p, hp, behind, hmisc, hrest, hopened, h⟩
      exact ⟨p, ⟨first, hfirst, hp⟩, behind, hmisc, by simpa using hrest, by simpa using hopened, root_eq_ok.1 h⟩
    · rintro ⟨p, ⟨first, hfirst, hp⟩, behind, hmisc, hrest, hopened, h⟩
      exact ⟨first, hfirst, p, hp, behind, hmisc, by simpa using hrest, by simpa using hopened, root_eq_ok.2 h⟩
  · simp only [bind_eq_ok, guard_eq_ok, pure_eq_ok]
    constructor
    · rintro ⟨p, hp, behind, hmisc, hrest, hopened, h⟩
      exact ⟨p, hp, behind, hmisc, by simpa using hrest, by simpa using hopened, root_eq_ok.1 h⟩
    · rintro ⟨p, hp, behind, hmisc, hrest, hopened, h⟩
      exact ⟨p, hp, behind, hmisc, by simpa using hrest, by simpa using hopened, root_eq_ok.2 h⟩

theorem parse_eq_ok {root : Element} : parse s = .ok root ↔ ∃ e prefixes, readRoot s = .ok (e, prefixes) ∧
    { e with tag := { e.tag with prefixes := prefixes } } = root := by
  simp only [parse, bind_eq_ok, pure_eq_ok, Prod.exists]

end MathMarkup.Xml
