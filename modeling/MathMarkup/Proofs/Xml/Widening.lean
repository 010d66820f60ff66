import Mathlib.Data.List.Forall2
import MathMarkup.Proofs.Xml.Beside

/-!
# One default namespace more

A scope without a default namespace gets one (`Widens`). Prefixes keep their namespaces, so every start tag
that can be read in the one scope can be read in the other, with the same name; attributes in that namespace may
lose their prefixes.

Main statement: `readStartTag_like`.
-/

namespace MathMarkup.Xml

open Text

variable {space : String} {σ τ own front : Scope} {c c' d : Cursor} {a b a' : Attributes}

/-! ## Scopes -/

/-- The second scope is the first one, or it has this default namespace and the first one has none. -/
inductive Widens (space : String) : Scope → Scope → Prop
  | refl (σ : Scope) : Widens space σ σ
  | insert (a b : Scope) (bare : ∀ d ∈ a ++ b, d.1 ≠ none) : Widens space (a ++ b) (a ++ (none, space) :: b)

/-- Prefixes keep their namespaces. -/
theorem Widens.spaceOf?_eq (h : Widens space σ τ) (pre : String) : τ.spaceOf? (some pre) = σ.spaceOf? (some pre) := by
  cases h with
  | refl => rfl
  | insert a b bare => simp [Scope.spaceOf?, List.lookup_append, List.lookup_cons]

/-- A namespace keeps the prefix that is written for it, unless it is the new default. -/
theorem Widens.prefixOf?_eq (h : Widens space σ τ) (name : String) :
    τ.prefixOf? name = σ.prefixOf? name ∨ τ.prefixOf? name = none := by
  cases h with
  | refl => exact Or.inl rfl
  | insert a b bare =>
    unfold Scope.prefixOf?
    split
    · exact Or.inl rfl
    · rw [List.find?_append, List.find?_append, List.find?_cons]
      cases ha : List.find? (fun d => d.2 == name) a with
      | some d => exact Or.inl rfl
      | none =>
        cases space == name with
        | true => exact Or.inr rfl
        | false => exact Or.inl rfl

/-- What an element takes over from its parent, one declaration after the other. -/
theorem foldl_extend_insert (space : String) (acc l : Scope) {b : Scope} (hb : ∀ d ∈ b, d.1 ≠ none) :
    ∃ l' : Scope, (∀ d ∈ l', d ∈ l ∨ d ∈ b) ∧
      b.foldl (fun scope d => if scope.any (·.1 == d.1) then scope else scope ++ [d]) (acc ++ l) = acc ++ l' ∧
      b.foldl (fun scope d => if scope.any (·.1 == d.1) then scope else scope ++ [d]) (acc ++ (none, space) :: l) =
        acc ++ (none, space) :: l' := by
  induction b generalizing l with
  | nil => exact ⟨l, fun d hd => Or.inl hd, rfl, rfl⟩
  | cons e b ih =>
    obtain ⟨he, hb⟩ := List.forall_mem_cons.1 hb
    have hsame : (acc ++ (none, space) :: l).any (·.1 == e.1) = (acc ++ l).any (·.1 == e.1) := by
      have hnone : ((none : Option String) == e.1) = false := beq_eq_false_iff_ne.2 (Ne.symm he)
      rw [List.any_append, List.any_append, List.any_cons, hnone, Bool.false_or]
    rw [List.foldl_cons, List.foldl_cons, hsame]
    split
    · obtain ⟨l', hl', hshort, hlong⟩ := ih l hb
      exact ⟨l', fun d hd => (hl' d hd).imp_right (List.mem_cons_of_mem e), hshort, hlong⟩
    · obtain ⟨l', hl', hshort, hlong⟩ := ih (l ++ [e]) hb
      rw [List.append_assoc, List.append_assoc, List.cons_append]
      refine ⟨l', fun d hd => ?_, hshort, hlong⟩
      rw [List.mem_cons]
      rcases hl' d hd with hmem | hmem
      · exact (List.mem_append.1 hmem).imp_right fun hsingle => Or.inl (List.mem_singleton.1 hsingle)
      · exact Or.inr (Or.inr hmem)

theorem Widens.extend (h : Widens space σ τ) (own : Scope) : Widens space (own.extend σ) (own.extend τ) := by
  unfold Scope.extend
  split
  · exact h
  · cases h with
    | refl => exact .refl _
    | insert a b bare =>
      obtain ⟨-, hb⟩ := List.forall_mem_append.1 bare
      rw [List.foldl_append, List.foldl_append, List.foldl_cons]
      generalize a.foldl (fun scope d => if scope.any (·.1 == d.1) then scope else scope ++ [d]) own = acc
      split
      · exact .refl _
      · rename_i hacc
        obtain ⟨l, hl, hshort, hlong⟩ := foldl_extend_insert space acc [] hb
        rw [List.append_nil] at hshort
        rw [hshort, hlong]
        refine .insert acc l (List.forall_mem_append.2 ⟨fun d hd hnone => hacc ?_, fun d hd => ?_⟩)
        · exact List.any_eq_true.2 ⟨d, hd, beq_iff_eq.2 hnone⟩
        · exact (hl d hd).elim (fun h => absurd h List.not_mem_nil) (hb d)

/-! ## Declarations -/

/-- Default namespaces in front do not matter for the declaration of a prefix. -/
theorem declarePrefix_append (hfront : ∀ d ∈ front, d.1 = none) (pre name : String) :
    Scope.declarePrefix (front ++ own) pre name = (Scope.declarePrefix own pre name).map (front ++ ·) := by
  have hany : (front ++ own).any (·.1 == some pre) = own.any (·.1 == some pre) := by
    rw [List.any_append, Bool.or_eq_right_iff_imp, List.any_eq_true]
    rintro ⟨d, hd, heq⟩
    rw [hfront d hd] at heq
    cases heq
  unfold Scope.declarePrefix
  rw [hany]
  split
  · rfl
  · split
    · rfl
    · split
      · rfl
      · split
        · rfl
        · split
          · rfl
          · rw [Except.map, List.append_assoc]

theorem declareDefault_append (name : String) :
    Scope.declareDefault (front ++ own) name = (Scope.declareDefault own name).map (front ++ ·) := by
  unfold Scope.declareDefault
  split
  · rfl
  · split
    · rfl
    · rw [Except.map, List.append_assoc]

/-! ## Attributes -/

/-- The same name and value, at another place perhaps. -/
structure RawAttribute.Like (r r' : RawAttribute) : Prop where
  name : r'.name = r.name
  value : r'.value = r.value

/-- The same attributes, behind further declarations. -/
structure Attributes.Like (front : Scope) (a b : Attributes) : Prop where
  own : b.own = front ++ a.own
  list : List.Forall₂ RawAttribute.Like a.list b.list

theorem Attributes.Like.add (h : a.Like front b) (hfront : ∀ d ∈ front, d.1 = none) {name : QName} {value : List Char}
    {p : Position} (hadd : a.add name value p = .ok a') (q : Position) :
    ∃ b', b.add name value q = .ok b' ∧ a'.Like front b' := by
  have hcases := add_eq_ok.1 hadd
  split at hcases
  · rename_i hprefix
    obtain ⟨own, hown, rfl⟩ := hcases
    refine ⟨{ b with own := front ++ own }, add_eq_ok.2 ?_, rfl, h.list⟩
    rw [if_pos hprefix, h.own, declarePrefix_append hfront, hown]
    exact ⟨_, rfl, rfl⟩
  · rename_i hprefix
    split at hcases
    · rename_i hlocal
      obtain ⟨own, hown, rfl⟩ := hcases
      refine ⟨{ b with own := front ++ own }, add_eq_ok.2 ?_, rfl, h.list⟩
      rw [if_neg hprefix, if_pos hlocal, h.own, declareDefault_append, hown]
      exact ⟨_, rfl, rfl⟩
    · rename_i hlocal
      subst hcases
      refine ⟨{ b with list := b.list ++ [⟨name, value, q⟩] }, add_eq_ok.2 ?_, h.own, ?_⟩
      · rw [if_neg hprefix, if_neg hlocal]
      · exact List.rel_append h.list (.cons ⟨rfl, rfl⟩ .nil)

/-! ## Values -/

/-- What references stand for does not depend on where they stand. -/
theorem resolve_eq_ok {p : Position} {s : List Char} {letters : List Letter} (h : resolve p s = .ok letters)
    (q : Position) : resolve q s = .ok letters := by
  fun_induction resolve p s generalizing letters q with
  | case1 p => rwa [resolve]
  | case2 p c s hc ih =>
    obtain ⟨rest, hrest, rfl⟩ := map_eq_ok.1 h
    rw [resolve, if_pos hc, ih hrest]
    rfl
  | case3 => cases h
  | case4 => cases h
  | case5 p c s hc d rest hsplit hless ih =>
    obtain ⟨tail, htail, rfl⟩ := map_eq_ok.1 h
    rw [resolve, if_neg hc, hsplit]
    dsimp only
    rw [if_pos hless, ih htail]
    rfl
  | case6 => cases h

theorem attributeValue_eq_ok {p : Position} {s value : List Char} (h : attributeValue p s = .ok value) (q : Position) :
    attributeValue q s = .ok value := by
  obtain ⟨letters, hletters, rfl⟩ := map_eq_ok.1 h
  exact map_eq_ok.2 ⟨letters, resolve_eq_ok hletters q, rfl⟩

theorem characterData_eq_ok {p : Position} {s text : List Char} (h : characterData p s = .ok text) (q : Position) :
    characterData q s = .ok text := by
  unfold characterData at h ⊢
  split at h
  · rename_i hany
    obtain ⟨letters, hletters, rfl⟩ := map_eq_ok.1 h
    rw [if_pos hany, resolve_eq_ok hletters q]
    rfl
  · rename_i hany
    rwa [if_neg hany]

/-! ## Start tags -/

/-- Cursors in front of the same text. -/
theorem beside_of_rest_eq (h : d.rest = c.rest) : Beside [] [] c d :=
  ⟨.empty, c.rest, (List.append_nil _).symm, h.trans (List.append_nil _).symm⟩

theorem Beside.rest_eq (h : Beside [] [] c d) : d.rest = c.rest := by
  obtain ⟨v, hc, hd⟩ := h.rest
  rw [hc, hd]

theorem before_nil (c : Cursor) : Before [] c := Nat.zero_le _

theorem readAttributes_like (h : a.Like front b) (hfront : ∀ d ∈ front, d.1 = none) (hrest : d.rest = c.rest)
    {tagEnd : TagEnd} (hread : readAttributes a c = .ok (a', tagEnd, c')) :
    ∃ b' d', readAttributes b d = .ok (b', tagEnd, d') ∧ a'.Like front b' ∧ d'.rest = c'.rest := by
  induction hlen : c.rest.length using Nat.strongRecOn generalizing a b c d with
  | ind len ih =>
    subst hlen
    have hbeside := beside_of_rest_eq hrest
    have hhere := hbeside.skipSpace (before_nil _)
    have hcases := readAttributes_eq_ok.1 hread
    rw [← hbeside.isEmpty, ← hhere.head?, ← hhere.isEmpty, ← hbeside.atSpace] at hcases
    split at hcases
    · rename_i hend
      obtain ⟨rfl, rfl, rfl⟩ := hcases
      exact ⟨b, d, readAttributes_eq_ok.2 (by rw [if_pos hend]; exact ⟨rfl, rfl, rfl⟩), h, hrest⟩
    · rename_i hend
      split at hcases
      · rename_i hslash
        obtain ⟨hexpect, rfl, rfl⟩ := hcases
        obtain ⟨d', hd', h'⟩ := (hhere.advance (before_nil _)).expect hexpect (before_nil _)
        refine ⟨b, d', readAttributes_eq_ok.2 ?_, h, h'.rest_eq⟩
        rw [if_neg hend, if_pos hslash]
        exact ⟨hd', rfl, rfl⟩
      · rename_i hslash
        split at hcases
        · rename_i hclose
          obtain ⟨rfl, rfl, rfl⟩ := hcases
          refine ⟨b, _, readAttributes_eq_ok.2 ?_, h, (hhere.advance (before_nil _)).rest_eq⟩
          rw [if_neg hend, if_neg hslash, if_pos hclose]
          exact ⟨rfl, rfl, rfl⟩
        · rename_i hclose
          obtain ⟨hmore, hspace, name, raw, start, behind, value, b₁, hattribute, hvalue, hadd, hless, hrec⟩ := hcases
          obtain ⟨start', e, he, hbehind⟩ := hhere.readAttribute hattribute (before_nil _)
          obtain ⟨b₂, hb₂, h₂⟩ := h.add hfront hadd d.skipSpace.position
          obtain ⟨b', d', hd', h', hrest'⟩ := ih _ hless h₂ hbehind.rest_eq hrec rfl
          refine ⟨b', d', readAttributes_eq_ok.2 ?_, h', hrest'⟩
          rw [if_neg hend, if_neg hslash, if_neg hclose]
          exact ⟨hmore, hspace, name, raw, start', e, value, b₂, he, attributeValue_eq_ok hvalue start', hb₂,
            hbeside.length_lt hbehind hless, hd'⟩

/-- The attributes of the second tag are those of the first; some may have lost their prefixes. -/
structure Tag.Like (t u : Tag) : Prop where
  name : u.name = t.name
  get? : ∀ key, ':' ∉ key.toList → (t.get? key).isSome → (u.get? key).isSome

/-- Start tags that are read alike in a scope with one default namespace more. -/
structure StartTag.Like (space : String) (t u : StartTag) : Prop where
  name : u.name = t.name
  tag : t.tag.Like u.tag
  scope : Widens space t.scope u.scope

theorem resolvePrefix_like (h : Widens space σ τ) {pre : List Char} {p : Position} {found : String}
    (hread : resolvePrefix σ pre p = .ok found) (q : Position) : resolvePrefix τ pre q = .ok found := by
  unfold resolvePrefix at hread
  split at hread
  · rename_i name hname
    rw [resolvePrefix, h.spaceOf?_eq, hname]
    exact hread
  · cases hread

theorem space_like (h : Widens space σ τ) {r r' : RawAttribute} (hr : r.Like r') {found : Option String}
    (hread : r.space σ = .ok found) : r'.space τ = .ok found := by
  unfold RawAttribute.space at hread ⊢
  rw [hr.name]
  split at hread
  · rename_i hxml
    rwa [if_pos hxml]
  · rename_i hxml
    rw [if_neg hxml]
    split at hread
    · rename_i hempty
      rwa [if_pos hempty]
    · rename_i hempty
      obtain ⟨name, hname, rfl⟩ := map_eq_ok.1 hread
      rw [if_neg hempty, resolvePrefix_like h hname]
      rfl

theorem resolveAttributes_like (h : Widens space σ τ) {list list' : List RawAttribute}
    (hlist : List.Forall₂ RawAttribute.Like list list') {seen : List (Option String × List Char)}
    {r : List (Option String × RawAttribute)} (hread : resolveAttributes σ seen list = .ok r) :
    ∃ r', resolveAttributes τ seen list' = .ok r' ∧
      List.Forall₂ (fun x y => y.1 = x.1 ∧ RawAttribute.Like x.2 y.2) r r' := by
  induction hlist generalizing seen r with
  | nil => exact ⟨[], rfl, by cases hread; exact .nil⟩
  | @cons a a' list list' ha _ ih =>
    obtain ⟨found, resolved, hspace, hseen, hrest, rfl⟩ := resolveAttributes_cons_eq_ok.1 hread
    obtain ⟨resolved', hrest', hlike⟩ := ih hrest
    refine ⟨(found, a') :: resolved', resolveAttributes_cons_eq_ok.2 ?_, .cons ⟨rfl, ha⟩ hlike⟩
    rw [ha.name]
    exact ⟨found, resolved', space_like h ha hspace, hseen, hrest', rfl⟩

/-- A key without a prefix stays. -/
theorem keyed_like (h : Widens space σ τ) {x y : Option String × RawAttribute} (hspace : y.1 = x.1)
    (hlike : x.2.Like y.2) {key : String} (hkey : ':' ∉ key.toList) (hx : (keyed σ x).1 = key) :
    (keyed τ y).1 = key := by
  have hnone : knownPrefix? σ x.1 = none := by
    rw [Option.eq_none_iff_forall_ne_some]
    rintro ⟨pre, name⟩ hknown
    rw [keyed, hknown] at hx
    refine hkey ?_
    rw [← hx]
    simp
  have hnone' : knownPrefix? τ y.1 = none := by
    rw [hspace]
    cases hx₁ : x.1 with
    | none => rfl
    | some name =>
      rw [hx₁] at hnone
      unfold knownPrefix? at hnone ⊢
      rcases h.prefixOf?_eq name with heq | heq
      · simpa [heq] using hnone
      · simp [heq]
  rw [keyed, hnone] at hx
  rw [keyed, hnone', hlike.name]
  exact hx

theorem lookup_keyed_like (h : Widens space σ τ) {r r' : List (Option String × RawAttribute)}
    (hr : List.Forall₂ (fun x y => y.1 = x.1 ∧ RawAttribute.Like x.2 y.2) r r') {key : String} (hkey : ':' ∉ key.toList)
    (hget : ((r.map (keyed σ)).lookup key).isSome) : ((r'.map (keyed τ)).lookup key).isSome := by
  induction hr with
  | nil => exact hget
  | @cons x y r r' hxy _ ih =>
    rw [List.map_cons, List.lookup_cons] at hget ⊢
    by_cases hx : (keyed σ x).1 = key
    · have hy := keyed_like h hxy.1 hxy.2 hkey hx
      simp [hy]
    · have hne : (key == (keyed σ x).1) = false := beq_eq_false_iff_ne.2 (Ne.symm hx)
      rw [hne] at hget
      split
      · rfl
      · exact ih hget

theorem elementSpace_like {name : QName} {p : Position} {found : Option String} (h : Widens space σ τ)
    (hread : elementSpace σ p name = .ok found) (q : Position) : ∃ found', elementSpace τ q name = .ok found' := by
  unfold elementSpace at hread ⊢
  split at hread
  · rename_i hempty
    exact ⟨_, if_pos hempty⟩
  · rename_i hempty
    obtain ⟨s, hs, rfl⟩ := map_eq_ok.1 hread
    exact ⟨some s, by rw [if_neg hempty, resolvePrefix_like h hs]; rfl⟩

theorem makeTag_like {parent parent' : Scope} {name : QName} {p : Position} {t : StartTag}
    (h : Widens space (a.own.extend parent) (b.own.extend parent'))
    (hlist : List.Forall₂ RawAttribute.Like a.list b.list)
    (hread : makeTag parent p name a = .ok t) (q : Position) :
    ∃ u, makeTag parent' q name b = .ok u ∧ t.Like space u := by
  obtain ⟨attributes, found, hattributes, hfound, rfl⟩ := makeTag_eq_ok.1 hread
  obtain ⟨attributes', hattributes', hlike⟩ := resolveAttributes_like h hlist hattributes
  obtain ⟨found', hfound'⟩ := elementSpace_like h hfound q
  refine ⟨_, makeTag_eq_ok.2 ⟨attributes', found', hattributes', hfound', rfl⟩, rfl, ⟨rfl, ?_⟩, h⟩
  exact fun key hkey hget => lookup_keyed_like h hlike hkey hget

theorem readStartTag_like {parent parent' : Scope} (h : Widens space parent parent') (hrest : d.rest = c.rest)
    {t : Option StartTag} {tagEnd : TagEnd} (hread : readStartTag parent c = .ok (t, tagEnd, c')) :
    ∃ u d', readStartTag parent' d = .ok (u, tagEnd, d') ∧ Option.Rel (StartTag.Like space) t u ∧
      d'.rest = c'.rest := by
  obtain ⟨name, c₁, a, hname, hprefix, hattributes, hmake⟩ := readStartTag_eq_ok.1 hread
  obtain ⟨d₁, hd₁, h₁⟩ := ((beside_of_rest_eq hrest).advance (before_nil _)).qname hname (before_nil _)
  have hstart : Attributes.Like [] ⟨[], []⟩ ⟨[], []⟩ := ⟨rfl, .nil⟩
  obtain ⟨b, d', hd', hlike, hrest'⟩ := readAttributes_like hstart (List.forall_mem_nil _) h₁.rest_eq hattributes
  have hwidens : Widens space (a.own.extend parent) (b.own.extend parent') := by
    rw [hlike.own]
    exact h.extend a.own
  cases tagEnd with
  | cutOff =>
    subst hmake
    exact ⟨none, d', readStartTag_eq_ok.2 ⟨name, d₁, b, hd₁, hprefix, hd', rfl⟩, .none, hrest'⟩
  | opened | empty =>
    obtain ⟨t, ht, rfl⟩ := hmake
    obtain ⟨u, hu, hmade⟩ := makeTag_like hwidens hlike.list ht d.position
    exact ⟨some u, d', readStartTag_eq_ok.2 ⟨name, d₁, b, hd₁, hprefix, hd', u, hu, rfl⟩, .some hmade, hrest'⟩

end MathMarkup.Xml
