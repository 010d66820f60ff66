import MathMarkup.Proofs.Conversion.Checked
import MathMarkup.Proofs.Conversion.Faultless
import MathMarkup.Proofs.Conversion.Unshifted
import MathMarkup.Proofs.Conversion.Validity

/-!
# The check and the conversion

Both read the same expression: the check counts brackets and arguments token by token, the conversion goes from
group to group. `ReadAlike` says where the two readings are the same. There a text without a finding is supplied
(`AlikeWith.suppliedWith`), so the conversion finds no fault in it either, except that only the conversion looks for
what scripts apply to.

Main theorem: `transliterate_of_check`.
-/

namespace MathMarkup.Tex

open Text Sign

variable {us x y z : List Sign} {u : Sign} {s name : List Char} {Q R : List Sign → Prop}

/-! ## Where both read alike -/

/-- No bracket is left over, and no command misses an argument. -/
structure Unfaulted (s : List Char) : Prop where
  pairing : unpaired (delimiters s) = []
  arguments : argumentFindings s = []

/-- The arguments behind a command are the same for the check, for which `behind` follows the expression, as for the
conversion. Those that the check does not count are there. The indices of roots satisfy `Q`. -/
structure AlikeWord (Q : List Sign → Prop) (us : List Sign) (behind name : List Char) : Prop where
  ne_begin : String.ofList name ≠ "begin"
  ne_end : String.ofList name ≠ "end"
  counted : ∀ b, build? (String.ofList name) = some b → argumentCount? (String.ofList name) = some b.arity ∨
    b.arity ≤ countArguments b.arity (countedText name (spell us ++ behind))
  inert : ∀ b, build? (String.ofList name) = some b →
    ∀ arg ∈ takenArguments b.arity (countedText name (spell us ++ behind)), isInert arg = true
  index : name = "sqrt".toList → bracketed? (spell us ++ behind) ≠ none → ∃ index rest, HasIndex us index rest ∧ Q index

/-- What stands behind the sign is the same for the check as for the conversion, which leaves dollar signs out. -/
def Sign.Alike (Q : List Sign → Prop) (us : List Sign) (behind : List Char) : Sign → Prop
  | char c => c = '^' ∨ c = '_' → ∀ r, splitArgument? (spell (unshifted us)) = some r → isInert r.2.1 = true
  | word name => AlikeWord Q us behind name
  | env true name => trim name = name ∧ ∀ body rest, unshifted us = body ++ env false name :: rest → Nested body →
    (fences? (String.ofList name)).isSome → Cuts (blocksOf (tableSigns name body))
  | _ => True

/-- The expression `us` between `x` and `z` is read alike. -/
structure AlikeWith (Q : List Sign → Prop) (x us z : List Sign) : Prop where
  readable : Legible (x ++ (us ++ z))
  /-- Nothing else is read when no dollar sign stands between. -/
  shown : Legible (unshifted us)
  /-- No delimiter of a display is an argument. -/
  behind : ∀ r, splitArgument? (spell z) = some r → isInert r.2.1 = false
  sized : NoSizedBrace ((tokens (spell (x ++ (us ++ z)))).filter fun t => !t.kind.isTrivia)
  /-- No brace stands outside. -/
  outside : braces x = [] ∧ braces z = []
  /-- Environments open and close in one another, and in the groups when the braces fit. -/
  nested : (∃ opening name, .env opening name ∈ us) → level? 0 (braces us) = some 0 → Nested us
  signs : ∀ before u y, us = before ++ u :: y → u.Alike Q y (spell z)

/-- The index of a root is read alike by itself, without a finding, and holds no root with an index. -/
structure AlikeIndex (index : List Sign) : Prop where
  alike : AlikeWith (fun _ => False) [] index []
  unfaulted : Unfaulted (spell index)

/-- **The check and the conversion read the text alike.** -/
def ReadAlike (s : List Char) : Prop := ∃ x us z, spell (x ++ (us ++ z)) = s ∧ AlikeWith AlikeIndex x us z ∧
  expressionBody s = spell (unshifted us) ∧
  (1 < (tableCells (spell (unshifted us))).length → Cuts (blocksOf (unshifted us)))

theorem Sign.alike_char {c : Char} (hc : c ≠ '^' ∧ c ≠ '_') : (char c).Alike Q us s := fun h => absurd h (not_or.2 hc)

/-- What holds of each sign and what stands behind it holds of the first sign, and of each one behind it. -/
theorem forall_cuts_cons {P : Sign → List Sign → Prop} : (∀ before v y, u :: us = before ++ v :: y → P v y) ↔
    P u us ∧ ∀ before v y, us = before ++ v :: y → P v y := by
  refine ⟨fun h => ⟨h [] u us rfl, fun before v y hus => h (u :: before) v y (by rw [hus]; rfl)⟩, ?_⟩
  rintro ⟨hu, hus⟩ before v y h
  cases before with
  | nil =>
    obtain ⟨rfl, rfl⟩ := List.cons.inj h
    exact hu
  | cons w before => exact hus before v y (List.cons.inj h).2

theorem forall_cuts_nil {P : Sign → List Sign → Prop} : (∀ before v y, [] = before ++ v :: y → P v y) ↔ True := by
  simp

/-! ## Supplied expressions -/

theorem eq_sqrt_of_build? {command : String} {bare : List MathML.Markup → MathML.Markup}
    {f : List MathML.Markup → List MathML.Markup → MathML.Markup} (h : build? command = some (.indexed bare f)) :
    command = "sqrt" := by
  obtain ⟨c, hc, hbuild⟩ := Option.map_eq_some_iff.1 h
  have hcommand : command ∈ c.commands := by simpa using List.find?_some hc
  have hmem := List.mem_of_find?_eq_some hc
  simp only [constructs, List.mem_cons, List.not_mem_nil, or_false] at hmem
  rcases hmem with rfl | rfl | rfl | rfl | rfl | rfl | rfl | rfl | rfl | rfl
  case inr.inr.inl => exact List.mem_singleton.1 hcommand
  all_goals cases hbuild

theorem countedText_sqrt (s : List Char) : countedText "sqrt".toList s = skipOptional s := if_pos (beq_self_eq_true _)

theorem HasIndex.append {index rest : List Sign} (h : HasIndex us index rest) (z : List Sign) :
    HasIndex (us ++ z) index (rest ++ z) := by
  obtain ⟨blanks, hblanks, rfl⟩ := h.spelled
  exact ⟨⟨blanks, hblanks, by simp⟩, h.nested, h.closed, h.whole⟩

/-- An operand that is still one by itself is found. -/
theorem finds_script (hy : Nested (x ++ y)) (hread : Legible y)
    (halike : ∀ r, splitArgument? (spell y) = some r → isInert r.2.1 = true) :
    argument? (spell y) = none ∨ Supplies 1 y := by
  cases h : splitArgument? (spell y) with
  | none => exact Or.inl (by rw [argument?, h, Option.map_none])
  | some r =>
    have hnil : y = y ++ [] := (List.append_nil y).symm
    refine Or.inr (Supplies.of_count hy (hnil ▸ hread) (by rintro r ⟨⟩) ?_ ?_)
    · rw [← hnil, countArguments, h]
      exact Nat.le_add_left 1 _
    · rw [← hnil, takenArguments, h]
      exact List.forall_mem_singleton.2 (halike r h)

/-- A command that has its arguments for the check has them for the conversion. -/
theorem finds_build {b : Build} (hy : Nested (x ++ y)) (hread : Legible (y ++ z)) (hshown : Legible (unshifted y))
    (hz : ∀ r, splitArgument? (spell z) = some r → isInert r.2.1 = false) (halike : AlikeWord Q y (spell z) name)
    (hQ : ∀ index, Q index → R (unshifted index)) (hb : build? (String.ofList name) = some b)
    (hcount : b.arity ≤ countArguments b.arity (countedText name (spell (y ++ z)))) : b.Finds R (unshifted y) := by
  have hinert := halike.inert b hb
  have hindex := halike.index
  rw [← spell_append] at hinert hindex
  by_cases hname : name = "sqrt".toList
  · subst hname
    obtain ⟨bare, f, rfl⟩ : ∃ bare f, b = .indexed bare f := ⟨_, _, (Option.some.inj hb).symm⟩
    rw [countedText_sqrt] at hcount hinert
    by_cases hbare : bracketed? (spell (y ++ z)) = none
    · rw [skipOptional_eq_self hbare] at hcount hinert
      rw [spell_append] at hbare
      have hsupplied : Supplies 1 y := Supplies.of_count hy hread hz hcount hinert
      have htaken : (takes? y).isSome := by
        obtain ⟨a, r, ht, -⟩ := hsupplied
        rw [ht]
        rfl
      have hnone := bracketed?_unshifted hread.of_append_left hshown htaken (bracketed?_of_append hbare)
      exact Or.inl ⟨hnone, hsupplied.unshifted hy⟩
    · obtain ⟨index, rest, hfound, hindexed⟩ := hindex rfl hbare
      obtain ⟨front, rfl, -⟩ := hfound.exists_front
      rw [skipOptional_eq (hfound.append z).bracketed?_spell] at hcount hinert
      rw [← List.append_assoc] at hy
      rw [List.append_assoc] at hread
      have hsupplied : Supplies 1 rest := Supplies.of_count hy hread.of_append_right hz hcount hinert
      exact Or.inr ⟨unshifted index, unshifted rest, hfound.unshifted, hQ index hindexed, hsupplied.unshifted hy⟩
  · rw [countedText, if_neg (by simpa using hname)] at hcount hinert
    have hsupplied := (Supplies.of_count hy hread hz hcount hinert).unshifted hy
    cases b with
    | unary | binary | plain | styled => exact hsupplied
    | indexed bare f =>
      have hsqrt := congrArg String.toList (eq_sqrt_of_build? hb)
      rw [String.toList_ofList] at hsqrt
      exact absurd hsqrt hname

/-- The braces that the check has paired are those of the groups. -/
theorem AlikeWith.nested_of_unfaulted (h : AlikeWith Q x us z) (hfault : Unfaulted (spell (x ++ (us ++ z)))) :
    Nested us := by
  have hlevel := level_of_unpaired h.readable hfault.pairing h.sized
  have hbraces : braces (x ++ (us ++ z)) = braces us := by
    rw [braces, List.filterMap_append, List.filterMap_append, ← braces, ← braces, ← braces, h.outside.1, h.outside.2,
      List.nil_append, List.append_nil]
  rw [hbraces] at hlevel
  by_cases hwords : ∃ opening name, .env opening name ∈ us
  · exact h.nested hwords hlevel
  · exact nested_of_level (fun opening name hmem => hwords ⟨opening, name, hmem⟩) hlevel

/-- **An expression without a finding** that is read alike is supplied. -/
theorem AlikeWith.suppliedWith (h : AlikeWith Q x us z) (hQ : ∀ index, Q index → R (unshifted index))
    (hfault : Unfaulted (spell (x ++ (us ++ z)))) : SuppliedWith R (unshifted us) := by
  have hus := h.nested_of_unfaulted hfault
  refine ⟨hus.unshifted, fun before' u y' hcut => ?_⟩
  have hshown := h.shown
  have hnested := hus.unshifted
  obtain ⟨before, y, rfl, rfl, rfl⟩ := exists_of_unshifted hcut
  rw [hcut] at hshown hnested
  have halike := h.signs before u y rfl
  have hall : x ++ (before ++ u :: y ++ z) = (x ++ before) ++ u :: (y ++ z) := by simp
  have hread := h.readable
  rw [hall] at hread hfault
  rw [List.append_cons] at hus hnested
  cases u with
  | escaped | slash => trivial
  | char c => exact fun hc => finds_script hnested hshown.of_append_right.2.2 (halike hc)
  | env opening name =>
    cases opening with
    | false => trivial
    | true => exact halike
  | word name =>
    have halike : AlikeWord Q y (spell z) name := halike
    refine ⟨halike.ne_begin, halike.ne_end, fun b hb => ?_⟩
    refine finds_build hus hread.of_append_right.2.2 hshown.of_append_right.2.2 h.behind halike hQ hb ?_
    rcases halike.counted b hb with harity | hcount
    · exact count_of_findings hread hfault.arguments harity
    · rwa [spell_append]

theorem wellSupplied_of_alike (h : AlikeWith AlikeIndex x us z) (hfault : Unfaulted (spell (x ++ (us ++ z)))) :
    WellSupplied (unshifted us) := by
  refine h.suppliedWith (fun index hindex => ?_) hfault
  have hspell : spell ([] ++ (index ++ [])) = spell index := by simp
  exact hindex.alike.suppliedWith (fun _ => False.elim) (hspell ▸ hindex.unfaulted)

/-! ## Findings and remarks -/

theorem category_of_mem_argumentFindingsOf {ts : List Token} {f : Finding} (h : f ∈ argumentFindingsOf s ts) :
    f.category = .badSyntax := by
  induction ts generalizing s with
  | nil => cases h
  | cons t ts ih =>
    rw [argumentFindingsOf, List.mem_append, Option.mem_toList, missingArguments?] at h
    rcases h with h | h
    · split at h
      · cases h
      · obtain ⟨n, -, h⟩ := Option.bind_eq_some_iff.1 h
        obtain ⟨-, h⟩ := Option.ite_none_right_eq_some.1 h
        cases h
        rfl
    · exact ih h

/-- Every finding of the pairing and of the arguments is a syntax error. -/
theorem unfaulted_of_check {config : Config} (h : ∀ d ∈ check config s, d.category ≠ .badSyntax) : Unfaulted s := by
  have hfindings : ∀ f ∈ pairingFindings s ++ argumentFindings s, f.category ≠ .badSyntax := by
    intro f hf
    have hmem : f ∈ findings config s := List.mem_mergeSort.2 (List.mem_append_left _ hf)
    exact h _ (List.mem_map_of_mem hmem)
  constructor
  · refine List.eq_nil_iff_forall_not_mem.2 fun fault hfault => ?_
    exact hfindings (.pairing fault) (List.mem_append_left _ (List.mem_map_of_mem hfault)) rfl
  · refine List.eq_nil_iff_forall_not_mem.2 fun f hf => ?_
    exact hfindings f (List.mem_append_right _ hf) (category_of_mem_argumentFindingsOf hf)

/-- **The check and the conversion agree.** When a text that both read alike has no syntax error for the check, the
conversion tells of none either, but of scripts that have no operand. -/
theorem transliterate_of_check (config : Config) (s : List Char) (h : ReadAlike s)
    (hcheck : ∀ d ∈ check config s, d.category ≠ .badSyntax) :
    ∃ t, transliterate? s = some t ∧ transliterate s = t ∧ ∀ d ∈ t.diagnostics, d.category = .badSyntax →
      ∃ marker, d = (Remark.missingOperand marker).toDiagnostic := by
  obtain ⟨x, us, z, rfl, halike, hbody, hcuts⟩ := h
  have hserved : IsServed (unshifted us) := ⟨halike.shown, wellSupplied_of_alike halike (unfaulted_of_check hcheck)⟩
  have hmark := noToken_expressionBody halike.readable.hasMark_eq_false
  obtain ⟨t, ht⟩ := Option.isSome_iff_exists.1 (isSome_transliterate? hmark)
  refine ⟨t, ht, by rw [transliterate, ht, Option.getD_some], ?_⟩
  rw [transliterate?, hbody, Option.map_eq_some_iff] at ht
  obtain ⟨c, hc, rfl⟩ := ht
  have hminor : ∀ r ∈ c.remarks, r.IsMinor :=
    remarks_of_convertBody (fun _ => isFaultless_pieces) (isSupplied_of_mem_roots hserved hcuts) hc
  intro d hd hcategory
  obtain ⟨r, hr, rfl⟩ := List.mem_map.1 hd
  obtain ⟨marker, rfl⟩ := hminor r hr hcategory
  exact ⟨marker, rfl⟩

/-- With the index of a root, a table, math shifts in a cell, and a script that has no operand. -/
theorem transliterate_of_check_table :
    let s := "\\[\\sqrt[n]\x7bx^\x7d\\begin\x7bmatrix\x7da&$b$\\end\x7bmatrix\x7d\\]".toList
    ReadAlike s ∧ (∀ d ∈ check {} s, d.category ≠ .badSyntax) ∧
      ∃ t, transliterate? s = some t ∧ transliterate s = t ∧ ∀ d ∈ t.diagnostics, d.category = .badSyntax →
        ∃ marker, d = (Remark.missingOperand marker).toDiagnostic := by
  intro s
  have hcheck : ∀ d ∈ check {} s, d.category ≠ .badSyntax := by decide +kernel
  have hindex : AlikeIndex [char 'n'] := by
    refine ⟨⟨?_, ?_, by rintro r ⟨⟩, ?_, ⟨rfl, rfl⟩, fun _ _ => .flat rfl .nil, ?signs⟩, ?_, ?_⟩
    case signs =>
      simp only [forall_cuts_cons, forall_cuts_nil, and_true]
      exact alike_char (by decide)
    all_goals decide +kernel
  have hcells : ∀ u ∈ [char 'a', char '&', char 'b'], u.isFlat = true := by decide
  have halike : ReadAlike s := by
    refine ⟨[.escaped '['], .word "sqrt".toList :: .char '[' :: .char 'n' :: .char ']' :: .char '{' :: .char 'x' ::
      .char '^' :: .char '}' :: .env true "matrix".toList :: .char 'a' :: .char '&' :: .char '$' :: .char 'b' ::
      .char '$' :: [.env false "matrix".toList], [.escaped ']'], by decide,
      ⟨?_, ?_, ?_, ?_, ⟨rfl, rfl⟩, fun _ _ => ?_, ?_⟩, by decide +kernel,
      fun hrows => absurd hrows (by decide +kernel)⟩
    · decide +kernel
    · decide +kernel
    · rintro r ⟨⟩
      decide +kernel
    · decide +kernel
    · refine .flat rfl (.flat rfl (.flat rfl (.flat rfl ?_)))
      refine .pair (a := [char 'x', char '^']) rfl (.of_flats (by decide)) ?_
      exact .pair (a := [char 'a', char '&', char '$', char 'b', char '$']) rfl (.of_flats (by decide)) .nil
    · simp only [forall_cuts_cons, forall_cuts_nil, and_true]
      refine ⟨?sqrt, ?_, ?_, ?_, ?_, ?_, ?script, ?_, ?matrix, ?_, ?_, ?_, ?_, ?_, trivial⟩
      case sqrt =>
        refine ⟨by decide, by decide, ?_, ?_, fun _ _ => ?_⟩
        · rintro b ⟨⟩
          exact Or.inl (by decide)
        · rintro b ⟨⟩
          decide +kernel
        · exact ⟨[char 'n'], _, ⟨⟨[], by simp, rfl⟩, .flat rfl .nil, by decide, by decide⟩, hindex⟩
      case script =>
        rintro - r ⟨⟩
      case matrix =>
        refine ⟨by decide, fun body rest hbody hnested _ => ?_⟩
        have hpair : (env true "matrix".toList).partner? = some (env false "matrix".toList) := rfl
        obtain ⟨rfl, -⟩ := (Nested.of_flats hcells).eq_of_append (r := []) hnested hpair hbody
        exact cuts_of_flats hcells
      all_goals exact alike_char (by decide)
  exact ⟨halike, hcheck, transliterate_of_check {} s halike hcheck⟩

/-- A script without an operand is a syntax error for the conversion only. -/
theorem exists_check_disagrees : ¬ ∀ s : List Char, (∀ d ∈ check {} s, d.category ≠ .badSyntax) →
    ∀ d ∈ (transliterate s).diagnostics, d.category ≠ .badSyntax := by
  intro h
  have hsilent := h "x^".toList (by decide +kernel)
  revert hsilent
  decide +kernel

/-- Where a condition of `ReadAlike` fails, the conversion finds other faults that the check passes over: in operands
and arguments that take arguments, at names with blanks around them or behind one, in an index, behind the end, beside
`\left`, in groups that a table cuts, and in comments. -/
example : ∀ s ∈ ["x^\\frac\x7b1\x7d\x7b2\x7d", "\\frac\\sqrt\x7b2\x7d3", "\\color\x7ba\x7d", "\\begin \x7ba\x7d",
    "\\begin\x7b a \x7d\\end\x7b a \x7d", "\\end\x7ba\x7d", "\\sqrt[\\frac\x7ba\x7d]\x7bb\x7d", "\\[\\hat\\]",
    "\\left\x7b\\right\x7b", "\\begin\x7bmatrix\x7d\x7ba&b\x7d\\end\x7bmatrix\x7d", "\x7ba\\\\b\x7d",
    "\x7b%\x7d\n\x7d"].map String.toList, (∀ d ∈ check {} s, d.category ≠ .badSyntax) ∧
      ∃ d ∈ (transliterate s).diagnostics, d.category = .badSyntax ∧ d.message ≠ "'^' has no operand" := by
  decide +kernel

end MathMarkup.Tex
