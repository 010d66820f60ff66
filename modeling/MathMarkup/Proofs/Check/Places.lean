import MathMarkup.Proofs.Check.Findings
import MathMarkup.Proofs.Delimiter.Pairing
import MathMarkup.Proofs.Display.Environments
import MathMarkup.Proofs.Text.Cuts
import MathMarkup.Tex.Normalize

/-!
# Where findings point

Every finding is about one token of the checked text (`Finding.IsAbout`). Normalizing checks the bare
expression, and blanks, delimiters and an environment around it cut no such token: it is a token of the whole
text too, as many bytes further on as are taken away in front (`displayFront`). Lines are counted in the bare
expression, so line feeds in what is taken away in front are missing in them.

Main theorem: `lines_normalize`.
-/

namespace MathMarkup.Tex

open Text

variable {s t x y front back : List Char} {c : Char} {k n offset : Nat} {kind : TokenKind} {token : Token}
  {f : Finding} {d : Delimiter} {ts : List Token} {config : Config}

/-! ## The token of a finding -/

/-- Is the delimiter read off the token? -/
def Token.Makes (t : Token) (d : Delimiter) : Prop :=
  t.offset = d.position ∧
    if d.sized then t.side? = some d.bracket.opening else t.side? = none ∧ t.bracket? = some d.bracket

/-- The delimiter that a fault is reported at. -/
def PairingFault.place : PairingFault → Delimiter
  | mismatched _ right => right
  | unclosed left => left
  | unopened right => right

/-- The finding is about the token, and reported where it starts. -/
def Finding.IsAbout (t : Token) : Finding → Prop
  | pairing fault => t.Makes fault.place
  | missingArguments command position _ _ => t.offset = position ∧ t.kind = .command ∧ t.text.tail = command
  | unknownCommand command position => t.offset = position ∧ t.word? = some command

theorem Finding.IsAbout.offset_eq (h : f.IsAbout token) : token.offset = f.position := by
  cases f with
  | pairing fault => cases fault <;> exact h.1
  | missingArguments => exact h.1
  | unknownCommand => exact h.1

/-- A token that is no run of other characters: where it ends does not depend on a blank that follows. -/
def TokenKind.isFirm : TokenKind → Bool
  | .whitespace | .comment | .text => false
  | _ => true

theorem Token.Makes.isFirm (h : token.Makes d) : token.kind.isFirm = true := by
  obtain ⟨kind, text, offset⟩ := token
  have hside : Token.side? ⟨kind, text, offset⟩ ≠ none → kind = .command := by
    intro hne
    by_contra hkind
    exact hne (if_neg (by simpa using hkind))
  obtain ⟨-, h⟩ := h
  split at h
  · obtain rfl := hside (by rw [h]; exact Option.some_ne_none _)
    rfl
  · cases kind with
    | whitespace | comment | text => cases h.2
    | _ => rfl

theorem Finding.IsAbout.isFirm (h : f.IsAbout token) : token.kind.isFirm = true := by
  cases f with
  | pairing fault => exact Token.Makes.isFirm h
  | missingArguments =>
    rw [h.2.1]
    rfl
  | unknownCommand command position =>
    obtain ⟨kind, text, offset⟩ := token
    have hword := h.2
    cases kind with
    | command => rfl
    | _ => cases hword

theorem exists_of_mem_delimitersOf (h : d ∈ delimitersOf ts) : ∃ t ∈ ts, t.Makes d := by
  fun_induction delimitersOf ts with
  | case1 => cases h
  | case2 t opening hside =>
    obtain rfl := List.mem_singleton.1 h
    exact ⟨t, List.mem_singleton_self t, rfl, hside⟩
  | case3 t opening hside next ts carried ih =>
    rcases List.mem_cons.1 h with rfl | h
    · refine ⟨t, List.mem_cons_self, rfl, ?_⟩
      have hopening : (carried.getD ⟨.null, opening⟩).opening = opening := by
        cases hcarried : carried with
        | none => rfl
        | some b => simpa using (Option.filter_eq_some_iff.1 hcarried).2
      exact hside.trans (congrArg some hopening.symm)
    · obtain ⟨u, hu, hmakes⟩ := ih h
      exact ⟨u, List.mem_cons_of_mem t (List.mem_cons_of_mem next hu), hmakes⟩
  | case4 t ts hside b hbracket ih =>
    rcases List.mem_cons.1 h with rfl | h
    · exact ⟨t, List.mem_cons_self, rfl, hside, hbracket⟩
    · obtain ⟨u, hu, hmakes⟩ := ih h
      exact ⟨u, List.mem_cons_of_mem t hu, hmakes⟩
  | case5 t ts hside hbracket ih =>
    obtain ⟨u, hu, hmakes⟩ := ih h
    exact ⟨u, List.mem_cons_of_mem t hu, hmakes⟩

/-- A fault is reported at one of the delimiters. -/
theorem place_mem_of_mem_pairFrom {stack ds : List Delimiter} {fault : PairingFault} (h : fault ∈ pairFrom stack ds) :
    fault.place ∈ stack ++ ds := by
  induction ds generalizing stack with
  | nil =>
    obtain ⟨left, hleft, rfl⟩ := List.mem_map.1 h
    exact List.mem_append_left _ (List.mem_reverse.1 hleft)
  | cons d ds ih =>
    cases hopening : d.bracket.opening with
    | true =>
      rw [pairFrom_of_opening hopening] at h
      have := ih h
      simp only [List.mem_append, List.mem_cons] at this ⊢
      tauto
    | false =>
      cases stack with
      | nil =>
        rw [pairFrom_nil_of_closing hopening] at h
        rcases List.mem_cons.1 h with rfl | h
        · exact List.mem_cons_self
        · exact List.mem_cons_of_mem d (ih h)
      | cons left stack =>
        rw [pairFrom_cons_of_closing hopening] at h
        split at h
        · have := ih h
          simp only [List.mem_append, List.mem_cons] at this ⊢
          tauto
        · rcases List.mem_cons.1 h with rfl | h
          · exact List.mem_append_right _ List.mem_cons_self
          · have := ih h
            simp only [List.mem_append, List.mem_cons] at this ⊢
            tauto

/-- **Every finding is about a token** of the text. -/
theorem exists_token_of_mem_findings (h : f ∈ findings config s) : ∃ t ∈ tokens s, f.IsAbout t := by
  rw [findings, List.mem_mergeSort, List.mem_append, List.mem_append] at h
  rcases h with (h | h) | h
  · obtain ⟨fault, hfault, rfl⟩ := List.mem_map.1 h
    obtain ⟨t, ht, hmakes⟩ := exists_of_mem_delimitersOf (place_mem_of_mem_pairFrom hfault)
    exact ⟨t, List.mem_of_mem_filter ht, hmakes⟩
  · obtain ⟨t, ht, rest, hmissing⟩ := exists_of_mem_argumentFindingsOf h
    obtain ⟨hkind, expected, actual, rfl⟩ := eq_of_missingArguments? hmissing
    exact ⟨t, ht, rfl, hkind, rfl⟩
  · obtain ⟨-, h⟩ := List.mem_ite_nil_right.1 h
    obtain ⟨t, ht, hf⟩ := List.mem_filterMap.1 h
    obtain ⟨name, hword, -, rfl⟩ := unknownCommand?_eq_some_iff.1 hf
    exact ⟨t, ht, rfl, hword⟩

/-! ## Tokens in a longer text -/

theorem TokenKind.Fits.append (h : kind.Fits x y)
    (hback : y = [] → kind.isFirm = true ∧ ∀ c ∈ back.head?, isCommandLetter c = false) :
    kind.Fits x (y ++ back) := by
  have hrun : ∀ {p z}, y ≠ [] → IsLongestRun p z y → IsLongestRun p z (y ++ back) := by
    intro p z hy hz
    refine ⟨hz.all, fun c hc => hz.ends c ?_⟩
    rwa [List.head?_append_of_ne_nil y hy] at hc
  cases kind with
  | command =>
    rcases h with ⟨name, rfl, hname, hz⟩ | h
    · refine Or.inl ⟨name, rfl, hname, ?_⟩
      by_cases hy : y = []
      · subst hy
        exact ⟨hz.all, (hback rfl).2⟩
      · exact hrun hy hz
    · exact Or.inr h
  | whitespace =>
    exact ⟨h.1, hrun (fun hy => by cases (hback hy).1) h.2⟩
  | comment =>
    obtain ⟨line, rfl, hz⟩ := h
    exact ⟨line, rfl, hrun (fun hy => by cases (hback hy).1) hz⟩
  | text =>
    rcases h with ⟨hne, hz⟩ | ⟨-, rfl⟩
    · exact Or.inl ⟨hne, hrun (fun hy => by cases (hback hy).1) hz⟩
    · cases (hback rfl).1
  | _ => exact h

/-- **Text behind** cuts no firm token, unless it goes on with a letter. -/
theorem mem_tokensFrom_append (h : token ∈ tokensFrom offset s) (hfirm : token.kind.isFirm = true)
    (hback : ∀ c ∈ back.head?, isCommandLetter c = false) : token ∈ tokensFrom offset (s ++ back) := by
  fun_induction tokensFrom offset s with
  | case1 => cases h
  | case2 offset c s kind k hm text ih =>
    have hle := munch_le_length hm
    have hnext : (s.drop k = [] → kind.isFirm = true ∧ ∀ c ∈ back.head?, isCommandLetter c = false) →
        tokensFrom offset (c :: s ++ back) =
          ⟨kind, text, offset⟩ :: tokensFrom (offset + byteLength text) (s.drop k ++ back) := by
      intro hend
      have hfits := (fits_munch hm).append hend
      have hmunch := munch_of_fits hfits
      rw [← List.append_assoc, List.take_append_drop, List.length_take_of_le hle] at hmunch
      rw [List.cons_append, tokensFrom_cons hmunch, List.take_append_of_le_length hle,
        List.drop_append_of_le_length hle]
    rcases List.mem_cons.1 h with rfl | h
    · rw [hnext fun _ => ⟨hfirm, hback⟩]
      exact List.mem_cons_self
    · rw [hnext fun hend => by rw [hend, tokensFrom] at h; cases h]
      exact List.mem_cons_of_mem _ (ih h)

/-- Behind the text in front a token starts, whatever stands in front of it. -/
def CutsBehind (front s : List Char) : Prop :=
  ∀ offset, tokensFrom (offset + byteLength front) s <:+ tokensFrom offset (front ++ s)

theorem CutsBehind.append (hx : CutsBehind x (y ++ s)) (hy : CutsBehind y s) : CutsBehind (x ++ y) s := by
  intro offset
  rw [byteLength_append, ← Nat.add_assoc, List.append_assoc]
  exact (hy _).trans (hx offset)

theorem cutsBehind_nil (s : List Char) : CutsBehind [] s := fun _ => List.suffix_rfl

theorem cutsBehind_cons (hm : munch c (front ++ s) = (kind, front.length)) : CutsBehind (c :: front) s := by
  intro offset
  rw [List.cons_append, tokensFrom_cons hm, List.take_left, List.drop_left]
  exact List.suffix_cons _ _

theorem cutsBehind_blanks (hfront : ∀ c ∈ front, isBlank c = true) (hs : ∀ c ∈ s.head?, isBlank c = false) :
    CutsBehind front s := by
  cases front with
  | nil => exact cutsBehind_nil s
  | cons c front =>
    obtain ⟨hc, hfront⟩ := List.forall_mem_cons.1 hfront
    have hrun : munch c (front ++ s) = (.whitespace, front.length) := by
      rw [munch_blank hc, (takeWhile_append_of_head hfront hs).1]
    exact cutsBehind_cons hrun

/-! ## What is taken away in front -/

/-- The text stands in the whole one behind `front`, and what surrounds it cuts no token of it. -/
structure Surrounds (front t s : List Char) (back : List Char) : Prop where
  eq : s = front ++ (t ++ back)
  head : ∀ c ∈ back.head?, isCommandLetter c = false
  cuts : t ≠ [] → ∀ b, CutsBehind front (t ++ (back ++ b))

theorem surrounds_nil (s : List Char) : Surrounds [] s s [] :=
  ⟨by simp, by simp, fun _ _ => cutsBehind_nil _⟩

theorem Surrounds.trans {front' back' u : List Char} (h : Surrounds front t s back)
    (h' : Surrounds front' u t back') : Surrounds (front ++ front') u s (back' ++ back) := by
  obtain ⟨rfl, hhead, hcuts⟩ := h
  obtain ⟨rfl, hhead', hcuts'⟩ := h'
  refine ⟨by simp, fun c hc => ?_, fun hu b => ?_⟩
  · rw [List.head?_append, Option.mem_def, Option.or_eq_some_iff] at hc
    rcases hc with hc | ⟨-, hc⟩
    · exact hhead' c hc
    · exact hhead c hc
  · rw [List.append_assoc back']
    refine CutsBehind.append ?_ (hcuts' hu (back ++ b))
    simpa using hcuts (by simp [hu]) b

theorem surrounds_trim (s : List Char) : ∃ back, Surrounds (s.takeWhile isBlank) (trim s) s back := by
  have hback : trimStart s = trim s ++ ((trimStart s).reverse.takeWhile isBlank).reverse := by
    rw [trim, trimEnd, ← List.reverse_append, List.takeWhile_append_dropWhile, List.reverse_reverse]
  refine ⟨((trimStart s).reverse.takeWhile isBlank).reverse, ?_, fun c hc => ?_, fun hne b => ?_⟩
  · rw [← hback, trimStart_append]
  · have hmem := List.mem_reverse.1 (List.mem_of_mem_head? hc)
    exact isCommandLetter_eq_false_of_isBlank (isBlank_of_mem_takeWhile c hmem)
  · refine cutsBehind_blanks isBlank_of_mem_takeWhile fun c hc => ?_
    rw [List.head?_append_of_ne_nil _ hne] at hc
    have hhead : (s.dropWhile isBlank).head? = some c := by
      rw [← trimStart, hback, List.head?_append_of_ne_nil _ hne, hc]
    exact eq_false_of_mem_head?_dropWhile hhead

/-- What a pair of delimiters takes away in front. -/
def delimiterFront (s : List Char) : List Char := if (stripDelimiters? s).isSome then s.take 2 else []

theorem surrounds_stripDelimiters? (s : List Char) :
    ∃ back, Surrounds (delimiterFront s) ((stripDelimiters? s).getD s) s back := by
  rw [delimiterFront]
  cases hstrip : stripDelimiters? s with
  | none => exact ⟨[], surrounds_nil s⟩
  | some t =>
    rw [Option.isSome_some, if_pos rfl, Option.getD_some]
    rw [stripDelimiters?, Option.orElse_eq_orElse, Option.orElse_eq_or, Option.or_eq_some_iff] at hstrip
    rcases hstrip with h | ⟨-, h⟩
    · obtain rfl := between?_eq_some_iff.1 (Option.filter_eq_some_iff.1 h).1
      refine ⟨['$', '$'], rfl, by simp; decide, fun _ b => ?_⟩
      exact CutsBehind.append (x := ['$']) (cutsBehind_cons rfl) (cutsBehind_cons rfl)
    · obtain rfl := between?_eq_some_iff.1 (Option.filter_eq_some_iff.1 h).1
      exact ⟨['\\', ']'], rfl, by simp; decide, fun _ b => cutsBehind_cons rfl⟩

/-- What an environment around the text takes away in front: its opening word. -/
def environmentFront (s : List Char) : List Char :=
  if (stripEnvironment? s).isSome then s.takeWhile (· != '}') ++ ['}'] else []

theorem surrounds_stripEnvironment? (s : List Char) :
    ∃ back, Surrounds (environmentFront s) ((stripEnvironment? s).getD s) s back := by
  rw [environmentFront]
  cases hstrip : stripEnvironment? s with
  | none => exact ⟨[], surrounds_nil s⟩
  | some body =>
    obtain ⟨name, hname, hbetween⟩ := List.exists_of_findSome?_eq_some hstrip
    obtain rfl := between?_eq_some_iff.1 hbetween
    have hword : (beginOf name).dropLast ++ ['}'] = beginOf name :=
      List.dropLast_append_getLast? '}' (List.getLast?_concat ..)
    have hopening : ∀ name ∈ wrappingEnvironments, (beginOf name).dropLast.all (· != '}') = true := by decide
    have hfront : (beginOf name ++ (body ++ endOf name)).takeWhile (· != '}') ++ ['}'] = beginOf name := by
      conv => lhs; rw [← hword]
      rw [List.append_assoc, (takeWhile_append_of_head (List.all_eq_true.1 (hopening name hname)) (by simp)).1, hword]
    rw [Option.isSome_some, if_pos rfl, hfront, Option.getD_some]
    refine ⟨endOf name, rfl, fun c hc => ?_, fun _ b offset => ?_⟩
    · obtain rfl : '\\' = c := Option.some.inj hc
      rfl
    · have hsilent : Mode.plain.Silent (beginOf name) := by
        simp only [wrappingEnvironments, List.mem_cons, List.not_mem_nil, or_false] at hname
        rcases hname with rfl | rfl | rfl | rfl <;> decide
      have hlast : ∀ c ∈ (beginOf name).getLast?, c = '}' := by
        rw [beginOf, List.getLast?_concat]
        exact fun c hc => (Option.some.inj hc).symm
      rw [tokensFrom_append_close hsilent hlast]
      exact List.suffix_append _ _

/-- What is taken away in front of the bare expression: blanks, an opening delimiter, blanks, the opening word
of an environment, and blanks. -/
def displayFront (s : List Char) : List Char :=
  let inner := (stripDelimiters? (trim s)).getD (trim s)
  let body := (stripEnvironment? (withoutDelimiters s)).getD (withoutDelimiters s)
  s.takeWhile isBlank ++ (delimiterFront (trim s) ++ (inner.takeWhile isBlank ++
    (environmentFront (withoutDelimiters s) ++ body.takeWhile isBlank)))

/-- **The bare expression** stands behind what is taken away in front of it. -/
theorem surrounds_stripDisplay (s : List Char) : ∃ back, Surrounds (displayFront s) (stripDisplay s) s back := by
  obtain ⟨b₁, h₁⟩ := surrounds_trim s
  obtain ⟨b₂, h₂⟩ := surrounds_stripDelimiters? (trim s)
  obtain ⟨b₃, h₃⟩ := surrounds_trim ((stripDelimiters? (trim s)).getD (trim s))
  obtain ⟨b₄, h₄⟩ := surrounds_stripEnvironment? (withoutDelimiters s)
  obtain ⟨b₅, h₅⟩ := surrounds_trim ((stripEnvironment? (withoutDelimiters s)).getD (withoutDelimiters s))
  exact ⟨_, h₁.trans (h₂.trans (h₃.trans (h₄.trans h₅)))⟩

/-! ## Lines -/

/-- The lines of a text behind another one. -/
theorem lineOf_append (front s : List Char) (n : Nat) :
    lineOf (front ++ s) (byteLength front + n) = lineOf s n + front.count '\n' := by
  induction front with
  | nil => simp
  | cons c front ih =>
    have hpos := c.utf8Size_pos
    have hrest : byteLength (c :: front) + n - c.utf8Size = byteLength front + n := by
      rw [byteLength_cons]
      omega
    rw [List.cons_append, lineOf_cons, if_neg (by rw [byteLength_cons]; omega), hrest, ih, List.count_cons]
    simp only [beq_iff_eq]
    omega

/-- The lines of a text in front of another one. -/
theorem lineOf_append_left (h : n ≤ byteLength s) (t : List Char) : lineOf (s ++ t) n = lineOf s n := by
  induction s generalizing n with
  | nil =>
    obtain rfl : n = 0 := Nat.le_zero.1 h
    rw [lineOf_zero, lineOf_zero]
  | cons c s ih =>
    rw [List.cons_append, lineOf_cons, lineOf_cons, ih (by rw [byteLength_cons] at h; omega)]

/-- A token that starts further on. -/
def Token.shift (n : Nat) (t : Token) : Token := { t with offset := n + t.offset }

theorem shift_mem_tokensFrom (h : token ∈ tokensFrom offset s) (n : Nat) :
    token.shift n ∈ tokensFrom (n + offset) s := by
  fun_induction tokensFrom offset s with
  | case1 => cases h
  | case2 offset c s kind k hm text ih =>
    rw [tokensFrom_cons hm]
    rcases List.mem_cons.1 h with rfl | h
    · exact List.mem_cons_self
    · rw [Nat.add_assoc]
      exact List.mem_cons_of_mem _ (ih h)

/-- A firm token of the bare expression is a token of the whole text, further on by what stands in front. -/
theorem Surrounds.shift_mem_tokens (h : Surrounds front t s back) (ht : token ∈ tokens t)
    (hfirm : token.kind.isFirm = true) : token.shift (byteLength front) ∈ tokens s := by
  have hne : t ≠ [] := by
    rintro rfl
    rw [tokens, tokensFrom] at ht
    cases ht
  have hcuts := h.cuts hne [] 0
  rw [List.append_nil, ← h.eq, Nat.zero_add] at hcuts
  have hshift := shift_mem_tokensFrom (mem_tokensFrom_append ht hfirm h.head) (byteLength front)
  exact hcuts.subset hshift

theorem Surrounds.lineOf_shift (h : Surrounds front t s back) (ht : token ∈ tokens t) :
    lineOf s (token.shift (byteLength front)).offset = lineOf t token.offset + front.count '\n' := by
  have hle : token.offset ≤ byteLength t := by
    obtain ⟨a, c, b, k, rfl, hoffset, -, -⟩ := exists_munch_of_mem_tokensFrom ht
    rw [byteLength_append]
    omega
  rw [h.eq, Token.shift, lineOf_append, lineOf_append_left hle]

/-! ## Lines in a normal form's diagnostics -/

/-- A diagnostic of a normal form that carries a line comes from a finding in the bare expression. -/
theorem exists_finding_of_line (hsanitize : config.sanitize = false) {raw : List Char} {d : Diagnostic} {line : Nat}
    (h : d ∈ (normalize config raw).diagnostics) (hline : d.line = some line) :
    ∃ f ∈ findings config (stripDisplay raw), f.toDiagnostic (stripDisplay raw) = d := by
  have hplain : ∀ {category message}, d ≠ .plain category message := by
    rintro category message rfl
    cases hline
  have hmem : d ∈ lengthDiagnostics config raw ++ check config (stripDisplay raw) := by
    rw [normalize, hsanitize] at h
    simp only [Bool.false_eq_true, ↓reduceIte] at h
    split at h
    · exact h
    · rcases List.mem_append.1 h with h | h
      · exact h
      · exact absurd (List.mem_singleton.1 h) hplain
  rcases List.mem_append.1 hmem with h | h
  · obtain ⟨-, h⟩ := List.mem_ite_nil_right.1 h
    exact absurd (List.mem_singleton.1 h) hplain
  · exact List.mem_map.1 h

/-- **Lines of a normal form**: a line is told of a token of the raw text, but it is the token's line in the bare
expression. It is the token's line in the raw text exactly when no line feed is taken away in front. -/
theorem lines_normalize (hsanitize : config.sanitize = false) (raw : List Char) {d : Diagnostic} {line : Nat}
    (hd : d ∈ (normalize config raw).diagnostics) (hline : d.line = some line) :
    (∃ back, raw = displayFront raw ++ (stripDisplay raw ++ back)) ∧
      ∃ f ∈ findings config (stripDisplay raw), f.toDiagnostic (stripDisplay raw) = d ∧
        ∃ t ∈ tokens (stripDisplay raw), f.IsAbout t ∧
          t.shift (byteLength (displayFront raw)) ∈ tokens raw ∧
          lineOf raw (t.shift (byteLength (displayFront raw))).offset = line + (displayFront raw).count '\n' ∧
          (line = lineOf raw (t.shift (byteLength (displayFront raw))).offset ↔ '\n' ∉ displayFront raw) := by
  obtain ⟨back, hfront⟩ := surrounds_stripDisplay raw
  obtain ⟨f, hf, rfl⟩ := exists_finding_of_line hsanitize hd hline
  obtain ⟨t, ht, habout⟩ := exists_token_of_mem_findings hf
  obtain rfl : lineOf (stripDisplay raw) f.position = line := Option.some.inj hline
  have hlines := hfront.lineOf_shift ht
  rw [habout.offset_eq] at hlines
  refine ⟨⟨back, hfront.eq⟩, f, hf, rfl, t, ht, habout, hfront.shift_mem_tokens ht habout.isFirm, hlines, ?_⟩
  rw [hlines, ← List.count_eq_zero]
  omega

/-- The line feed in front is taken away: the brace on the second line is reported on the first one. -/
theorem line_of_brace_behind_feed :
    let raw := "\n\x7d".toList
    (normalize { sanitize := false } raw).diagnostics =
        [⟨some 1, "Unmatched closing delimiter: RightBrace", .badSyntax⟩] ∧
      tokens raw = [⟨.whitespace, ['\n'], 0⟩, ⟨.rbrace, ['}'], 1⟩] ∧ lineOf raw 1 = 2 := by
  decide +kernel

/-- Inside the expression line feeds count: here the brace is reported where it stands. -/
theorem lines_normalize_brace :
    let raw := "a\n\x7d".toList
    let config : Config := { sanitize := false }
    let d : Diagnostic := ⟨some 2, "Unmatched closing delimiter: RightBrace", .badSyntax⟩
    config.sanitize = false ∧ d ∈ (normalize config raw).diagnostics ∧ d.line = some 2 ∧
      ∃ f ∈ findings config (stripDisplay raw), f.toDiagnostic (stripDisplay raw) = d ∧
        ∃ t ∈ tokens (stripDisplay raw), f.IsAbout t ∧
          (2 = lineOf raw (t.shift (byteLength (displayFront raw))).offset ↔ '\n' ∉ displayFront raw) := by
  intro raw config d
  have hd : d ∈ (normalize config raw).diagnostics := by decide +kernel
  obtain ⟨-, f, hf, hmake, t, ht, habout, -, -, hiff⟩ := lines_normalize rfl raw hd rfl
  exact ⟨rfl, hd, rfl, f, hf, hmake, t, ht, habout, hiff⟩

end MathMarkup.Tex
