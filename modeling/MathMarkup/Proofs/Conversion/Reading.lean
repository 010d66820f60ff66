import MathMarkup.Proofs.Rows.Cells
import MathMarkup.Tex.Transliteration

/-!
# What is converted is a slice

`pieces` leaves texts to be converted in turn: arguments, scripts, bodies and cells. Each reader takes
them out of what it reads (`ReadsFrom`), so a text that is converted for another one is a strictly
shorter slice of it (`infix_of_calls`, `length_of_calls`) — in a text that holds no token.
-/

namespace MathMarkup.Tex

open Text

/-! ## Texts left to convert -/

/-- The texts of a piece that are converted in turn. -/
def Piece.texts : Piece → List (List Char)
  | .remark _ | .plain _ => []
  | .unary _ a => [a]
  | .binary _ a b => [a, b]
  | .script _ operand => [operand]
  | .table _ rows => rows.flatten

/-- The texts of several pieces. -/
def textsOf (ps : List Piece) : List (List Char) := ps.flatMap Piece.texts

/-- To convert `s`, `t` is converted. -/
def Calls (s t : List Char) : Prop := t ∈ textsOf (pieces s)

@[simp] theorem textsOf_nil : textsOf [] = [] := rfl

@[simp] theorem textsOf_cons (p : Piece) (ps : List Piece) : textsOf (p :: ps) = p.texts ++ textsOf ps := rfl

@[simp] theorem textsOf_append (a b : List Piece) : textsOf (a ++ b) = textsOf a ++ textsOf b :=
  List.flatMap_append

@[simp] theorem textsOf_map_plain (ms : List MathML.Markup) : textsOf (ms.map .plain) = [] := by
  induction ms with
  | nil => rfl
  | cons m ms ih => simpa [Piece.texts] using ih

/-! ## Arguments -/

theorem unbrace_isInfix (arg : List Char) : unbrace arg <:+: arg := by
  unfold unbrace
  split
  · split
    · exact (List.dropLast_prefix _).isInfix.trans (List.suffix_cons _ _).isInfix
    · exact List.infix_rfl
  · exact List.infix_rfl

theorem groupBody_isInfix (group : List Char) : groupBody group <:+: group.tail :=
  (List.dropLast_prefix _).isInfix

theorem infix_of_argument? {s arg rest : List Char} (h : argument? s = some (arg, rest)) :
    arg <:+: s ∧ rest <:+ s := by
  simp only [argument?, Option.map_eq_some_iff, Prod.exists, Prod.mk.injEq] at h
  obtain ⟨blanks, a, r, h, rfl, rfl⟩ := h
  obtain ⟨rfl, -⟩ := append_of_splitArgument? h
  exact ⟨(unbrace_isInfix a).trans (List.infix_append blanks a r), List.suffix_append _ r⟩

theorem suffix_of_nextGroup? {s group rest : List Char} (h : nextGroup? s = some (group, rest)) :
    rest <:+ s := by
  unfold nextGroup? at h
  split at h
  · rename_i h'
    cases h
    obtain ⟨rfl, -⟩ := append_of_splitArgument? h'
    exact List.suffix_append _ _
  · cases h

theorem dropColumns_isSuffix (body : List Char) : dropColumns body <:+ body := by
  unfold dropColumns
  cases h : nextGroup? body with
  | none => exact List.suffix_rfl
  | some r =>
    obtain ⟨group, rest⟩ := r
    exact suffix_of_nextGroup? h

theorem infix_of_bracketed? {s index rest : List Char} (h : bracketed? s = some (some (index, rest))) :
    index <:+: s ∧ rest <:+ s := by
  unfold bracketed? at h
  split at h
  · rename_i inner hinner
    rw [Option.some.injEq] at h
    have hs : '[' :: inner <:+ s := hinner ▸ List.dropWhile_suffix isBlank
    have hcut := eq_append_of_breakOn? h
    refine ⟨?_, ?_⟩
    · refine List.IsInfix.trans ?_ hs.isInfix
      rw [hcut, List.append_assoc]
      exact List.infix_append ['['] index _
    · refine List.IsSuffix.trans ?_ hs
      rw [hcut, ← List.cons_append]
      exact List.suffix_append _ rest
  · cases h

/-! ## Readers -/

/-- The texts that a reader leaves to convert are slices of what it reads, and it leaves an end of it. -/
structure ReadsFrom (s : List Char) (r : List Piece × List Char) : Prop where
  slice : ∀ t ∈ textsOf r.1, t <:+: s
  rest : r.2 <:+ s

/-- A reader that leaves nothing to convert. -/
theorem ReadsFrom.of_texts_nil {s rest : List Char} {ps : List Piece} (hps : textsOf ps = [])
    (hrest : rest <:+ s) : ReadsFrom s (ps, rest) where
  slice := by simp [hps]
  rest := hrest

theorem ReadsFrom.of_suffix {s s' : List Char} {r : List Piece × List Char} (h : ReadsFrom s' r)
    (hs : s' <:+ s) : ReadsFrom s r where
  slice := fun t ht => (h.slice t ht).trans hs.isInfix
  rest := h.rest.trans hs

/-- What a construct reads, by how its arguments are used. -/
theorem cases_of_construct? {build : Build} {s rest : List Char} {piece : Piece}
    (h : construct? build s = some (piece, rest)) :
    match build with
    | .unary f => ∃ a, argument? s = some (a, rest) ∧ piece = .unary f a
    | .plain f => ∃ a, argument? s = some (a, rest) ∧ piece = .plain (f a)
    | .binary f => ∃ a r b, argument? s = some (a, r) ∧ argument? r = some (b, rest) ∧ piece = .binary f a b
    | .styled f => ∃ a r b, argument? s = some (a, r) ∧ argument? r = some (b, rest) ∧ piece = .unary (f a) b
    | .indexed bare f => (∃ a, argument? s = some (a, rest) ∧ piece = .unary bare a) ∨
        ∃ index r a, bracketed? s = some (some (index, r)) ∧ argument? r = some (a, rest) ∧
          piece = .binary f a index := by
  cases build with
  | unary f | plain f =>
    simp only [construct?, Option.bind_eq_bind, Option.pure_def, Option.bind_eq_some_iff, Prod.exists,
      Option.some.injEq, Prod.mk.injEq] at h
    obtain ⟨a, r, ha, rfl, rfl⟩ := h
    exact ⟨a, ha, rfl⟩
  | binary f | styled f =>
    simp only [construct?, Option.bind_eq_bind, Option.pure_def, Option.bind_eq_some_iff, Prod.exists,
      Option.some.injEq, Prod.mk.injEq] at h
    obtain ⟨a, r, ha, b, r', hb, rfl, rfl⟩ := h
    exact ⟨a, r, b, ha, hb, rfl⟩
  | indexed bare f =>
    simp only [construct?] at h
    split at h
    · simp only [Option.bind_eq_bind, Option.pure_def, Option.bind_eq_some_iff, Prod.exists,
        Option.some.injEq, Prod.mk.injEq] at h
      obtain ⟨a, r, ha, rfl, rfl⟩ := h
      exact Or.inl ⟨a, ha, rfl⟩
    · cases h
    · rename_i index r hindex
      simp only [Option.bind_eq_bind, Option.pure_def, Option.bind_eq_some_iff, Prod.exists,
        Option.some.injEq, Prod.mk.injEq] at h
      obtain ⟨a, r', ha, rfl, rfl⟩ := h
      exact Or.inr ⟨index, r, a, hindex, ha, rfl⟩

theorem readsFrom_construct? {build : Build} {s rest : List Char} {piece : Piece}
    (h : construct? build s = some (piece, rest)) : ReadsFrom s ([piece], rest) := by
  have hcases := cases_of_construct? h
  cases build with
  | unary f =>
    obtain ⟨a, ha, rfl⟩ := hcases
    exact ⟨by simpa [Piece.texts] using (infix_of_argument? ha).1, (infix_of_argument? ha).2⟩
  | plain f =>
    obtain ⟨a, ha, rfl⟩ := hcases
    exact .of_texts_nil rfl (infix_of_argument? ha).2
  | binary f =>
    obtain ⟨a, r, b, ha, hb, rfl⟩ := hcases
    obtain ⟨ha, hr⟩ := infix_of_argument? ha
    obtain ⟨hb, hr'⟩ := infix_of_argument? hb
    exact ⟨by simpa [Piece.texts] using ⟨ha, hb.trans hr.isInfix⟩, hr'.trans hr⟩
  | styled f =>
    obtain ⟨a, r, b, ha, hb, rfl⟩ := hcases
    obtain ⟨-, hr⟩ := infix_of_argument? ha
    obtain ⟨hb, hr'⟩ := infix_of_argument? hb
    exact ⟨by simpa [Piece.texts] using hb.trans hr.isInfix, hr'.trans hr⟩
  | indexed bare f =>
    rcases hcases with ⟨a, ha, rfl⟩ | ⟨index, r, a, hindex, ha, rfl⟩
    · exact ⟨by simpa [Piece.texts] using (infix_of_argument? ha).1, (infix_of_argument? ha).2⟩
    · obtain ⟨hindex, hr⟩ := infix_of_bracketed? hindex
      obtain ⟨ha, hr'⟩ := infix_of_argument? ha
      exact ⟨by simpa [Piece.texts] using ⟨ha.trans hr.isInfix, hindex⟩, hr'.trans hr⟩

/-- What an environment turns into holds slices of its body. -/
theorem infix_of_mem_environmentPieces {name body : List Char} (hbody : NoToken body) {t : List Char}
    (ht : t ∈ textsOf (environmentPieces name body)) : t <:+: body := by
  unfold environmentPieces at ht
  split at ht
  · simp only [textsOf_cons, Piece.texts, textsOf_nil, List.append_nil, List.mem_flatten] at ht
    obtain ⟨row, hrow, ht⟩ := ht
    have hcells : (if name = "array".toList then dropColumns body else body) <:+: body := by
      split
      · exact (dropColumns_isSuffix body).isInfix
      · exact List.infix_rfl
    exact (infix_of_mem_tableCells (hbody.of_infix hcells) hrow ht).trans hcells
  · simp only [textsOf_cons, Piece.texts, textsOf_nil, List.append_nil, List.nil_append,
      List.mem_singleton] at ht
    exact ht ▸ List.infix_rfl

theorem readsFrom_readEnvironment {s : List Char} (hs : NoToken s) : ReadsFrom s (readEnvironment s) := by
  unfold readEnvironment
  split
  · exact .of_texts_nil rfl List.suffix_rfl
  · rename_i group rest hgroup
    have hrest := suffix_of_nextGroup? hgroup
    simp only
    split
    · exact .of_texts_nil rfl hrest
    · rename_i body rest' henv
      have happ := append_of_closeEnvironments? henv
      have hbody : body.take (body.length - (endOf (trim (groupBody group))).length) <:+: s := by
        refine (List.take_prefix _ body).isInfix.trans (List.IsInfix.trans ?_ hrest.isInfix)
        rw [happ]
        exact (List.prefix_append body rest').isInfix
      refine ⟨fun t ht => ?_, ?_⟩
      · exact (infix_of_mem_environmentPieces (hs.of_infix hbody) ht).trans hbody
      · refine List.IsSuffix.trans ?_ hrest
        rw [happ]
        exact List.suffix_append body rest'

theorem dropNullDelimiter_isSuffix (s : List Char) : dropNullDelimiter s <:+ s := by
  unfold dropNullDelimiter
  split
  · rename_i rest h
    have hs : '.' :: rest <:+ s := h ▸ List.dropWhile_suffix isBlank
    exact (List.suffix_cons '.' rest).trans hs
  · exact List.suffix_rfl

theorem readsFrom_readWord (name : List Char) {s : List Char} (hs : NoToken s) :
    ReadsFrom s (readWord name s) := by
  unfold readWord
  simp only
  split
  · exact readsFrom_readEnvironment hs
  split
  · refine .of_texts_nil rfl ?_
    cases h : splitArgument? s with
    | none => exact List.suffix_rfl
    | some r =>
      obtain ⟨blanks, arg, rest⟩ := r
      obtain ⟨rfl, -⟩ := append_of_splitArgument? h
      exact List.suffix_append _ rest
  split
  · exact .of_texts_nil rfl (dropNullDelimiter_isSuffix s)
  split
  · split
    · rename_i h
      exact readsFrom_construct? h
    · exact .of_texts_nil rfl List.suffix_rfl
  · split
    · exact .of_texts_nil (textsOf_map_plain _) List.suffix_rfl
    · exact .of_texts_nil rfl List.suffix_rfl

theorem readsFrom_readCommand {s : List Char} (hs : NoToken s) : ReadsFrom s (readCommand s) := by
  unfold readCommand
  split
  · exact .of_texts_nil rfl List.suffix_rfl
  · rename_i c s
    have htail : s <:+ c :: s := List.suffix_cons c s
    split
    · exact .of_texts_nil rfl htail
    split
    · have hdrop : s.dropWhile isCommandLetter <:+ c :: s :=
        (List.dropWhile_suffix isCommandLetter).trans htail
      exact (readsFrom_readWord _ (hs.of_infix hdrop.isInfix)).of_suffix hdrop
    · exact .of_texts_nil (textsOf_map_plain _) htail

theorem readsFrom_readScript (marker : Char) (s : List Char) : ReadsFrom s (readScript marker s) := by
  unfold readScript
  split
  · rename_i operand rest h
    exact ⟨by simpa [Piece.texts] using (infix_of_argument? h).1, (infix_of_argument? h).2⟩
  · exact ⟨by simp [Piece.texts], List.suffix_rfl⟩

theorem readsFrom_readGroup (s : List Char) : ReadsFrom s (readGroup s) := by
  unfold readGroup
  split
  · rename_i group rest h
    obtain ⟨happ, hne⟩ := append_of_splitGroup? h
    obtain ⟨brace, inner, rfl⟩ := List.exists_cons_of_ne_nil hne
    rw [List.cons_append, List.cons.injEq] at happ
    rw [happ.2]
    refine ⟨?_, List.suffix_append inner rest⟩
    simpa [Piece.texts] using (groupBody_isInfix (brace :: inner)).trans (List.prefix_append inner rest).isInfix
  · exact .of_texts_nil rfl List.suffix_rfl

theorem splitNumber_isSuffix (s : List Char) : (splitNumber s).2 <:+ s := by
  have hdrop : s.dropWhile Char.isDigit <:+ s := List.dropWhile_suffix _
  unfold splitNumber
  split
  · rename_i rest h
    rw [h] at hdrop
    split
    · exact hdrop
    · exact ((List.dropWhile_suffix _).trans (List.suffix_cons '.' rest)).trans hdrop
  · exact hdrop

theorem readsFrom_readPlain (c : Char) (s : List Char) : ReadsFrom s (readPlain c s) := by
  unfold readPlain
  split
  · exact .of_texts_nil rfl (splitNumber_isSuffix s)
  split
  · exact .of_texts_nil rfl List.suffix_rfl
  split
  · exact .of_texts_nil rfl List.suffix_rfl
  split <;> exact .of_texts_nil rfl List.suffix_rfl

/-- What is read at a character are slices of the text behind it. -/
theorem readsFrom_readPieces (c : Char) {s : List Char} (hs : NoToken s) :
    ReadsFrom s (readPieces c s) := by
  unfold readPieces
  split
  · exact readsFrom_readCommand hs
  split
  · exact readsFrom_readScript c s
  split
  · exact readsFrom_readGroup s
  split
  · exact .of_texts_nil rfl List.suffix_rfl
  split
  · exact .of_texts_nil rfl List.suffix_rfl
  split
  · exact .of_texts_nil rfl (List.dropWhile_suffix _)
  split
  · exact .of_texts_nil rfl List.suffix_rfl
  · exact readsFrom_readPlain c s

/-! ## Calls -/

/-- A text that is converted for another one stands in it, behind its first character at least. -/
theorem infix_tail_of_calls {s t : List Char} (hs : NoToken s) (h : Calls s t) : t <:+: s.tail := by
  unfold Calls at h
  fun_induction pieces s with
  | case1 => cases h
  | case2 c s ih =>
    have htail : s <:+ c :: s := List.suffix_cons c s
    have hread := readsFrom_readPieces c (hs.of_infix htail.isInfix)
    rw [textsOf_append, List.mem_append] at h
    rw [List.tail_cons]
    rcases h with h | h
    · exact hread.slice t h
    · have hrest := ih (hs.of_infix (hread.rest.trans htail).isInfix) h
      exact (hrest.trans (List.tail_suffix _).isInfix).trans hread.rest.isInfix

theorem infix_of_calls {s t : List Char} (hs : NoToken s) (h : Calls s t) : t <:+: s :=
  (infix_tail_of_calls hs h).trans (List.tail_suffix s).isInfix

theorem length_of_calls {s t : List Char} (hs : NoToken s) (h : Calls s t) : t.length < s.length := by
  have hle := (infix_tail_of_calls hs h).length_le
  cases s with
  | nil => simp [Calls, pieces] at h
  | cons c s =>
    rw [List.tail_cons] at hle
    exact Nat.lt_succ_of_le hle

end MathMarkup.Tex
