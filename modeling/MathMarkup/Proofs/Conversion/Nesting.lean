import Mathlib
import MathMarkup.Proofs.Conversion.Reading

/-!
# When the nesting ends

`convert` has fuel for its depth. Some fuel suffices exactly when no chain of texts, each converted for
the one before, goes on forever (`convert_ends_iff`). Without tokens in the text no chain does, and no
body of an environment comes up again inside itself: every call is on a shorter slice.

Forged tokens do bring a body up again inside itself, and may do so forever: a cell of `twinTable` holds
more than its body did (`twinTable_endless`).
-/

namespace MathMarkup.Tex

open Text Relation

/-! ## Fuel -/

variable {f : List Char → Option Converted}

theorem isSome_convertAll (ts : List (List Char)) :
    (convertAll f ts).isSome ↔ ∀ t ∈ ts, (f t).isSome := by
  induction ts with
  | nil => simp [convertAll]
  | cons t ts ih =>
    rw [List.forall_mem_cons, ← ih, convertAll]
    cases f t with
    | none => simp
    | some c => cases convertAll f ts <;> simp

theorem isSome_convertRows (rows : List (List (List Char))) :
    (convertRows f rows).isSome ↔ ∀ t ∈ rows.flatten, (f t).isSome := by
  induction rows with
  | nil => simp [convertRows]
  | cons row rows ih =>
    rw [List.flatten_cons, List.forall_mem_append, ← ih, ← isSome_convertAll, convertRows]
    cases convertAll f row with
    | none => simp
    | some c => cases convertRows f rows <;> simp

theorem isSome_convertTable (fences : Fences) (rows : List (List (List Char))) :
    (convertTable f fences rows).isSome ↔ ∀ t ∈ rows.flatten, (f t).isSome := by
  rw [convertTable, Option.isSome_map, isSome_convertRows]

/-- A piece can be placed when its texts can be converted. -/
theorem isSome_place (p : Progress) (piece : Piece) :
    (place f p piece).isSome ↔ ∀ t ∈ piece.texts, (f t).isSome := by
  cases piece with
  | remark r => simp [place, Piece.texts]
  | plain m => simp [place, Piece.texts]
  | unary g a => cases h : f a <;> simp [place, Piece.texts, h]
  | binary g a b => cases ha : f a <;> cases hb : f b <;> simp [place, Piece.texts, ha, hb]
  | script sub operand => cases h : f operand <;> simp [place, Piece.texts, h]
  | table fences rows =>
    rw [Piece.texts, ← isSome_convertTable fences, place]
    cases convertTable f fences rows <;> simp

theorem isSome_placeAll (p : Progress) (ps : List Piece) :
    (placeAll f p ps).isSome ↔ ∀ t ∈ textsOf ps, (f t).isSome := by
  induction ps generalizing p with
  | nil => simp [placeAll]
  | cons piece ps ih =>
    rw [textsOf_cons, List.forall_mem_append, ← isSome_place p, placeAll]
    cases h : place f p piece with
    | none => simp
    | some q => simpa using ih q

/-- One level of fuel is used up by the texts that are converted in turn. -/
theorem isSome_convert_succ (fuel : Nat) (s : List Char) :
    (convert (fuel + 1) s).isSome ↔ ∀ t, Calls s t → (convert fuel t).isSome := by
  rw [convert, Option.isSome_map, isSome_placeAll]
  exact Iff.rfl

theorem isSome_convert_mono {fuel more : Nat} {s : List Char} (hle : fuel ≤ more)
    (h : (convert fuel s).isSome) : (convert more s).isSome := by
  induction fuel generalizing more s with
  | zero => simp [convert] at h
  | succ fuel ih =>
    obtain ⟨more, rfl⟩ : ∃ n, more = n + 1 := ⟨more - 1, by omega⟩
    rw [isSome_convert_succ] at h ⊢
    intro t ht
    exact ih (Nat.le_of_succ_le_succ hle) (h t ht)

/-- For finitely many texts that each have enough fuel there is fuel that is enough for all. -/
theorem exists_fuel_forall {ts : List (List Char)} (h : ∀ t ∈ ts, ∃ fuel, (convert fuel t).isSome) :
    ∃ fuel, ∀ t ∈ ts, (convert fuel t).isSome := by
  induction ts with
  | nil => exact ⟨0, by simp⟩
  | cons t ts ih =>
    rw [List.forall_mem_cons] at h
    obtain ⟨m, hm⟩ := h.1
    obtain ⟨n, hn⟩ := ih h.2
    refine ⟨max m n, List.forall_mem_cons.2 ⟨?_, fun u hu => ?_⟩⟩
    · exact isSome_convert_mono (Nat.le_max_left m n) hm
    · exact isSome_convert_mono (Nat.le_max_right m n) (hn u hu)

/-- Fuel measures the depth of the calls. -/
theorem exists_fuel_iff_acc (s : List Char) :
    (∃ fuel, (convert fuel s).isSome) ↔ Acc (fun t s => Calls s t) s := by
  constructor
  · rintro ⟨fuel, h⟩
    induction fuel generalizing s with
    | zero => simp [convert] at h
    | succ fuel ih =>
      rw [isSome_convert_succ] at h
      exact Acc.intro s fun t ht => ih t (h t ht)
  · intro h
    induction h with
    | intro s _ ih =>
      obtain ⟨fuel, hfuel⟩ : ∃ fuel, ∀ t ∈ textsOf (pieces s), (convert fuel t).isSome :=
        exists_fuel_forall ih
      exact ⟨fuel + 1, (isSome_convert_succ fuel s).2 hfuel⟩

/-! ## The texts of an expression -/

/-- The texts that the conversion of an expression starts from: its cells, or the whole of it when it
has one row. -/
def roots (body : List Char) : List (List Char) :=
  if 1 < (tableCells body).length then (tableCells body).flatten else [body]

theorem isSome_convertBody (fuel : Nat) (body : List Char) :
    (convertBody fuel body).isSome ↔ ∀ t ∈ roots body, (convert fuel t).isSome := by
  unfold convertBody roots
  simp only
  split
  · rw [Option.isSome_map, isSome_convertTable]
  · simp

/-- The conversion ends exactly when no chain of calls goes on forever. -/
theorem convertBody_ends_iff (body : List Char) :
    (∃ fuel, (convertBody fuel body).isSome) ↔
      ¬ ∃ chain : Nat → List Char, chain 0 ∈ roots body ∧ ∀ n, Calls (chain n) (chain (n + 1)) := by
  have hacc : (∃ fuel, (convertBody fuel body).isSome) ↔
      ∀ t ∈ roots body, Acc (fun t s => Calls s t) t := by
    constructor
    · rintro ⟨fuel, h⟩ t ht
      exact (exists_fuel_iff_acc t).1 ⟨fuel, (isSome_convertBody fuel body).1 h t ht⟩
    · intro h
      obtain ⟨fuel, hfuel⟩ := exists_fuel_forall fun t ht => (exists_fuel_iff_acc t).2 (h t ht)
      exact ⟨fuel, (isSome_convertBody fuel body).2 hfuel⟩
  rw [hacc]
  constructor
  · rintro h ⟨chain, hroot, hchain⟩
    exact not_acc_iff_exists_descending_chain.2 ⟨chain, rfl, hchain⟩ (h _ hroot)
  · intro h t ht
    by_contra hnot
    obtain ⟨chain, rfl, hchain⟩ := not_acc_iff_exists_descending_chain.1 hnot
    exact h ⟨chain, ht, hchain⟩

theorem infix_of_mem_roots {body t : List Char} (hbody : NoToken body) (ht : t ∈ roots body) :
    t <:+: body := by
  unfold roots at ht
  split at ht
  · obtain ⟨row, hrow, ht⟩ := List.mem_flatten.1 ht
    exact infix_of_mem_tableCells hbody hrow ht
  · exact List.mem_singleton.1 ht ▸ List.infix_rfl

/-- Without tokens the length of a text bounds how deep its calls are nested. -/
theorem isSome_convert {fuel : Nat} {s : List Char} (hs : NoToken s) (hfuel : s.length < fuel) :
    (convert fuel s).isSome := by
  induction fuel generalizing s with
  | zero => omega
  | succ fuel ih =>
    rw [isSome_convert_succ]
    intro t ht
    have := length_of_calls hs ht
    exact ih (hs.of_infix (infix_of_calls hs ht)) (by omega)

theorem isSome_transliterate? {latex : List Char} (h : NoToken (expressionBody latex)) :
    (transliterate? latex).isSome := by
  unfold transliterate?
  rw [Option.isSome_map, isSome_convertBody]
  intro t ht
  have hinfix := infix_of_mem_roots h ht
  refine isSome_convert (h.of_infix hinfix) ?_
  have := hinfix.length_le
  have : (expressionBody latex).length + 1 ≤ nestingBound (expressionBody latex) :=
    Nat.le_mul_of_pos_left _ (Nat.succ_pos _)
  omega

/-! ## Bodies of environments -/

/-- The environment that opens at the start of `c :: s`: its name, and its body without the closing
word. -/
def openedEnvironment? (c : Char) (s : List Char) : Option (List Char × List Char) :=
  if c = '\\' ∧ s.takeWhile isCommandLetter = "begin".toList then do
    let (group, rest) ← nextGroup? (s.dropWhile isCommandLetter)
    let name := trim (groupBody group)
    let (body, _) ← splitEnvironment? name rest
    return (name, body.take (body.length - (endOf name).length))
  else none

/-- The environments that open while `s` is read, each with its body. -/
def environments : List Char → List (List Char × List Char)
  | [] => []
  | c :: s => (openedEnvironment? c s).toList ++ environments (readPieces c s).2
termination_by s => s.length
decreasing_by
  have := length_readPieces c s
  simp only [List.length_cons]
  omega

/-- While `s` is converted, `body` is converted as the body of an environment. -/
def ReachesBody (s body : List Char) : Prop :=
  ∃ t, ReflTransGen Calls s t ∧ ∃ name, (name, body) ∈ environments t

/-- While `s` is converted, some body of an environment comes up again inside its own conversion. -/
def Reenters (s : List Char) : Prop :=
  ∃ t, ReflTransGen Calls s t ∧ ∃ name body, (name, body) ∈ environments t ∧
    ∃ u ∈ textsOf (environmentPieces name body), ReachesBody u body

/-- An opened environment is what the reader makes pieces of. -/
theorem readPieces_of_openedEnvironment? {c : Char} {s name body : List Char}
    (h : openedEnvironment? c s = some (name, body)) :
    (readPieces c s).1 = environmentPieces name body := by
  unfold openedEnvironment? at h
  split at h
  · rename_i hopen
    obtain ⟨rfl, hword⟩ := hopen
    simp only [Option.bind_eq_bind, Option.pure_def, Option.bind_eq_some_iff, Prod.exists,
      Option.some.injEq, Prod.mk.injEq] at h
    obtain ⟨group, rest, hgroup, body', rest', henv, rfl, rfl⟩ := h
    cases s with
    | nil => cases hword
    | cons d s =>
      have hletter : isCommandLetter d = true := by
        by_contra hnot
        rw [List.takeWhile_cons, if_neg hnot] at hword
        cases hword
      have hback : d ≠ '\\' := by
        rintro rfl
        exact absurd hletter (by decide)
      rw [List.takeWhile_cons, if_pos hletter] at hword
      rw [List.dropWhile_cons, if_pos hletter] at hgroup
      have hread : readEnvironment (s.dropWhile isCommandLetter) =
          (environmentPieces (trim (groupBody group))
            (body'.take (body'.length - (endOf (trim (groupBody group))).length)), rest') := by
        rw [readEnvironment, hgroup]
        simp only [henv]
      rw [readPieces, if_pos rfl, readCommand, if_neg hback, if_pos hletter, hword, readWord]
      simp only [String.ofList_toList, ↓reduceIte, hread]
  · cases h

/-- The texts that an opened environment turns into are converted in turn. -/
theorem calls_of_mem_environments {s name body u : List Char} (h : (name, body) ∈ environments s)
    (hu : u ∈ textsOf (environmentPieces name body)) : Calls s u := by
  unfold Calls
  fun_induction environments s with
  | case1 => cases h
  | case2 c s ih =>
    rw [pieces, textsOf_append, List.mem_append]
    rw [List.mem_append, Option.mem_toList] at h
    rcases h with h | h
    · rw [readPieces_of_openedEnvironment? h]
      exact Or.inl hu
    · exact Or.inr (ih h)

theorem infix_of_openedEnvironment? {c : Char} {s name body : List Char}
    (h : openedEnvironment? c s = some (name, body)) : body <:+: s := by
  unfold openedEnvironment? at h
  split at h
  · simp only [Option.bind_eq_bind, Option.pure_def, Option.bind_eq_some_iff, Prod.exists,
      Option.some.injEq, Prod.mk.injEq] at h
    obtain ⟨group, rest, hgroup, body', rest', henv, rfl, rfl⟩ := h
    have hrest : rest <:+ s := (suffix_of_nextGroup? hgroup).trans (List.dropWhile_suffix _)
    refine (List.take_prefix _ body').isInfix.trans (List.IsInfix.trans ?_ hrest.isInfix)
    rw [append_of_closeEnvironments? henv]
    exact (List.prefix_append body' rest').isInfix
  · cases h

theorem infix_tail_of_mem_environments {s name body : List Char} (hs : NoToken s)
    (h : (name, body) ∈ environments s) : body <:+: s.tail := by
  fun_induction environments s with
  | case1 => cases h
  | case2 c s ih =>
    have htail : s <:+ c :: s := List.suffix_cons c s
    have hread := readsFrom_readPieces c (hs.of_infix htail.isInfix)
    rw [List.mem_append, Option.mem_toList] at h
    rw [List.tail_cons]
    rcases h with h | h
    · exact infix_of_openedEnvironment? h
    · have hrest := ih (hs.of_infix (hread.rest.trans htail).isInfix) h
      exact (hrest.trans (List.tail_suffix _).isInfix).trans hread.rest.isInfix

theorem length_of_mem_environments {s name body : List Char} (hs : NoToken s)
    (h : (name, body) ∈ environments s) : body.length < s.length := by
  have hle := (infix_tail_of_mem_environments hs h).length_le
  cases s with
  | nil => simp [environments] at h
  | cons c s =>
    rw [List.tail_cons] at hle
    exact Nat.lt_succ_of_le hle

/-- Without tokens everything reached is a slice. -/
theorem infix_of_reflTransGen {s t : List Char} (hs : NoToken s) (h : ReflTransGen Calls s t) :
    t <:+: s := by
  induction h with
  | refl => exact List.infix_rfl
  | tail _ hcall ih => exact (infix_of_calls (hs.of_infix ih) hcall).trans ih

/-- Bodies get shorter all the way down, so none comes up inside itself. -/
theorem not_reenters {s : List Char} (hs : NoToken s) : ¬ Reenters s := by
  rintro ⟨t, hreach, name, body, henv, u, hu, t', hreach', name', henv'⟩
  have ht := infix_of_reflTransGen hs hreach
  have hbody := (infix_tail_of_mem_environments (hs.of_infix ht) henv).trans (List.tail_suffix t).isInfix
  have hnobody : NoToken body := hs.of_infix (hbody.trans ht)
  have hu := infix_of_mem_environmentPieces hnobody hu
  have ht' := infix_of_reflTransGen (hnobody.of_infix hu) hreach'
  have hlt := length_of_mem_environments (hnobody.of_infix (ht'.trans hu)) henv'
  have hle := (ht'.trans hu).length_le
  omega

/-- **The nesting of an expression** ends exactly when no chain of calls goes on forever, and what an environment
holds that opens in a text is called from it. The nesting does end in a text that holds no token, and there no body
of an environment comes up inside itself. -/
theorem nesting_ends_iff (latex : List Char) :
    ((∃ fuel, (convertBody fuel (expressionBody latex)).isSome) ↔
      ¬ ∃ chain : Nat → List Char, chain 0 ∈ roots (expressionBody latex) ∧
        ∀ n, Calls (chain n) (chain (n + 1))) ∧
    (∀ s name body, (name, body) ∈ environments s → ∀ u ∈ textsOf (environmentPieces name body), Calls s u) ∧
    (NoToken (expressionBody latex) →
      (transliterate? latex).isSome ∧ ∀ root ∈ roots (expressionBody latex), ¬ Reenters root) := by
  refine ⟨convertBody_ends_iff _, fun _ _ _ h _ => calls_of_mem_environments h, fun h =>
    ⟨isSome_transliterate? h, fun root hroot => ?_⟩⟩
  exact not_reenters (h.of_infix (infix_of_mem_roots h hroot))

/-! ## Forged tokens -/

/-- An environment around two forged tokens. -/
def twinTokens (name : List Char) : List Char :=
  beginOf name ++ placeholder 1 ++ placeholder 1 ++ endOf name

/-- A matrix of two such environments. They are its spans 0 and 1, so putting span 1 back also fills
the forged tokens in span 0: the cell holds the body of the matrix in an environment of its own. -/
def twinTable (name : List Char) : List Char :=
  beginOf "matrix".toList ++ twinTokens name ++ twinTokens name ++ endOf "matrix".toList

/-- What the cell of `twinTable` holds. -/
def twinCell (name : List Char) : List Char :=
  beginOf name ++ twinTokens name ++ twinTokens name ++ endOf name ++ twinTokens name

theorem roots_twinTable_matrix :
    roots (expressionBody (twinTable "matrix".toList)) = [twinTable "matrix".toList] := by decide +kernel

theorem roots_twinTable_foo :
    roots (expressionBody (twinTable "foo".toList)) = [twinTable "foo".toList] := by decide +kernel

theorem calls_twinTable : Calls (twinTable "matrix".toList) (twinCell "matrix".toList) := by
  have htexts : textsOf (pieces (twinTable "matrix".toList)) = [twinCell "matrix".toList] := by decide +kernel
  rw [Calls, htexts]
  exact List.mem_singleton_self _

theorem calls_twinCell : Calls (twinCell "matrix".toList) (twinCell "matrix".toList) := by
  have htexts : textsOf (pieces (twinCell "matrix".toList)) =
      [twinCell "matrix".toList, placeholder 1 ++ placeholder 1] := by decide +kernel
  rw [Calls, htexts]
  exact List.mem_cons_self

/-- With forged tokens a body does come up inside itself: the nesting never ends when the tokens stand
in a table, and it ends when the environment has no rule. -/
theorem twinTable_endless :
    (∀ fuel, convertBody fuel (expressionBody (twinTable "matrix".toList)) = none) ∧
    ∃ root ∈ roots (expressionBody (twinTable "foo".toList)), Reenters root := by
  constructor
  · intro fuel
    by_contra hsome
    refine (convertBody_ends_iff _).1 ⟨fuel, Option.isSome_iff_ne_none.2 hsome⟩ ?_
    refine ⟨fun n => if n = 0 then twinTable "matrix".toList else twinCell "matrix".toList, ?_, ?_⟩
    · rw [roots_twinTable_matrix]
      exact List.mem_singleton_self _
    · intro n
      cases n with
      | zero => exact calls_twinTable
      | succ n => exact calls_twinCell
  · have hmatrix : environments (twinTable "foo".toList) =
        [("matrix".toList, twinTokens "foo".toList ++ twinTokens "foo".toList)] := by cbv
    have hfoo : environments (twinCell "foo".toList) =
        [("foo".toList, twinTokens "foo".toList ++ twinTokens "foo".toList),
          ("foo".toList, placeholder 1 ++ placeholder 1)] := by cbv
    have htexts : textsOf (environmentPieces "matrix".toList
        (twinTokens "foo".toList ++ twinTokens "foo".toList)) = [twinCell "foo".toList] := by cbv
    refine ⟨twinTable "foo".toList, by rw [roots_twinTable_foo]; exact List.mem_singleton_self _, ?_⟩
    refine ⟨_, .refl, "matrix".toList, _, hmatrix ▸ List.mem_singleton_self _, twinCell "foo".toList, ?_,
      twinCell "foo".toList, .refl, "foo".toList, ?_⟩
    · rw [htexts]
      exact List.mem_singleton_self _
    · rw [hfoo]
      exact List.mem_cons_self

end MathMarkup.Tex
