import MathMarkup.Proofs.Conversion.Supplied
import MathMarkup.Proofs.Conversion.Tables

/-!
# Conversion without faults

What holds of a text and of all that is left to convert when it is read holds of everything that is converted for it
(`remarks_of_convert`). Texts that are spelled by well supplied signs are such: a reader finds the end of every
group and environment and all arguments, so it remarks on unknown names and on scripts without an operand only
(`isFaultless_pieces`).
-/

namespace MathMarkup.Tex

open MathML Text Sign

variable {us a r x y : List Sign} {u : Sign} {c : Char} {s name : List Char} {P : Remark → Prop} {T : List Char → Prop}
  {f : List Char → Option Converted} {p q : Progress} {piece : Piece} {ps : List Piece}

/-! ## Remarks of a conversion -/

/-- The remark of a piece satisfies `P`, and its texts satisfy `T`. -/
structure Piece.Has (P : Remark → Prop) (T : List Char → Prop) (piece : Piece) : Prop where
  remark : ∀ r, piece = .remark r → P r
  texts : ∀ t ∈ piece.texts, T t

theorem remarks_of_convertRows {rows : List (List (List Char))} {mss : List (List (List Markup))}
    {remarks : List Remark} (hf : ∀ t ∈ rows.flatten, ∀ c, f t = some c → ∀ r ∈ c.remarks, P r)
    (h : convertRows f rows = some (mss, remarks)) : ∀ r ∈ remarks, P r := by
  obtain ⟨css, hcss, -, rfl⟩ := forall₂_of_convertRows h
  intro r hr
  obtain ⟨c, hc, hr⟩ := List.mem_flatMap.1 hr
  have hflat : List.Forall₂ (fun t c => f t = some c) rows.flatten css.flatten := List.rel_flatten hcss
  obtain ⟨n, hn, rfl⟩ := List.mem_iff_getElem.1 hc
  obtain ⟨hlength, hget⟩ := List.forall₂_iff_get.1 hflat
  exact hf _ (List.getElem_mem (hlength ▸ hn)) _ (hget n (hlength ▸ hn) hn) r hr

theorem remarks_of_place (hf : ∀ t, T t → ∀ c, f t = some c → ∀ r ∈ c.remarks, P r) (hpiece : piece.Has P T)
    (hp : ∀ r ∈ p.remarks, P r) (h : place f p piece = some q) : ∀ r ∈ q.remarks, P r := by
  have hf := fun t ht => hf t (hpiece.texts t ht)
  cases piece with
  | remark r =>
    cases h
    exact List.forall_mem_append.2 ⟨hp, List.forall_mem_singleton.2 (hpiece.remark r rfl)⟩
  | plain m =>
    cases h
    exact List.forall_mem_append.2 ⟨hp, by simp⟩
  | unary g a =>
    simp only [place, Option.bind_eq_bind, Option.bind_eq_some_iff, Option.pure_def, Option.some.injEq] at h
    obtain ⟨c, hc, rfl⟩ := h
    exact List.forall_mem_append.2 ⟨hp, hf a (by simp [Piece.texts]) c hc⟩
  | binary g a b =>
    simp only [place, Option.bind_eq_bind, Option.bind_eq_some_iff, Option.pure_def, Option.some.injEq] at h
    obtain ⟨c, hc, d, hd, rfl⟩ := h
    refine List.forall_mem_append.2 ⟨hp, List.forall_mem_append.2 ⟨?_, ?_⟩⟩
    · exact hf a (by simp [Piece.texts]) c hc
    · exact hf b (by simp [Piece.texts]) d hd
  | script sub operand =>
    simp only [place, Option.bind_eq_bind, Option.bind_eq_some_iff, Option.pure_def, Option.some.injEq] at h
    obtain ⟨c, hc, rfl⟩ := h
    exact List.forall_mem_append.2 ⟨hp, hf operand (by simp [Piece.texts]) c hc⟩
  | table fences rows =>
    simp only [place, convertTable, Option.bind_eq_bind, Option.bind_eq_some_iff, Option.map_eq_some_iff,
      Option.pure_def, Option.some.injEq, Prod.exists, Prod.mk.injEq] at h
    obtain ⟨m, remarks, ⟨mss, remarks', hrows, -, rfl⟩, rfl⟩ := h
    exact List.forall_mem_append.2 ⟨hp, remarks_of_convertRows hf hrows⟩

theorem remarks_of_placeAll (hf : ∀ t, T t → ∀ c, f t = some c → ∀ r ∈ c.remarks, P r)
    (hps : ∀ piece ∈ ps, piece.Has P T) (hp : ∀ r ∈ p.remarks, P r) (h : placeAll f p ps = some q) :
    ∀ r ∈ q.remarks, P r := by
  induction ps generalizing p with
  | nil =>
    cases h
    exact hp
  | cons piece ps ih =>
    obtain ⟨hpiece, hps⟩ := List.forall_mem_cons.1 hps
    rw [placeAll, Option.bind_eq_bind, Option.bind_eq_some_iff] at h
    obtain ⟨p', hplace, h⟩ := h
    exact ih hps (remarks_of_place hf hpiece hp hplace) h

/-- **What is kept by reading** holds through the whole conversion. -/
theorem remarks_of_convert (hT : ∀ s, T s → ∀ piece ∈ pieces s, piece.Has P T) {fuel : Nat} {c : Converted} (hs : T s)
    (h : convert fuel s = some c) : ∀ r ∈ c.remarks, P r := by
  induction fuel generalizing s c with
  | zero => cases h
  | succ fuel ih =>
    rw [convert, Option.map_eq_some_iff] at h
    obtain ⟨p, hp, rfl⟩ := h
    exact remarks_of_placeAll (fun t ht c hc => ih ht hc) (hT s hs) (by simp) hp

theorem remarks_of_convertBody (hT : ∀ s, T s → ∀ piece ∈ pieces s, piece.Has P T) {fuel : Nat} {c : Converted}
    (hs : ∀ t ∈ roots s, T t) (h : convertBody fuel s = some c) : ∀ r ∈ c.remarks, P r := by
  have hconvert : ∀ t ∈ roots s, ∀ c, convert fuel t = some c → ∀ r ∈ c.remarks, P r :=
    fun t ht c hc => remarks_of_convert hT (hs t ht) hc
  unfold convertBody at h
  unfold roots at hconvert
  simp only at h
  split at h
  · rename_i hrows
    rw [if_pos hrows] at hconvert
    simp only [convertTable, Option.map_eq_some_iff, Prod.exists, Prod.mk.injEq] at h
    obtain ⟨m, remarks, ⟨mss, remarks', hmss, -, rfl⟩, rfl⟩ := h
    exact remarks_of_convertRows hconvert hmss
  · rename_i hrows
    rw [if_neg hrows] at hconvert
    exact hconvert s (List.mem_singleton.2 rfl) c h

/-! ## Reading supplied text -/

/-- The remark is about an unknown name or a script without an operand. -/
def Remark.IsMinor (r : Remark) : Prop := r.category = .badSyntax → ∃ marker, r = .missingOperand marker

/-- Readable signs that supply every command. -/
structure IsServed (us : List Sign) : Prop where
  readable : Legible us
  supplied : WellSupplied us

/-- The text is spelled by signs that supply every command. -/
def IsSupplied (s : List Char) : Prop := ∃ us, IsServed us ∧ spell us = s

/-- The piece tells of no fault, and leaves none to be found. -/
def Piece.IsFaultless : Piece → Prop := Piece.Has Remark.IsMinor IsSupplied

/-- A reader finds no fault, and leaves a text where none is found. -/
structure ReadsOn (r : List Piece × List Char) : Prop where
  faultless : ∀ piece ∈ r.1, piece.IsFaultless
  rest : IsSupplied r.2

theorem IsServed.isSupplied (h : IsServed us) : IsSupplied (spell us) := ⟨us, h, rfl⟩

theorem IsServed.of_append (h : IsServed (x ++ y)) (hx : Nested x) : IsServed y :=
  ⟨h.readable.of_append_right, h.supplied.of_append_right (h.supplied.nested.of_append hx)⟩

theorem IsServed.of_flat (h : IsServed (u :: us)) (hu : u.isFlat = true) : IsServed us :=
  h.of_append (x := [u]) (.flat hu .nil)

theorem isServed_nil : IsServed [] := by
  refine ⟨trivial, .nil, fun x u y h => ?_⟩
  cases (List.append_eq_nil_iff.1 h.symm).2

/-- What is taken is read as an argument, and supplied in turn, as is what stands behind it. -/
theorem IsServed.of_takes? (h : IsServed us) (ht : takes? us = some (a, r)) :
    argument? (spell us) = some (spell a, spell r) ∧ IsServed a ∧ IsServed r := by
  obtain ⟨-, -, front, rfl, hinfix⟩ := h.supplied.nested.of_takes? ht
  obtain ⟨ha, hr⟩ := h.supplied.of_takes? ht
  exact ⟨argument?_spell h.readable h.supplied.nested ht,
    ⟨h.readable.of_append_left.of_part hinfix, ha⟩, ⟨h.readable.of_append_right, hr⟩⟩

theorem Piece.IsFaultless.plain (m : Markup) : (Piece.plain m).IsFaultless := ⟨by simp, by simp [texts]⟩

theorem Piece.IsFaultless.of_remark {r : Remark} (h : r.IsMinor) : (Piece.remark r).IsFaultless :=
  ⟨by rintro r' ⟨⟩; exact h, by simp [texts]⟩

theorem Piece.IsFaultless.of_texts (hpiece : ∀ r, piece ≠ .remark r) (h : ∀ t ∈ piece.texts, IsSupplied t) :
    piece.IsFaultless :=
  ⟨fun r hr => absurd hr (hpiece r), h⟩

open Piece.IsFaultless

theorem ReadsOn.nil (h : IsSupplied s) : ReadsOn ([], s) := ⟨by simp, h⟩

theorem ReadsOn.single (hpiece : piece.IsFaultless) (h : IsSupplied s) : ReadsOn ([piece], s) :=
  ⟨List.forall_mem_singleton.2 hpiece, h⟩

theorem ReadsOn.pair {second : Piece} (hpiece : piece.IsFaultless) (hsecond : second.IsFaultless) (h : IsSupplied s) :
    ReadsOn ([piece, second], s) :=
  ⟨List.forall_mem_cons.2 ⟨hpiece, List.forall_mem_singleton.2 hsecond⟩, h⟩

theorem ReadsOn.symbols (ms : List Markup) (h : IsSupplied s) : ReadsOn (ms.map .plain, s) := by
  refine ⟨fun piece hpiece => ?_, h⟩
  obtain ⟨m, -, rfl⟩ := List.mem_map.1 hpiece
  exact plain m

/-! ## Readers -/

theorem readsOn_readScript (h : IsServed (.char c :: us)) (hc : c = '^' ∨ c = '_') :
    ReadsOn (readScript c (spell us)) := by
  have hflat : (char c).isFlat = true := by rcases hc with rfl | rfl <;> rfl
  have hus := h.of_flat hflat
  rw [readScript]
  rcases h.supplied.finds [] _ us rfl hc with hnone | ⟨a, r, ht, -⟩
  · rw [hnone]
    refine .pair (of_remark fun _ => ⟨c, rfl⟩) (of_texts (by simp) ?_) hus.isSupplied
    exact List.forall_mem_singleton.2 isServed_nil.isSupplied
  · obtain ⟨hargument, ha, hr⟩ := hus.of_takes? ht
    rw [hargument]
    exact .single (of_texts (by simp) (List.forall_mem_singleton.2 ha.isSupplied)) hr.isSupplied

theorem readsOn_readGroup (h : IsServed (.char '{' :: us)) : ReadsOn (readGroup (spell us)) := by
  obtain ⟨a, r, rfl, ha, -⟩ := h.supplied.nested.exists_pair rfl
  obtain ⟨hinner, hrest⟩ := h.supplied.of_pair rfl ha
  have hgroup := splitGroup?_spell h.readable
  have htext : spell (char '{' :: (a ++ char '}' :: r)) = '{' :: spell (a ++ char '}' :: r) := rfl
  rw [ha.group?_eq, Option.map_some, spellPair, htext] at hgroup
  have hbody : groupBody (spell (char '{' :: (a ++ [char '}']))) = spell a := by simp [groupBody, text]
  rw [readGroup, hgroup]
  simp only [hbody]
  have hread := h.readable.2.2
  refine .single (of_texts (by simp) (List.forall_mem_singleton.2 ?_)) ?_
  · exact IsServed.isSupplied ⟨hread.of_append_left, hinner⟩
  · exact IsServed.isSupplied ⟨hread.of_append_right.2.2, hrest⟩

/-- A stretch of characters that are no braces is left out. -/
theorem isSupplied_of_append {t : List Char} (h : IsServed us) (hs : s ++ t = spell us) (hplain : ∀ c ∈ s, IsPlain c) :
    IsSupplied t := by
  obtain ⟨us', rfl, rfl⟩ := h.readable.chars_append hs.symm fun hmem => (hplain _ hmem).1 rfl
  refine (h.of_append (.of_flats fun u hu => ?_)).isSupplied
  obtain ⟨c, hc, rfl⟩ := List.mem_map.1 hu
  simpa [isFlat] using (hplain c hc).2

theorem readsOn_readPlain (h : IsServed us) (c : Char) : ReadsOn (readPlain c (spell us)) := by
  rw [readPlain]
  split
  · obtain ⟨hsplit, hdigits⟩ := append_splitNumber (spell us)
    refine .single (plain _) (isSupplied_of_append h hsplit fun d hd => ?_)
    rcases hdigits d hd with hdigit | rfl
    · refine ⟨?_, ?_, ?_⟩ <;>
        · rintro rfl
          cases hdigit
    · exact ⟨by decide, by decide, by decide⟩
  · split
    · exact .single (plain _) h.isSupplied
    · split
      · exact .single (plain _) h.isSupplied
      · split <;> exact .single (plain _) h.isSupplied

theorem isSupplied_dropNullDelimiter (h : IsServed us) : IsSupplied (dropNullDelimiter (spell us)) := by
  have hblanks : Nested (us.takeWhile Sign.isBlank) :=
    Nested.of_blanks fun u hu => List.mem_takeWhile_imp hu
  have hdrop : IsServed (us.dropWhile Sign.isBlank) := by
    rw [← List.takeWhile_append_dropWhile (p := Sign.isBlank) (l := us)] at h
    exact h.of_append hblanks
  rw [dropNullDelimiter, trimStart_spell h.readable]
  split
  · rename_i rest hrest
    obtain ⟨us', hus', rfl⟩ := hdrop.readable.char_cons hrest (by decide)
    rw [hus'] at hdrop
    exact (hdrop.of_flat rfl).isSupplied
  · exact h.isSupplied

/-- A construct that finds its arguments is read. -/
theorem readsOn_construct? {b : Build} (h : IsServed us) (hb : b.Finds (SuppliedWith fun _ => False) us) :
    ∃ piece rest, construct? b (spell us) = some (piece, rest) ∧ ReadsOn ([piece], rest) := by
  cases b with
  | unary f =>
    obtain ⟨a, r, ht, -⟩ := hb
    obtain ⟨hargument, ha, hr⟩ := h.of_takes? ht
    refine ⟨.unary f (spell a), spell r, by simp [construct?, hargument], .single (of_texts (by simp) ?_) hr.isSupplied⟩
    exact List.forall_mem_singleton.2 ha.isSupplied
  | plain f =>
    obtain ⟨a, r, ht, -⟩ := hb
    obtain ⟨hargument, -, hr⟩ := h.of_takes? ht
    exact ⟨.plain (f (spell a)), spell r, by simp [construct?, hargument], .single (plain _) hr.isSupplied⟩
  | binary f =>
    obtain ⟨a, r, ht, b, r', ht', -⟩ := hb
    obtain ⟨hargument, ha, hr⟩ := h.of_takes? ht
    obtain ⟨hargument', hb, hr'⟩ := hr.of_takes? ht'
    refine ⟨.binary f (spell a) (spell b), spell r', by simp [construct?, hargument, hargument'], ?_⟩
    refine .single (of_texts (by simp) ?_) hr'.isSupplied
    exact List.forall_mem_cons.2 ⟨ha.isSupplied, List.forall_mem_singleton.2 hb.isSupplied⟩
  | styled f =>
    obtain ⟨a, r, ht, b, r', ht', -⟩ := hb
    obtain ⟨hargument, -, hr⟩ := h.of_takes? ht
    obtain ⟨hargument', hb, hr'⟩ := hr.of_takes? ht'
    refine ⟨.unary (f (spell a)) (spell b), spell r', by simp [construct?, hargument, hargument'], ?_⟩
    exact .single (of_texts (by simp) (List.forall_mem_singleton.2 hb.isSupplied)) hr'.isSupplied
  | indexed bare f =>
    rcases hb with ⟨hbare, a, r, ht, -⟩ | ⟨index, rest, hindex, hQ, a, r, ht, -⟩
    · obtain ⟨hargument, ha, hr⟩ := h.of_takes? ht
      refine ⟨.unary bare (spell a), spell r, by simp [construct?, hbare, hargument], ?_⟩
      exact .single (of_texts (by simp) (List.forall_mem_singleton.2 ha.isSupplied)) hr.isSupplied
    · obtain ⟨front, hus, hfront, -⟩ := hindex.exists_front
      have hread := h.readable
      obtain ⟨blanks, -, hspelled⟩ := hindex.spelled
      have hreadIndex : Legible index := by
        rw [hspelled] at hread
        exact hread.of_append_right.2.2.of_append_left
      have hrest : IsServed rest := by
        rw [hus] at h
        exact h.of_append hfront
      obtain ⟨hargument, ha, hr⟩ := hrest.of_takes? ht
      refine ⟨.binary f (spell a) (spell index), spell r, ?_, ?_⟩
      · simp [construct?, hindex.bracketed?_spell, hargument]
      · refine .single (of_texts (by simp) ?_) hr.isSupplied
        have hindex := IsServed.isSupplied ⟨hreadIndex, WellSupplied.of_index hQ⟩
        exact List.forall_mem_cons.2 ⟨ha.isSupplied, List.forall_mem_singleton.2 hindex⟩

theorem readsOn_readWord (h : IsServed (.word name :: us)) : ReadsOn (readWord name (spell us)) := by
  have hus := h.of_flat rfl
  obtain ⟨hbegin, hend, hbuild⟩ := h.supplied.finds [] _ us rfl
  simp only [readWord]
  rw [if_neg hbegin, if_neg hend]
  split
  · exact .nil (isSupplied_dropNullDelimiter hus)
  · split
    · rename_i b hb
      obtain ⟨piece, rest, hconstruct, hreads⟩ := readsOn_construct? hus (hbuild b hb)
      rw [hconstruct]
      exact hreads
    · split
      · exact .symbols _ hus.isSupplied
      · refine .pair (of_remark fun hr => ?_) (plain _) hus.isSupplied
        cases hr

theorem nextGroup?_braces (hname : ∀ c ∈ name, IsPlain c) (t : List Char) :
    nextGroup? ('{' :: (name ++ '}' :: t)) = some ('{' :: (name ++ ['}']), t) := by
  have hclosed := closes_append_iff_of_isPlain (d := 0) (t := []) hname
  rw [List.append_nil] at hclosed
  have hbalanced := isBalanced_iff.2 (hclosed.2 (closes_nil_iff.2 rfl))
  rw [nextGroup?_eq]
  exact hbalanced.splitGroup?_eq t

/-- The texts of an environment: the cells of a table, or the body. -/
theorem faultless_environmentPieces {body : List Sign} (hread : Legible body) (h : WellSupplied body)
    (hcuts : (fences? (String.ofList name)).isSome → Cuts (blocksOf (tableSigns name body))) :
    ∀ piece ∈ environmentPieces name (spell body), piece.IsFaultless := by
  rw [environmentPieces]
  split
  · rename_i fences hfences
    have hcuts := hcuts (by rw [hfences]; rfl)
    refine List.forall_mem_singleton.2 (of_texts (by simp) fun t ht => ?_)
    rw [← spell_tableSigns hread] at ht
    obtain ⟨row, hrow, ht⟩ := List.mem_flatten.1 ht
    obtain ⟨vs, hvs, hsupplied, rfl⟩ := SuppliedWith.cells h.tableSigns (hread.tableSigns h.nested) hcuts row hrow t ht
    exact IsServed.isSupplied ⟨hvs, hsupplied⟩
  · refine List.forall_mem_cons.2 ⟨of_remark fun hr => ?_, List.forall_mem_singleton.2 (of_texts (by simp) ?_)⟩
    · cases hr
    · exact List.forall_mem_singleton.2 (IsServed.isSupplied ⟨hread, h⟩)

theorem readsOn_readEnvironment (h : IsServed (.env true name :: us)) :
    ReadsOn (readEnvironment ('{' :: (name ++ '}' :: spell us))) := by
  obtain ⟨a, r, rfl, ha, -⟩ := h.supplied.nested.exists_pair rfl
  obtain ⟨hinner, hrest⟩ := h.supplied.of_pair rfl ha
  obtain ⟨htrim, hcuts⟩ := h.supplied.finds [] _ _ rfl
  obtain ⟨-, hfits, hread⟩ := h.readable
  have hname : ∀ c ∈ name, IsPlain c := fun c hc => ⟨(hfits c hc).2.2.1, (hfits c hc).1, (hfits c hc).2.1⟩
  have hclose : splitEnvironment? name (spell (a ++ env false name :: r)) =
      some (spell a ++ endOf name, spell r) := by
    rw [splitEnvironment?, closeEnvironments?_spell hread fun hmem => (hname _ hmem).2.2 rfl, ha.closing?_eq rfl]
    simp [spellPair, text]
  have hbody : groupBody ('{' :: (name ++ ['}'])) = name := by rw [groupBody, List.tail_cons, List.dropLast_concat]
  rw [readEnvironment, nextGroup?_braces hname]
  simp only [hbody, htrim, hclose, List.length_append, Nat.add_sub_cancel, List.take_left']
  refine ⟨?_, IsServed.isSupplied ⟨hread.of_append_right.2.2, hrest⟩⟩
  exact faultless_environmentPieces hread.of_append_left hinner fun hfences => hcuts a r rfl ha hfences

theorem readsOn_char (h : IsServed (.char c :: us)) : ReadsOn (readPieces c (spell us)) := by
  obtain ⟨-, hfits, -⟩ := h.readable
  rw [readPieces, if_neg hfits.1]
  split
  · rename_i hscript
    exact readsOn_readScript h (by simpa using hscript)
  split
  · rename_i hopen
    subst hopen
    exact readsOn_readGroup h
  split
  · rename_i hclose
    subst hclose
    rcases h.supplied.nested.isFlat_or_partner? with hflat | ⟨v, hv⟩
    · cases hflat
    · cases hv
  have hus := h.of_flat (by simp [isFlat, *])
  split
  · exact .nil hus.isSupplied
  split
  · rename_i hpercent
    exact absurd hpercent hfits.2
  split
  · exact .nil hus.isSupplied
  · exact readsOn_readPlain hus _

theorem readsOn_slash (h : IsServed (.slash :: us)) : ReadsOn (readCommand (spell us)) := by
  obtain ⟨-, hfits, hread⟩ := h.readable
  have hus := h.of_flat rfl
  cases hspell : spell us with
  | nil => exact .single (plain _) isServed_nil.isSupplied
  | cons d t =>
    -- the blank behind the backslash belongs to it
    have hblank := hfits d (by rw [hspell]; rfl)
    have hplain := isPlain_of_isBlank hblank
    obtain ⟨us', rfl, rfl⟩ := hread.char_cons hspell hplain.1
    rw [readCommand, if_neg hplain.1, if_neg (by simp [isCommandLetter_eq_false_of_isBlank hblank])]
    exact .symbols _ (hus.of_flat (isFlat_of_isBlank (u := char d) hblank)).isSupplied

/-- **Reading a sign** finds no fault and leaves none. -/
theorem readsOn_readPieces (h : IsServed (u :: us)) (hs : spell (u :: us) = c :: s) : ReadsOn (readPieces c s) := by
  obtain ⟨-, hfits, -⟩ := h.readable
  cases u with
  | char d =>
    obtain ⟨rfl, rfl⟩ : d = c ∧ spell us = s := List.cons.inj hs
    exact readsOn_char h
  | escaped d =>
    obtain ⟨rfl, rfl⟩ : '\\' = c ∧ d :: spell us = s := List.cons.inj hs
    have hus := (h.of_flat rfl).isSupplied
    rw [readPieces, if_pos rfl, readCommand]
    split
    · exact .single (plain _) hus
    · rw [if_neg (by simp [hfits.2.1])]
      exact .symbols _ hus
  | slash =>
    obtain ⟨rfl, rfl⟩ : '\\' = c ∧ spell us = s := List.cons.inj hs
    rw [readPieces, if_pos rfl]
    exact readsOn_slash h
  | word name =>
    obtain ⟨rfl, rfl⟩ : '\\' = c ∧ name ++ spell us = s := List.cons.inj hs
    rw [readPieces, if_pos rfl, readCommand_word ⟨hfits.1, hfits.2.1, hfits.2.2.1⟩]
    exact readsOn_readWord h
  | env opening name =>
    cases opening with
    | false =>
      rcases h.supplied.nested.isFlat_or_partner? with hflat | ⟨v, hv⟩
      · cases hflat
      · cases hv
    | true =>
      have htext : spell (env true name :: us) = '\\' :: (envWord true ++ '{' :: (name ++ '}' :: spell us)) := by
        simp [text, beginOf, envWord]
      rw [htext] at hs
      obtain ⟨rfl, rfl⟩ := List.cons.inj hs
      rw [readPieces, if_pos rfl, readCommand_word (isWordBefore_envWord true _)]
      exact readsOn_readEnvironment h

/-- **Supplied text is read without a fault**, and so are the texts in its pieces. -/
theorem isFaultless_pieces (h : IsSupplied s) : ∀ piece ∈ pieces s, piece.IsFaultless := by
  fun_induction pieces s with
  | case1 => simp
  | case2 c s ih =>
    obtain ⟨us, hus, hs⟩ := h
    cases us with
    | nil => cases hs
    | cons u us =>
      have hreads := readsOn_readPieces hus hs
      exact List.forall_mem_append.2 ⟨hreads.faultless, ih hreads.rest⟩

/-- The texts that a supplied expression is converted from are supplied. -/
theorem isSupplied_of_mem_roots (h : IsServed us) (hcuts : 1 < (tableCells (spell us)).length → Cuts (blocksOf us)) :
    ∀ t ∈ roots (spell us), IsSupplied t := by
  unfold roots
  split
  · rename_i hrows
    intro t ht
    obtain ⟨row, hrow, ht⟩ := List.mem_flatten.1 ht
    obtain ⟨vs, hvs, hsupplied, rfl⟩ := SuppliedWith.cells h.supplied h.readable (hcuts hrows) row hrow t ht
    exact IsServed.isSupplied ⟨hvs, hsupplied⟩
  · exact List.forall_mem_singleton.2 h.isSupplied

end MathMarkup.Tex
