import Mathlib.Data.List.Infix
import MathMarkup.Proofs.Normal.Places
import MathMarkup.Proofs.Span.Bytes

/-!
# Groups along the tokens

In a text without comments the braces that the search for the end of a group counts are the brace tokens: it passes
every other token as a whole (`closeGroups?_fits`). So it stops behind the token that closes the group when brace
tokens are counted instead (`closeGroups?_tokensFrom`), which is the first closing brace at which as many groups are
closed as were opened (`closeTokens?_eq_some_iff`).

Main theorem: `groupEnd?_along_tokens`.
-/

namespace MathMarkup.Tex

open Text

variable {kind : TokenKind} {c : Char} {s text rest : List Char} {t close : Token} {ts us vs inner : List Token}
variable {d offset : Nat}

/-! ## Tokens are passed as a whole -/

theorem isPlain_of_not_isSpecial (hc : isSpecial c = false) : IsPlain c := by
  refine ⟨?_, ?_, ?_⟩ <;> rintro rfl <;> cases hc

theorem closeGroups?_fits (h : kind.Fits text rest) (hopen : kind ≠ .lbrace) (hclose : kind ≠ .rbrace)
    (hcomment : kind ≠ .comment) : closeGroups? d (text ++ rest) = (closeGroups? d rest).map (onFound text) := by
  have hsingle : ∀ c, IsPlain c → text = [c] →
      closeGroups? d (text ++ rest) = (closeGroups? d rest).map (onFound text) := by
    rintro c hc rfl
    exact closeGroups?_cons_of_isPlain hc rest
  cases kind with
  | lbrace => exact absurd rfl hopen
  | rbrace => exact absurd rfl hclose
  | comment => exact absurd rfl hcomment
  | lbracket => exact hsingle '[' (by simp [IsPlain]) h
  | rbracket => exact hsingle ']' (by simp [IsPlain]) h
  | lparen => exact hsingle '(' (by simp [IsPlain]) h
  | rparen => exact hsingle ')' (by simp [IsPlain]) h
  | dollar => exact hsingle '$' (by simp [IsPlain]) h
  | ampersand => exact hsingle '&' (by simp [IsPlain]) h
  | caret => exact hsingle '^' (by simp [IsPlain]) h
  | underscore => exact hsingle '_' (by simp [IsPlain]) h
  | lineBreak =>
    obtain rfl := h
    exact closeGroups?_escaped '\\' rest
  | command =>
    rcases h with ⟨name, rfl, hne, hrun⟩ | ⟨c, rfl, -, -⟩
    · have hplain : ∀ c ∈ name, IsPlain c := fun c hc => isPlain_of_isCommandLetter (hrun.all c hc)
      obtain ⟨c, name, rfl⟩ := List.exists_cons_of_ne_nil hne
      rw [List.cons_append, List.cons_append, closeGroups?_slash_of_isPlain (hplain c List.mem_cons_self),
        ← List.cons_append, closeGroups?_append_of_isPlain hplain, map_onFound_onFound]
      rfl
    · exact closeGroups?_escaped c rest
  | whitespace => exact closeGroups?_append_of_isPlain (fun c hc => isPlain_of_isBlank (h.2.all c hc)) rest
  | text =>
    rcases h with ⟨-, hrun⟩ | ⟨rfl, rfl⟩
    · refine closeGroups?_append_of_isPlain (fun c hc => isPlain_of_not_isSpecial ?_) rest
      have hclass := hrun.all c hc
      simp only [Bool.and_eq_true, Bool.not_eq_true'] at hclass
      exact hclass.1
    · rfl

/-! ## Counting brace tokens -/

/-- The number of groups that are opened by the tokens. -/
def opened (ts : List Token) : Nat := ts.countP fun t => t.kind = .lbrace

/-- The number of groups that are closed by the tokens. -/
def closed (ts : List Token) : Nat := ts.countP fun t => t.kind = .rbrace

/-- The tokens up to and with the one that closes `depth` open groups. -/
def closeTokens? (depth : Nat) : List Token → Option (List Token)
  | [] => none
  | t :: ts =>
    match t.kind with
    | .lbrace => (closeTokens? (depth + 1) ts).map (t :: ·)
    | .rbrace => if depth ≤ 1 then some [t] else (closeTokens? (depth - 1) ts).map (t :: ·)
    | _ => (closeTokens? depth ts).map (t :: ·)

theorem opened_cons (t : Token) (ts : List Token) :
    opened (t :: ts) = opened ts + if t.kind = .lbrace then 1 else 0 := by simp [opened, List.countP_cons]

theorem closed_cons (t : Token) (ts : List Token) :
    closed (t :: ts) = closed ts + if t.kind = .rbrace then 1 else 0 := by simp [closed, List.countP_cons]

theorem closed_nil_ne (hd : 1 ≤ d) : closed [] ≠ opened [] + d := by
  simp only [closed, opened, List.countP_nil]
  omega

theorem closeTokens?_open (ht : t.kind = .lbrace) (d : Nat) (ts : List Token) :
    closeTokens? d (t :: ts) = (closeTokens? (d + 1) ts).map (t :: ·) := by simp [closeTokens?, ht]

theorem closeTokens?_close (ht : t.kind = .rbrace) (d : Nat) (ts : List Token) :
    closeTokens? d (t :: ts) = if d ≤ 1 then some [t] else (closeTokens? (d - 1) ts).map (t :: ·) := by
  simp [closeTokens?, ht]

theorem closeTokens?_other (hopen : t.kind ≠ .lbrace) (hclose : t.kind ≠ .rbrace) (d : Nat) (ts : List Token) :
    closeTokens? d (t :: ts) = (closeTokens? d ts).map (t :: ·) := by
  rw [closeTokens?]
  split
  · exact absurd ‹_› hopen
  · exact absurd ‹_› hclose
  · rfl

/-- What is found is a beginning that ends with a closing brace, and it closes `d` groups more than it opens. -/
theorem of_closeTokens? (hd : 1 ≤ d) (h : closeTokens? d ts = some us) :
    us <+: ts ∧ closed us = opened us + d ∧ ∃ inner close, us = inner ++ [close] ∧ close.kind = .rbrace := by
  induction ts generalizing d us with
  | nil => cases h
  | cons t ts ih =>
    -- a token behind which `e` groups are still to be closed
    have hpass : ∀ e, 1 ≤ e → (closeTokens? e ts).map (t :: ·) = some us →
        (∀ vs, closed vs = opened vs + e → closed (t :: vs) = opened (t :: vs) + d) →
        us <+: t :: ts ∧ closed us = opened us + d ∧ ∃ inner close, us = inner ++ [close] ∧ close.kind = .rbrace := by
      intro e he hfound hcount
      obtain ⟨vs, hvs, rfl⟩ := Option.map_eq_some_iff.1 hfound
      obtain ⟨hpre, hclosed, inner, close, rfl, hclose⟩ := ih he hvs
      exact ⟨List.cons_prefix_cons.2 ⟨rfl, hpre⟩, hcount _ hclosed, t :: inner, close, rfl, hclose⟩
    by_cases hopen : t.kind = .lbrace
    · rw [closeTokens?_open hopen] at h
      refine hpass (d + 1) (by omega) h fun vs hvs => ?_
      simp only [closed_cons, opened_cons, hopen, reduceCtorEq, ↓reduceIte]
      omega
    by_cases hclose : t.kind = .rbrace
    · rw [closeTokens?_close hclose] at h
      split at h
      · obtain rfl := Option.some.inj h
        obtain rfl : d = 1 := by omega
        refine ⟨List.cons_prefix_cons.2 ⟨rfl, List.nil_prefix⟩, ?_, [], t, rfl, hclose⟩
        simp only [closed_cons, opened_cons, hclose, reduceCtorEq, ↓reduceIte]
        rfl
      · refine hpass (d - 1) (by omega) h fun vs hvs => ?_
        simp only [closed_cons, opened_cons, hclose, reduceCtorEq, ↓reduceIte]
        omega
    · rw [closeTokens?_other hopen hclose] at h
      refine hpass d hd h fun vs hvs => ?_
      simpa only [closed_cons, opened_cons, hopen, hclose, ↓reduceIte, Nat.add_zero] using hvs

/-- A beginning that closes `d` groups more than it opens holds what is found. -/
theorem closeTokens?_of_closed (hd : 1 ≤ d) (hpre : vs <+: ts) (h : closed vs = opened vs + d) :
    ∃ us, closeTokens? d ts = some us ∧ us <+: vs := by
  induction ts generalizing d vs with
  | nil =>
    obtain rfl := List.prefix_nil.1 hpre
    exact absurd h (closed_nil_ne hd)
  | cons t ts ih =>
    cases vs with
    | nil => exact absurd h (closed_nil_ne hd)
    | cons u vs =>
      obtain ⟨rfl, htail⟩ := List.cons_prefix_cons.1 hpre
      have hpass : ∀ e, 1 ≤ e → closed vs = opened vs + e →
          ∃ us, (closeTokens? e ts).map (u :: ·) = some us ∧ us <+: u :: vs := by
        intro e he hclosed
        obtain ⟨us, hus, hbegins⟩ := ih he htail hclosed
        exact ⟨u :: us, by rw [hus, Option.map_some], List.cons_prefix_cons.2 ⟨rfl, hbegins⟩⟩
      by_cases hopen : u.kind = .lbrace
      · rw [closeTokens?_open hopen]
        refine hpass (d + 1) (by omega) ?_
        simp only [closed_cons, opened_cons, hopen, reduceCtorEq, ↓reduceIte] at h
        omega
      by_cases hclose : u.kind = .rbrace
      · rw [closeTokens?_close hclose]
        split
        · exact ⟨[u], rfl, List.cons_prefix_cons.2 ⟨rfl, List.nil_prefix⟩⟩
        · refine hpass (d - 1) (by omega) ?_
          simp only [closed_cons, opened_cons, hclose, reduceCtorEq, ↓reduceIte] at h
          omega
      · rw [closeTokens?_other hopen hclose]
        refine hpass d hd ?_
        simpa only [closed_cons, opened_cons, hopen, hclose, ↓reduceIte, Nat.add_zero] using h

/-- The token `close` is the first closing brace behind which as many groups are closed by the tokens as are opened. -/
structure IsGroupClose (ts inner : List Token) (close : Token) : Prop where
  split : inner ++ [close] <+: ts
  kind : close.kind = .rbrace
  even : closed (inner ++ [close]) = opened (inner ++ [close])
  first : ∀ before earlier, before ++ [earlier] <+: inner → earlier.kind = .rbrace →
    closed (before ++ [earlier]) ≠ opened (before ++ [earlier])

/-- **The token that closes a group** is the one at which counting stops. -/
theorem closeTokens?_eq_some_iff (ht : t.kind = .lbrace) :
    closeTokens? 0 (t :: ts) = some (inner ++ [close]) ↔ IsGroupClose (t :: ts) inner close := by
  have heven : ∀ us, closed (t :: us) = opened (t :: us) ↔ closed us = opened us + 1 := by
    intro us
    simp only [closed_cons, opened_cons, ht, reduceCtorEq, ↓reduceIte, Nat.add_zero]
  rw [closeTokens?_open ht, Nat.zero_add]
  constructor
  · intro h
    obtain ⟨us, hus, heq⟩ := Option.map_eq_some_iff.1 h
    obtain ⟨hpre, hclosed, before, last, rfl, hlast⟩ := of_closeTokens? (Nat.le_refl 1) hus
    have hends : (t :: before) ++ [last] = inner ++ [close] := heq
    obtain ⟨rfl, hlasts⟩ := List.append_inj' hends rfl
    obtain rfl := List.singleton_inj.1 hlasts
    refine ⟨List.cons_prefix_cons.2 ⟨rfl, hpre⟩, hlast, (heven _).2 hclosed,
      fun front earlier hfront hkind hcount => ?_⟩
    cases front with
    | nil =>
      rw [(List.cons_prefix_cons.1 hfront).1, ht] at hkind
      cases hkind
    | cons u front =>
      obtain ⟨rfl, htail⟩ := List.cons_prefix_cons.1 hfront
      obtain ⟨vs, hvs, hshort⟩ := closeTokens?_of_closed (Nat.le_refl 1)
        (htail.trans ((List.prefix_append before [last]).trans hpre)) ((heven _).1 hcount)
      obtain rfl := Option.some.inj (hvs.symm.trans hus)
      have hlength := (hshort.trans htail).length_le
      rw [List.length_append, List.length_singleton] at hlength
      omega
  · intro h
    cases inner with
    | nil =>
      have hkind := h.kind
      rw [(List.cons_prefix_cons.1 h.split).1, ht] at hkind
      cases hkind
    | cons u inner =>
      obtain ⟨rfl, hsplit⟩ := List.cons_prefix_cons.1 h.split
      obtain ⟨us, hus, hpre⟩ := closeTokens?_of_closed (Nat.le_refl 1) hsplit ((heven _).1 h.even)
      obtain ⟨-, hclosed, before, last, rfl, hlast⟩ := of_closeTokens? (Nat.le_refl 1) hus
      rcases List.prefix_concat_iff.1 hpre with heq | hshort
      · rw [hus, heq]
        rfl
      · exact absurd ((heven _).2 hclosed) (h.first (u :: before) last (List.cons_prefix_cons.2 ⟨rfl, hshort⟩) hlast)

/-! ## Groups of a text -/

theorem map_fst_onFound (o : Option (List Char × List Char)) (x : List Char) :
    (o.map (onFound x)).map Prod.fst = (o.map Prod.fst).map (x ++ ·) := by
  cases o <;> rfl

theorem map_texts_cons (o : Option (List Token)) (t : Token) :
    (o.map (t :: ·)).map (·.flatMap Token.text) = (o.map (·.flatMap Token.text)).map (t.text ++ ·) := by
  cases o <;> rfl

/-- The text of the tokens that close a group is the text of the group. -/
theorem closeGroups?_tokensFrom (h : ∀ t ∈ tokensFrom offset s, t.kind ≠ .comment) (d : Nat) :
    (closeGroups? d s).map Prod.fst = (closeTokens? d (tokensFrom offset s)).map (·.flatMap Token.text) := by
  fun_induction tokensFrom offset s generalizing d with
  | case1 => rfl
  | case2 offset c s kind k hm text ih =>
    obtain ⟨hcomment, hrest⟩ := List.forall_mem_cons.1 h
    have hfits := fits_munch hm
    have hs : c :: s = text ++ s.drop k := by simp [text]
    by_cases hopen : kind = .lbrace
    · subst hopen
      have htext : text = ['{'] := hfits
      rw [closeTokens?_open rfl, map_texts_cons, ← ih hrest, hs, htext]
      exact (congrArg (Option.map Prod.fst) (closeGroups?_open _)).trans (map_fst_onFound _ _)
    by_cases hclose : kind = .rbrace
    · subst hclose
      have htext : text = ['}'] := hfits
      rw [closeTokens?_close rfl, hs, htext]
      split
      · rename_i hd
        exact congrArg (Option.map Prod.fst) (closeGroups?_last hd _)
      · rename_i hd
        rw [map_texts_cons, ← htext, ← ih hrest, htext]
        exact (congrArg (Option.map Prod.fst) (closeGroups?_close (by omega) _)).trans (map_fst_onFound _ _)
    · rw [closeTokens?_other hopen hclose, map_texts_cons, ← ih hrest, hs,
        closeGroups?_fits hfits hopen hclose hcomment, map_fst_onFound]

/-- The tokens behind some of them are the tokens of the text behind. -/
theorem IsCut.of_append {before after : List Token} (h : IsCut offset s (before ++ after)) :
    IsCut (offset + byteLength (before.flatMap Token.text)) (after.flatMap Token.text) after := by
  refine ⟨rfl, fun t ht => h.nonempty t (List.mem_append_right before ht), fun front t behind hsplit => ?_,
    fun front t behind hsplit => ?_⟩
  · rw [h.offset (before ++ front) t behind (by rw [hsplit, List.append_assoc]), List.flatMap_append,
      byteLength_append, Nat.add_assoc]
  · exact h.fits (before ++ front) t behind (by rw [hsplit, List.append_assoc])

theorem Token.text_of_lbrace (h : IsCut offset s (t :: ts)) (ht : t.kind = .lbrace) : t.text = ['{'] := by
  have hfits := h.fits [] t ts rfl
  rw [ht] at hfits
  exact hfits

/-- The end of a group is told by the tokens that close it. -/
theorem groupEnd?_eq_closeTokens? {before after : List Token} (hcomment : ∀ t ∈ tokens s, t.kind ≠ .comment)
    (htokens : tokens s = before ++ t :: after) (ht : t.kind = .lbrace) : groupEnd? s t.offset =
      (closeTokens? 0 (t :: after)).map fun us => t.offset + byteLength (us.flatMap Token.text) := by
  have hcut : IsCut 0 s (before ++ t :: after) := htokens ▸ isCut_tokensFrom 0 s
  have htext := Token.text_of_lbrace hcut.of_append ht
  have hoffset : t.offset = byteLength (before.flatMap Token.text) := by
    rw [hcut.offset before t after rfl, Nat.zero_add]
  have hs : s = before.flatMap Token.text ++ '{' :: after.flatMap Token.text := by
    rw [← hcut.concat, List.flatMap_append, List.flatMap_cons, htext]
    rfl
  have hafter : IsCut 0 s ((before ++ [t]) ++ after) := by rwa [List.append_assoc]
  obtain ⟨n, hn⟩ : ∃ n, after = tokensFrom n (after.flatMap Token.text) := ⟨_, hafter.of_append.eq_tokensFrom⟩
  have hsilent : ∀ u ∈ tokensFrom n (after.flatMap Token.text), u.kind ≠ .comment := by
    intro u hu
    rw [← hn] at hu
    exact hcomment u (htokens ▸ List.mem_append_right before (List.mem_cons_of_mem t hu))
  have hgroup := closeGroups?_tokensFrom hsilent 1
  rw [← hn] at hgroup
  have hfst : ∀ o : Option (List Char × List Char), (o.map fun p => t.offset + 1 + byteLength p.1) =
      (o.map Prod.fst).map fun g => t.offset + 1 + byteLength g := by
    intro o
    rw [Option.map_map]
    rfl
  rw [closeTokens?_open ht, hoffset]
  conv => lhs; rw [hs]
  rw [groupEnd?_open, ← hoffset, hfst, hgroup, Option.map_map, Option.map_map]
  refine congrArg (Option.map · _) (funext fun us => ?_)
  have hbrace : '{'.utf8Size = 1 := rfl
  simp [htext, hbrace, Nat.add_assoc]

/-- Behind the token that closes a group stands the end that the tokens make up. -/
theorem IsGroupClose.stop_eq {before after : List Token} (h : IsGroupClose (t :: after) inner close)
    (hcut : IsCut offset s (before ++ t :: after)) :
    t.offset + byteLength ((inner ++ [close]).flatMap Token.text) = close.offset + byteLength close.text := by
  obtain ⟨behind, hbehind⟩ := h.split
  rw [List.append_assoc] at hbehind
  rw [hcut.offset before t after rfl,
    hcut.offset (before ++ inner) close behind (by rw [← hbehind, List.append_assoc]; rfl)]
  simp [Nat.add_assoc]

/-- **The end of a group along the tokens.** In a text without comments the group at an opening brace ends behind the
first closing brace at which as many brace tokens close a group as open one, and it does not end if there is none. The
end is never inside of a character, and the bytes of the text tell it as well. -/
theorem groupEnd?_along_tokens {before after : List Token} (hcomment : ∀ t ∈ tokens s, t.kind ≠ .comment)
    (htokens : tokens s = before ++ t :: after) (ht : t.kind = .lbrace) :
    (∀ stop, groupEnd? s t.offset = some stop ↔
      ∃ inner close, IsGroupClose (t :: after) inner close ∧ stop = close.offset + byteLength close.text) ∧
    (groupEnd? s t.offset = none ↔ ¬ ∃ inner close, IsGroupClose (t :: after) inner close) ∧
    (∀ stop, groupEnd? s t.offset = some stop → IsBoundary s stop) ∧
    groupEndBytes? (utf8 s) t.offset = groupEnd? s t.offset := by
  have hcut : IsCut 0 s (before ++ t :: after) := htokens ▸ isCut_tokensFrom 0 s
  have hend := groupEnd?_eq_closeTokens? hcomment htokens ht
  have hfound : ∀ us, closeTokens? 0 (t :: after) = some us →
      ∃ inner close, us = inner ++ [close] ∧ IsGroupClose (t :: after) inner close := by
    intro us hus
    obtain ⟨vs, hvs, rfl⟩ := Option.map_eq_some_iff.1 ((closeTokens?_open ht 0 after).symm.trans hus)
    obtain ⟨-, -, inner, close, rfl, -⟩ := of_closeTokens? (Nat.le_refl 1) hvs
    exact ⟨t :: inner, close, rfl, (closeTokens?_eq_some_iff ht).1 hus⟩
  have hsome : ∀ stop, groupEnd? s t.offset = some stop ↔
      ∃ inner close, IsGroupClose (t :: after) inner close ∧ stop = close.offset + byteLength close.text := by
    intro stop
    rw [hend, Option.map_eq_some_iff]
    constructor
    · rintro ⟨us, hus, rfl⟩
      obtain ⟨inner, close, rfl, hclose⟩ := hfound us hus
      exact ⟨inner, close, hclose, hclose.stop_eq hcut⟩
    · rintro ⟨inner, close, hclose, rfl⟩
      exact ⟨inner ++ [close], (closeTokens?_eq_some_iff ht).2 hclose, hclose.stop_eq hcut⟩
  refine ⟨hsome, ?_, fun stop hstop => ?_, groupEndBytes?_utf8 s t.offset⟩
  · rw [Option.eq_none_iff_forall_ne_some]
    constructor
    · rintro h ⟨inner, close, hclose⟩
      exact h _ ((hsome _).2 ⟨inner, close, hclose, rfl⟩)
    · intro h stop hstop
      obtain ⟨inner, close, hclose, -⟩ := (hsome stop).1 hstop
      exact h ⟨inner, close, hclose⟩
  · obtain ⟨inner, close, hclose, rfl⟩ := (hsome stop).1 hstop
    obtain ⟨behind, hbehind⟩ := hclose.split
    refine ⟨(before ++ (inner ++ [close])).flatMap Token.text, behind.flatMap Token.text, ?_, ?_⟩
    · rw [← List.flatMap_append, List.append_assoc, hbehind, hcut.concat]
    · rw [← hclose.stop_eq hcut, hcut.offset before t after rfl, List.flatMap_append, byteLength_append,
        Nat.zero_add]

/-- A brace behind a backslash is no brace, one behind a line break is, and a backslash may stand before a character of
more than one byte. -/
theorem groupEnd?_along_tokens_escaped :
    let s := "\\é\x7bb\\\x7d\x7bc\x7d\\\\\x7d".toList
    let t : Token := ⟨.lbrace, ['{'], 3⟩
    let after := (tokens s).drop 2
    (∀ t ∈ tokens s, t.kind ≠ .comment) ∧ tokens s = [⟨.command, "\\é".toList, 0⟩] ++ t :: after ∧ t.kind = .lbrace ∧
      groupEnd? s t.offset = some 13 ∧
      ∃ inner close, IsGroupClose (t :: after) inner close ∧ 13 = close.offset + byteLength close.text := by
  intro s t after
  have hcomment : ∀ t ∈ tokens s, t.kind ≠ .comment := by decide +kernel
  have htokens : tokens s = [⟨.command, "\\é".toList, 0⟩] ++ t :: after := by decide +kernel
  have hend : groupEnd? s t.offset = some 13 := by decide +kernel
  exact ⟨hcomment, htokens, rfl, hend, ((groupEnd?_along_tokens hcomment htokens rfl).1 13).1 hend⟩

end MathMarkup.Tex
