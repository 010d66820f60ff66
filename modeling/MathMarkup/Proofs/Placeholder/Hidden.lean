import Mathlib.Data.List.Forall2
import MathMarkup.Proofs.Placeholder.Seams
import MathMarkup.Proofs.Text.Cuts

/-!
# What protecting hides from the lexer

A span ends with its command's name or with a brace, so it ends where a token ends
(`tokensFrom_append_close`). In front of a span and behind it no token that a backslash starts can grow:
a lone backslash stands at the end of a text only, and a placeholder starts and ends with text. So in a text
without comments a token lies in a span or outside of all of them, the lexer finds the tokens outside again
in the protected text, and it finds no other token there that a backslash starts (`tokens_protect`).
-/

namespace MathMarkup.Tex

open Text

variable {c : Char} {k offset cursor : Nat} {kind : TokenKind} {s x y name tail rest guarded : List Char}
  {t : Token} {ts us : List Token} {p q : Placeholders}

/-- Where the token ends, in bytes. -/
def Token.stop (t : Token) : Nat := t.offset + byteLength t.text

theorem stop_le_of_mem_tokensFrom (ht : t ∈ tokensFrom offset s) : t.stop ≤ offset + byteLength s := by
  obtain ⟨a, c, b, k, rfl, hoffset, -, htext⟩ := exists_munch_of_mem_tokensFrom ht
  have hb : byteLength b = byteLength (b.take k) + byteLength (b.drop k) := by
    rw [← byteLength_append, List.take_append_drop]
  rw [Token.stop, hoffset, htext]
  simp only [byteLength_append, byteLength_cons, hb]
  omega

theorem offset_lt_stop_of_mem_tokensFrom (ht : t ∈ tokensFrom offset s) : t.offset < t.stop := by
  obtain ⟨a, c, b, k, -, -, -, htext⟩ := exists_munch_of_mem_tokensFrom ht
  have := byteLength_cons_pos c (b.take k)
  rw [Token.stop, htext]
  omega

/-! ## Stretches of spans -/

/-- A stretch of a text, in bytes. -/
structure Stretch where
  start : Nat
  stop : Nat
deriving DecidableEq, Repr

namespace Stretch

/-- The token lies in the stretch. -/
def Holds (r : Stretch) (t : Token) : Prop := r.start ≤ t.offset ∧ t.stop ≤ r.stop

/-- The token ends before the stretch or starts behind it. -/
def Misses (r : Stretch) (t : Token) : Prop := t.stop ≤ r.start ∨ r.stop ≤ t.offset

instance (r : Stretch) (t : Token) : Decidable (r.Misses t) := inferInstanceAs (Decidable (_ ∨ _))

theorem holds_of_mem (ht : t ∈ tokensFrom offset s) : Holds ⟨offset, offset + byteLength s⟩ t :=
  ⟨offset_le_of_mem_tokensFrom ht, stop_le_of_mem_tokensFrom ht⟩

/-- The text has `span` in this stretch. -/
def Cuts (s : List Char) (r : Stretch) (span : List Char) : Prop :=
  ∃ a b, s = a ++ span ++ b ∧ byteLength a = r.start ∧ byteLength (a ++ span) = r.stop

end Stretch

/-- The stretches of the command spans, found on the tokens from `cursor` on. A command made of letters opens
a stretch, which goes on over the brace groups behind it and, for an environment, to its end. -/
def stretchesFrom (cursor : Nat) : List Token → List Stretch
  | [] => []
  | t :: ts =>
    if t.offset < cursor then stretchesFrom cursor ts
    else if isWordCommand t.kind t.text then
      let stop := t.stop + byteLength (commandTail t.text (ts.flatMap Token.text))
      ⟨t.offset, stop⟩ :: stretchesFrom stop ts
    else stretchesFrom cursor ts

/-- The stretches of the command spans of a text. -/
def stretches (s : List Char) : List Stretch := stretchesFrom 0 (tokens s)

/-- The token lies outside of all the stretches. -/
def IsOutside (rs : List Stretch) (t : Token) : Prop := ∀ r ∈ rs, r.Misses t

instance (rs : List Stretch) (t : Token) : Decidable (IsOutside rs t) := inferInstanceAs (Decidable (∀ r ∈ rs, _))

/-- Tokens in the first stretch are left out, and of those behind it the others decide. -/
theorem filter_isOutside_cons {r : Stretch} {rs : List Stretch} (hts : ∀ t ∈ ts, ¬ r.Misses t)
    (hus : ∀ t ∈ us, r.Misses t) :
    (ts ++ us).filter (fun t => IsOutside (r :: rs) t) = us.filter fun t => IsOutside rs t := by
  have hnone : ts.filter (fun t => IsOutside (r :: rs) t) = [] := by
    refine List.filter_eq_nil_iff.2 fun t ht houtside => ?_
    exact hts t ht (of_decide_eq_true houtside r List.mem_cons_self)
  rw [List.filter_append, hnone, List.nil_append]
  refine List.filter_congr fun t ht => decide_eq_decide.2 ?_
  exact List.forall_mem_cons.trans (and_iff_right (hus t ht))

theorem stretchesFrom_cons_of_not (hword : isWordCommand t.kind t.text = false) (ts : List Token) :
    stretchesFrom cursor (t :: ts) = stretchesFrom cursor ts := by
  rw [stretchesFrom, hword]
  split <;> rfl

/-- Tokens in front of the cursor are passed over. -/
theorem stretchesFrom_append (hts : ∀ t ∈ ts, t.offset < cursor) (us : List Token) :
    stretchesFrom cursor (ts ++ us) = stretchesFrom cursor us := by
  induction ts with
  | nil => rfl
  | cons t ts ih =>
    obtain ⟨ht, hts⟩ := List.forall_mem_cons.1 hts
    rw [List.cons_append, stretchesFrom, if_pos ht, ih hts]

theorem exists_offset_of_mem_stretchesFrom {r : Stretch} (hr : r ∈ stretchesFrom cursor ts) :
    ∃ t ∈ ts, t.offset = r.start := by
  induction ts generalizing cursor with
  | nil => cases hr
  | cons t ts ih =>
    have hrest : ∀ cursor, r ∈ stretchesFrom cursor ts → ∃ u ∈ t :: ts, u.offset = r.start := fun cursor hr => by
      obtain ⟨u, hu, hstart⟩ := ih hr
      exact ⟨u, List.mem_cons_of_mem _ hu, hstart⟩
    rw [stretchesFrom] at hr
    split at hr
    · exact hrest _ hr
    · split at hr
      · rcases List.mem_cons.1 hr with rfl | hr
        · exact ⟨t, List.mem_cons_self, rfl⟩
        · exact hrest _ hr
      · exact hrest _ hr

theorem le_start_of_mem_stretchesFrom {r : Stretch} (hr : r ∈ stretchesFrom cursor (tokensFrom offset s)) :
    offset ≤ r.start := by
  obtain ⟨t, ht, hstart⟩ := exists_offset_of_mem_stretchesFrom hr
  exact hstart ▸ offset_le_of_mem_tokensFrom ht

/-! ## A text and its spans -/

/-- The text is protected a token or a span at a time. -/
inductive Protects : Placeholders → List Char → Placeholders → List Char → Prop
  | nil (p : Placeholders) : Protects p [] p []
  | token {p q : Placeholders} {c : Char} {s guarded : List Char} {kind : TokenKind} {k : Nat}
      (hm : munch c s = (kind, k)) (hkind : kind ≠ .comment)
      (hword : isWordCommand kind (c :: s.take k) = false) (hrest : Protects p (s.drop k) q guarded) :
      Protects p (c :: s) q (c :: s.take k ++ guarded)
  | span {p q : Placeholders} {name tail rest guarded : List Char} (hname : IsWordBefore name (tail ++ rest))
      (htail : commandTail ('\\' :: name) (tail ++ rest) = tail) (hsilent : Mode.plain.Silent tail)
      (hrest : Protects (p.add ('\\' :: name ++ tail)) rest q guarded) :
      Protects p ('\\' :: name ++ (tail ++ rest)) q (placeholder p.size ++ guarded)

theorem protects_protect (h : Mode.plain.Silent s) (p : Placeholders) :
    Protects p s (p.protect s).1 (p.protect s).2 := by
  induction hlen : s.length using Nat.strongRecOn generalizing s p with
  | ind len ih =>
    cases s with
    | nil =>
      rw [p.protect_nil]
      exact .nil p
    | cons c s =>
      obtain ⟨kind, k, hm⟩ : ∃ kind k, munch c s = (kind, k) := ⟨_, _, rfl⟩
      by_cases hword : isWordCommand kind (c :: s.take k) = true
      · obtain ⟨name, rest, rfl, rfl, hname, -⟩ := exists_word_of_munch hm hword
        rw [← List.cons_append, silent_append, after_name hname.ne_nil hname.letters Mode.noConfusion] at h
        obtain ⟨tail, y, rfl, htail, hsilent, -, hy, hwalk⟩ := protectFrom_span hname h.2 p.size
        have hlt : y.length < len := by
          rw [← hlen, List.length_cons, List.length_append, List.length_append]
          omega
        have hrest := ih y.length hlt hy (p.add ('\\' :: name ++ tail)) rfl
        have hsize : (p.add ('\\' :: name ++ tail)).size = p.size + 1 := List.length_append
        have hstep : p.protect ('\\' :: name ++ (tail ++ y)) = (((p.add ('\\' :: name ++ tail)).protect y).1,
            placeholder p.size ++ ((p.add ('\\' :: name ++ tail)).protect y).2) := by
          simp only [Placeholders.protect, hwalk, hsize]
          simp [Placeholders.add]
        rw [← List.cons_append, hstep]
        exact .span hname htail hsilent hrest
      · have hword := Bool.eq_false_iff.2 hword
        obtain ⟨hkind, hbehind⟩ := h.munch hm
        have hlt : (s.drop k).length < len := by
          rw [← hlen, List.length_cons, List.length_drop]
          omega
        have hstep : p.protect (c :: s) = ((p.protect (s.drop k)).1, c :: s.take k ++ (p.protect (s.drop k)).2) := by
          simp only [Placeholders.protect, protectFrom_of_munch hm hword, List.drop_zero, Nat.zero_sub]
          rfl
        rw [hstep]
        exact .token hm hkind hword (ih _ hlt hbehind p rfl)

/-! ### What is written for it -/

theorem Placeholders.denotes_chars (p : Placeholders) (s : List Char) : p.Denotes s s :=
  ⟨s.map .char, write_chars s, by simp, expand_chars s⟩

theorem Placeholders.denotes_add (p : Placeholders) (span : List Char) :
    (p.add span).Denotes (placeholder p.size) span := by
  have hsize : (p.add span).size = p.size + 1 := List.length_append
  refine ⟨[.token p.size], by simp [write, Item.render], ?_, ?_⟩
  · intro n hn
    obtain rfl := List.mem_singleton.1 hn
    omega
  · simp [expand, Item.render, Placeholders.add, Placeholders.size]

theorem Protects.prefix_spans (h : Protects p s q guarded) : p.spans <+: q.spans := by
  induction h with
  | nil => exact List.prefix_rfl
  | token _ _ _ _ ih => exact ih
  | span _ _ _ _ ih => exact (List.prefix_append _ _).trans ih

theorem Protects.denotes (h : Protects p s q guarded) : q.Denotes guarded s := by
  induction h with
  | nil p => exact p.denotes_chars []
  | @token p q c s guarded kind k _ _ _ _ ih =>
    have hs : c :: s = c :: s.take k ++ s.drop k := by simp
    rw [hs]
    exact (q.denotes_chars _).append ih
  | span _ _ _ hrest ih =>
    rw [← List.append_assoc]
    exact ((Placeholders.denotes_add _ _).mono hrest.prefix_spans).append ih

/-! ### Its tokens -/

theorem IsWordBefore.of_append (h : IsWordBefore name (tail ++ rest)) : IsWordBefore name tail := by
  refine ⟨h.ne_nil, h.letters, fun c hc => h.behind c ?_⟩
  rw [List.head?_append, Option.mem_def.1 hc, Option.some_or]
  rfl

theorem tokensFrom_word (h : IsWordBefore name rest) (offset : Nat) :
    tokensFrom offset ('\\' :: name ++ rest) =
      ⟨.command, '\\' :: name, offset⟩ :: tokensFrom (offset + byteLength ('\\' :: name)) rest := by
  rw [List.cons_append, tokensFrom_cons (munch_word h.ne_nil h.letters h.behind), List.take_left, List.drop_left]

/-- A span ends where a token ends. -/
theorem tokensFrom_span (hname : IsWordBefore name (tail ++ rest))
    (htail : commandTail ('\\' :: name) (tail ++ rest) = tail) (hsilent : Mode.plain.Silent tail) (offset : Nat) :
    tokensFrom offset ('\\' :: name ++ (tail ++ rest)) = tokensFrom offset ('\\' :: name ++ tail) ++
      tokensFrom (offset + byteLength ('\\' :: name ++ tail)) rest := by
  have hlast := getLast?_commandTail ('\\' :: name) (tail ++ rest)
  rw [htail] at hlast
  rw [tokensFrom_word hname, tokensFrom_word hname.of_append, tokensFrom_append_close hsilent hlast,
    byteLength_append, Nat.add_assoc]
  rfl

theorem stretchesFrom_span (hname : IsWordBefore name (tail ++ rest))
    (htail : commandTail ('\\' :: name) (tail ++ rest) = tail) (hsilent : Mode.plain.Silent tail)
    (hcursor : cursor ≤ offset) :
    stretchesFrom cursor (tokensFrom offset ('\\' :: name ++ (tail ++ rest))) =
      ⟨offset, offset + byteLength ('\\' :: name ++ tail)⟩ ::
        stretchesFrom (offset + byteLength ('\\' :: name ++ tail))
          (tokensFrom (offset + byteLength ('\\' :: name ++ tail)) rest) := by
  have hinside : ∀ t ∈ tokensFrom (offset + byteLength ('\\' :: name)) tail,
      t.offset < offset + byteLength ('\\' :: name ++ tail) := by
    intro t ht
    have := offset_lt_stop_of_mem_tokensFrom ht
    have := stop_le_of_mem_tokensFrom ht
    rw [byteLength_append]
    omega
  have hconcat : (tokensFrom (offset + byteLength ('\\' :: name)) tail ++
      tokensFrom (offset + byteLength ('\\' :: name ++ tail)) rest).flatMap Token.text = tail ++ rest := by
    rw [List.flatMap_append, Token.concat_tokensFrom, Token.concat_tokensFrom]
  rw [tokensFrom_span hname htail hsilent, tokensFrom_word hname.of_append, List.cons_append, stretchesFrom,
    if_neg (by simpa using hcursor), if_pos (hname.isWordCommand), hconcat]
  simp only [htail, Token.stop, Nat.add_assoc, ← byteLength_append]
  rw [stretchesFrom_append hinside]

theorem stretchesFrom_token (hm : munch c s = (kind, k)) (hword : isWordCommand kind (c :: s.take k) = false) :
    stretchesFrom cursor (tokensFrom offset (c :: s)) =
      stretchesFrom cursor (tokensFrom (offset + byteLength (c :: s.take k)) (s.drop k)) := by
  rw [tokensFrom_cons hm, stretchesFrom_cons_of_not hword]

/-- **A token** lies in a span or outside of it. -/
theorem Protects.holds_or_misses (h : Protects p s q guarded) (hcursor : cursor ≤ offset) :
    ∀ t ∈ tokensFrom offset s, ∀ r ∈ stretchesFrom cursor (tokensFrom offset s), r.Holds t ∨ r.Misses t := by
  induction h generalizing cursor offset with
  | nil =>
    intro t ht
    rw [tokensFrom] at ht
    cases ht
  | @token p q c s guarded kind k hm _ hword _ ih =>
    intro t ht r hr
    rw [stretchesFrom_token hm hword] at hr
    rw [tokensFrom_cons hm] at ht
    rcases List.mem_cons.1 ht with rfl | ht
    · exact .inr (.inl (le_start_of_mem_stretchesFrom hr))
    · exact ih (by omega) t ht r hr
  | @span p q name tail rest guarded hname htail hsilent _ ih =>
    intro t ht r hr
    rw [stretchesFrom_span hname htail hsilent hcursor] at hr
    rw [tokensFrom_span hname htail hsilent, List.mem_append] at ht
    rcases List.mem_cons.1 hr with rfl | hr
    · exact ht.imp Stretch.holds_of_mem fun ht => .inr (offset_le_of_mem_tokensFrom ht)
    · rcases ht with ht | ht
      · have := stop_le_of_mem_tokensFrom ht
        have := le_start_of_mem_stretchesFrom hr
        exact .inr (.inl (by omega))
      · exact ih (Nat.le_refl _) t ht r hr

/-- The stretches are those of the spans that the map gets. -/
theorem Protects.forall₂_cuts (h : Protects p s q guarded) (a : List Char) (hcursor : cursor ≤ byteLength a) :
    ∃ spans, q.spans = p.spans ++ spans ∧
      List.Forall₂ (Stretch.Cuts (a ++ s)) (stretchesFrom cursor (tokensFrom (byteLength a) s)) spans := by
  induction h generalizing cursor a with
  | nil =>
    refine ⟨[], by simp, ?_⟩
    rw [tokensFrom]
    exact .nil
  | @token p q c s guarded kind k hm _ hword _ ih =>
    have hs : a ++ c :: s = a ++ c :: s.take k ++ s.drop k := by simp
    rw [stretchesFrom_token hm hword, hs, ← byteLength_append]
    refine ih _ ?_
    rw [byteLength_append]
    omega
  | @span p q name tail rest guarded hname htail hsilent _ ih =>
    obtain ⟨spans, hspans, hcuts⟩ := ih (a ++ ('\\' :: name ++ tail)) (Nat.le_refl _)
    rw [stretchesFrom_span hname htail hsilent hcursor, ← byteLength_append, ← List.append_assoc,
      ← List.append_assoc, List.append_assoc a]
    refine ⟨('\\' :: name ++ tail) :: spans, by rw [hspans]; simp [Placeholders.add], .cons ?_ hcuts⟩
    exact ⟨a, rest, by simp, rfl, rfl⟩

/-! ## Tokens that a backslash starts -/

def Token.isSlashed (t : Token) : Bool := t.text.head? == some '\\'

/-- The tokens that a backslash starts: commands, line breaks, and a backslash at the end of the text. -/
def slashTokens (offset : Nat) (s : List Char) : List Token := (tokensFrom offset s).filter Token.isSlashed

theorem slashTokens_munch (hm : munch c s = (kind, k)) (offset : Nat) :
    slashTokens offset (c :: s) = (if c = '\\' then [⟨kind, c :: s.take k, offset⟩] else []) ++
      slashTokens (offset + byteLength (c :: s.take k)) (s.drop k) := by
  rw [slashTokens, tokensFrom_cons hm, List.filter_cons]
  by_cases hslash : c = '\\'
  · simp [Token.isSlashed, slashTokens, hslash]
  · simp [Token.isSlashed, slashTokens, hslash]

/-- A run of characters that mean nothing makes one token. -/
theorem slashTokens_run {r : Char → Bool}
    (hrun : ∀ c, r c = true → isSpecial c = false ∧ ∀ s, munch c s = (kind, (s.takeWhile r).length)) (offset : Nat)
    (s : List Char) :
    slashTokens offset s = slashTokens (offset + byteLength (s.takeWhile r)) (s.dropWhile r) := by
  cases s with
  | nil => rfl
  | cons c s =>
    by_cases hc : r c = true
    · obtain ⟨hspecial, hmunch⟩ := hrun c hc
      rw [slashTokens_munch (hmunch s), if_neg (not_isSpecial_iff.1 hspecial).1, List.nil_append,
        take_length_takeWhile, drop_length_takeWhile, List.takeWhile_cons_of_pos hc, List.dropWhile_cons_of_pos hc]
    · rw [List.takeWhile_cons_of_neg hc, List.dropWhile_cons_of_neg hc]
      rfl

theorem slashTokens_char (hslash : c ≠ '\\') (hpercent : c ≠ '%') (offset : Nat) (s : List Char) :
    slashTokens offset (c :: s) = slashTokens (offset + c.utf8Size) s := by
  rcases munch_cases hslash hpercent with ⟨kind, -, hmunch⟩ | ⟨-, r, kind, -, hc, hrun⟩
  · rw [slashTokens_munch (hmunch s), if_neg hslash]
    simp
  · rw [slashTokens_run hrun offset (c :: s), slashTokens_run hrun _ s, List.takeWhile_cons_of_pos hc,
      List.dropWhile_cons_of_pos hc, byteLength_cons, Nat.add_assoc]

theorem slashTokens_plain (hx : ∀ c ∈ x, c ≠ '\\' ∧ c ≠ '%') (offset : Nat) (y : List Char) :
    slashTokens offset (x ++ y) = slashTokens (offset + byteLength x) y := by
  induction x generalizing offset with
  | nil => rfl
  | cons c x ih =>
    obtain ⟨hc, hx⟩ := List.forall_mem_cons.1 hx
    rw [List.cons_append, slashTokens_char hc.1 hc.2, ih hx, byteLength_cons, Nat.add_assoc]

/-- A token that is no command of letters does not grow when the text behind it changes, unless that starts
there. -/
theorem slashTokens_token (hm : munch c s = (kind, k)) (hkind : kind ≠ .comment)
    (hword : isWordCommand kind (c :: s.take k) = false) (hend : s.drop k = [] → y = []) (offset : Nat) :
    slashTokens offset (c :: s.take k ++ y) = (if c = '\\' then [⟨kind, c :: s.take k, offset⟩] else []) ++
      slashTokens (offset + byteLength (c :: s.take k)) y := by
  by_cases hslash : c = '\\'
  · subst hslash
    rcases (munch_slash_cases hm).2 with ⟨rfl, rfl⟩ | ⟨d, t, rfl, hd, rfl⟩ | ⟨name, t, rfl, hname, rfl⟩
    · obtain rfl := hend rfl
      exact slashTokens_munch hm offset
    · have hmunch : munch '\\' (d :: y) = (kind, 1) := by
        rw [← hm, munch, munch, if_pos rfl, if_pos rfl, afterBackslash, afterBackslash, hd]
        split <;> rfl
      exact slashTokens_munch hmunch offset
    · have hcommand := munch_word hname.ne_nil hname.letters hname.behind
      obtain ⟨rfl, -⟩ := Prod.mk.inj (hm.symm.trans hcommand)
      rw [List.take_left, hname.isWordCommand] at hword
      cases hword
  · rw [if_neg hslash, List.nil_append]
    exact slashTokens_plain (munch_chars hm hslash hkind) offset y

theorem slashTokens_placeholder (n offset : Nat) (y : List Char) :
    slashTokens offset (placeholder n ++ y) = slashTokens (offset + byteLength (placeholder n)) y := by
  refine slashTokens_plain (fun c hc => ?_) offset y
  constructor <;> (rintro rfl; exact absurd (isTokenChar_of_mem_placeholder hc) (by decide))

/-! ## The tokens of the protected text -/

/-- Both tokens are the same, and they stand at the same place: with the spans of the map back in, the
protected text in front of one and from it on is the text in front of the other and from it on. -/
structure SamePlace (p : Placeholders) (s guarded : List Char) (t t' : Token) : Prop where
  kind_eq : t'.kind = t.kind
  text_eq : t'.text = t.text
  place : ∃ a b a' b', s = a ++ b ∧ byteLength a = t.offset ∧ guarded = a' ++ b' ∧ byteLength a' = t'.offset ∧
    p.restore a' = a ∧ p.restore b' = b

theorem Protects.eq_nil (h : Protects p [] q guarded) : guarded = [] := by
  generalize hs : ([] : List Char) = s at h
  cases h with
  | nil => rfl
  | token => cases hs
  | span => cases hs

/-- **Outside of the spans** the lexer finds the tokens of the text in what is written for it, and in that it
finds no others that a backslash starts. -/
theorem Protects.forall₂_samePlace (h : Protects p s q guarded) {a a' : List Char} (ha : q.Denotes a' a)
    (hmark : hasMark (a ++ s) = false) (hcursor : cursor ≤ byteLength a) :
    List.Forall₂ (SamePlace q (a ++ s) (a' ++ guarded))
      ((slashTokens (byteLength a) s).filter fun t =>
        IsOutside (stretchesFrom cursor (tokensFrom (byteLength a) s)) t)
      (slashTokens (byteLength a') guarded) := by
  -- `a` and `a'` are what stands in front, and they grow by the token or by the span and its placeholder
  induction h generalizing cursor a a' with
  | nil =>
    rw [slashTokens, slashTokens, tokensFrom, tokensFrom]
    exact .nil
  | @token p q c s guarded kind k hm hkind hword hrest ih =>
    have hs : a ++ c :: s = a ++ c :: s.take k ++ s.drop k := by simp
    have hguarded : a' ++ (c :: s.take k ++ guarded) = a' ++ c :: s.take k ++ guarded := by simp
    have hall : q.Denotes (c :: s.take k ++ guarded) (c :: s) := (Protects.token hm hkind hword hrest).denotes
    have hend : s.drop k = [] → guarded = [] := fun hnil => (hnil ▸ hrest).eq_nil
    have hcursor' : cursor ≤ byteLength (a ++ c :: s.take k) := by
      rw [byteLength_append]
      omega
    have hbehind := ih (ha.append (q.denotes_chars (c :: s.take k))) (hs ▸ hmark) hcursor'
    rw [← hs, ← hguarded, byteLength_append a, byteLength_append a'] at hbehind
    rw [stretchesFrom_token hm hword, slashTokens_munch hm, slashTokens_token hm hkind hword hend, List.filter_append]
    by_cases hslash : c = '\\'
    · have houtside : ∀ r ∈ stretchesFrom cursor (tokensFrom (byteLength a + byteLength (c :: s.take k)) (s.drop k)),
          r.Misses ⟨kind, c :: s.take k, byteLength a⟩ := fun r hr => .inl (le_start_of_mem_stretchesFrom hr)
      rw [if_pos hslash, if_pos hslash, List.filter_singleton, decide_eq_true (p := IsOutside _ _) houtside]
      rw [hasMark_append, Bool.or_eq_false_iff] at hmark
      exact .cons ⟨rfl, rfl, a, c :: s, a', _, rfl, rfl, rfl, rfl, ha.restore_eq hmark.1, hall.restore_eq hmark.2⟩
        hbehind
    · rw [if_neg hslash, if_neg hslash]
      exact hbehind
  | @span p q name tail rest guarded hname htail hsilent hrest ih =>
    have hs : a ++ ('\\' :: name ++ (tail ++ rest)) = a ++ ('\\' :: name ++ tail) ++ rest := by simp
    have hspan := (Placeholders.denotes_add p ('\\' :: name ++ tail)).mono hrest.prefix_spans
    have hbehind := ih (ha.append hspan) (hs ▸ hmark) (Nat.le_refl _)
    rw [← hs, List.append_assoc a', byteLength_append a, byteLength_append a'] at hbehind
    rw [slashTokens_placeholder, stretchesFrom_span hname htail hsilent hcursor, slashTokens,
      tokensFrom_span hname htail hsilent, List.filter_append, filter_isOutside_cons]
    · exact hbehind
    · intro t ht
      have ht := List.mem_of_mem_filter ht
      have := Stretch.holds_of_mem ht
      have := offset_lt_stop_of_mem_tokensFrom ht
      simp only [Stretch.Holds, Stretch.Misses] at *
      omega
    · exact fun t ht => .inr (offset_le_of_mem_tokensFrom (List.mem_of_mem_filter ht))

/-- In what is written for the text no token is a command made of letters. -/
theorem Protects.not_isWordCommand (h : Protects p s q guarded) (offset : Nat) :
    ∀ t ∈ slashTokens offset guarded, isWordCommand t.kind t.text = false := by
  induction h generalizing offset with
  | nil =>
    rw [slashTokens, tokensFrom]
    exact fun t ht => absurd ht List.not_mem_nil
  | @token p q c s guarded kind k hm hkind hword hrest ih =>
    intro t ht
    rw [slashTokens_token hm hkind hword fun hnil => (hnil ▸ hrest).eq_nil, List.mem_append] at ht
    rcases ht with ht | ht
    · split at ht
      · obtain rfl := List.mem_singleton.1 ht
        exact hword
      · cases ht
    · exact ih _ t ht
  | span _ _ _ _ ih =>
    rw [slashTokens_placeholder]
    exact ih _

/-- Commands and line breaks are tokens that a backslash starts. -/
theorem isSlashed_of_mem_tokensFrom (ht : t ∈ tokensFrom offset s) (hkind : t.kind = .command ∨ t.kind = .lineBreak) :
    t.isSlashed = true := by
  obtain ⟨a, c, b, k, -, -, hm, htext⟩ := exists_munch_of_mem_tokensFrom ht
  have hfits := fits_munch hm
  rw [← htext] at hfits
  rw [Token.isSlashed]
  rcases hkind with hkind | hkind
  · rw [hkind] at hfits
    rcases hfits with ⟨name, hname, -⟩ | ⟨d, hd, -⟩
    · rw [hname]
      rfl
    · rw [hd]
      rfl
  · rw [hkind] at hfits
    rw [show t.text = ['\\', '\\'] from hfits]
    rfl

/-- The line breaks of a text. -/
def lineBreaks (s : List Char) : List Token := (tokens s).filter fun t => t.kind = .lineBreak

theorem lineBreaks_eq (s : List Char) : lineBreaks s = (slashTokens 0 s).filter fun t => t.kind = .lineBreak := by
  rw [lineBreaks, slashTokens, List.filter_filter]
  refine List.filter_congr fun t ht => ?_
  by_cases hkind : t.kind = .lineBreak
  · rw [isSlashed_of_mem_tokensFrom ht (.inr hkind), Bool.and_true]
  · simp [hkind]

/-- **Protecting hides every command** made of letters. Whatever the map holds, in a text without placeholder
characters and without comments each token lies in one of the spans that the map gets or outside of all of
them. In the protected text the lexer finds no command made of letters, and the line breaks that it finds are
those of the text outside of the spans, one for one and in order. -/
theorem Placeholders.tokens_protect (p : Placeholders) (s : List Char) (hmark : hasMark s = false)
    (hcomment : ∀ t ∈ tokens s, t.kind ≠ .comment) :
    (∃ spans, (p.protect s).1.spans = p.spans ++ spans ∧ List.Forall₂ (Stretch.Cuts s) (stretches s) spans) ∧
      (∀ t ∈ tokens s, ∀ r ∈ stretches s, r.Holds t ∨ r.Misses t) ∧
      (∀ t ∈ tokens (p.protect s).2, isWordCommand t.kind t.text = false) ∧
      List.Forall₂ (SamePlace (p.protect s).1 s (p.protect s).2)
        ((lineBreaks s).filter fun t => IsOutside (stretches s) t) (lineBreaks (p.protect s).2) := by
  have h := protects_protect (silent_of_tokensFrom hcomment) p
  refine ⟨h.forall₂_cuts [] (Nat.zero_le _), h.holds_or_misses (Nat.zero_le _), fun t ht => ?_, ?_⟩
  · by_contra hword
    have hkind : t.kind = .command := by
      simp only [isWordCommand, Bool.not_eq_false, Bool.and_eq_true, beq_iff_eq] at hword
      exact hword.1.1
    exact hword (h.not_isWordCommand 0 t (List.mem_filter.2 ⟨ht, isSlashed_of_mem_tokensFrom ht (.inl hkind)⟩))
  · have hall : List.Forall₂ (SamePlace (p.protect s).1 s (p.protect s).2)
        ((slashTokens 0 s).filter fun t => IsOutside (stretches s) t) (slashTokens 0 (p.protect s).2) :=
      h.forall₂_samePlace (Placeholders.denotes_chars _ []) hmark (Nat.zero_le _)
    rw [lineBreaks_eq, lineBreaks_eq, List.filter_comm]
    exact List.rel_filter (fun t t' htt' => by simp [htt'.kind_eq]) hall

/-- Line breaks between spans, in an argument, and in an environment that is one span with the command in it. -/
theorem Placeholders.tokens_protect_nested :
    let s := "a\\\\b \\frac\x7bx\\\\y\x7d\x7b2\x7d\\\\ \\begin\x7bm\x7d\\alpha\\\\\\end\x7bm\x7d\\\\c".toList
    let guarded := (empty.protect s).2
    hasMark s = false ∧ (∀ t ∈ tokens s, t.kind ≠ .comment) ∧ stretches s = [⟨5, 19⟩, ⟨22, 46⟩] ∧
      (lineBreaks s).map Token.offset = [1, 12, 19, 37, 46] ∧
      (∀ t ∈ tokens guarded, isWordCommand t.kind t.text = false) ∧
      ∃ t₁ t₂ t₃, lineBreaks guarded = [t₁, t₂, t₃] ∧
        SamePlace (empty.protect s).1 s guarded ⟨.lineBreak, lineBreak, 1⟩ t₁ ∧
        SamePlace (empty.protect s).1 s guarded ⟨.lineBreak, lineBreak, 19⟩ t₂ ∧
        SamePlace (empty.protect s).1 s guarded ⟨.lineBreak, lineBreak, 46⟩ t₃ := by
  intro s guarded
  have hmark : hasMark s = false := by decide
  have hcomment : ∀ t ∈ tokens s, t.kind ≠ .comment := by decide +kernel
  have houtside : ((lineBreaks s).filter fun t => IsOutside (stretches s) t) =
      [⟨.lineBreak, lineBreak, 1⟩, ⟨.lineBreak, lineBreak, 19⟩, ⟨.lineBreak, lineBreak, 46⟩] := by decide +kernel
  obtain ⟨-, -, hhidden, hbreaks⟩ := empty.tokens_protect s hmark hcomment
  refine ⟨hmark, hcomment, by decide +kernel, by decide +kernel, hhidden, ?_⟩
  rw [houtside] at hbreaks
  generalize lineBreaks (empty.protect s).2 = found at hbreaks ⊢
  obtain _ | ⟨h₁, _ | ⟨h₂, _ | ⟨h₃, _ | _⟩⟩⟩ := hbreaks
  exact ⟨_, _, _, rfl, h₁, h₂, h₃⟩

end MathMarkup.Tex
