import MathMarkup.Proofs.Text.Groups

/-!
# Groups in UTF-8

The end of a brace group can be looked for byte by byte, without reading characters: a backslash takes one byte along,
which may be the first of a longer character, and what is left of that character is passed over, as no byte inside of
a character is a backslash or a brace (`isPlainByte_of_mem_tail`).

Main theorem: `groupEndBytes?_utf8`, the end that is found in the bytes is the end of the group.
-/

namespace MathMarkup.Tex

open Text

variable {s r : List Char} {c : Char} {bs rest : List UInt8} {b : UInt8} {d n : Nat}

/-! ## Bytes of a text -/

/-- The bytes of a text. -/
def utf8 (s : List Char) : List UInt8 := s.flatMap String.utf8EncodeChar

theorem utf8_cons (c : Char) (s : List Char) : utf8 (c :: s) = String.utf8EncodeChar c ++ utf8 s := rfl

theorem length_utf8 (s : List Char) : (utf8 s).length = byteLength s := by
  induction s with
  | nil => rfl
  | cons c s ih => rw [utf8_cons, List.length_append, String.length_utf8EncodeChar, ih, byteLength_cons]

/-- A byte that plays no role for brace groups: not a backslash (92), an opening brace (123) or a closing one (125). -/
def IsPlainByte (b : UInt8) : Prop := b ≠ 92 ∧ b ≠ 123 ∧ b ≠ 125

theorem isPlainByte_of_le (h : 128 ≤ b.toNat) : IsPlainByte b := by
  refine ⟨?_, ?_, ?_⟩ <;> rintro rfl <;> exact absurd h (by decide)

/-- A character is one byte of ASCII, or all of its bytes are beyond ASCII. -/
theorem utf8EncodeChar_cases (c : Char) : c.toNat < 128 ∧ String.utf8EncodeChar c = [UInt8.ofNat c.toNat] ∨
    ∀ b ∈ String.utf8EncodeChar c, 128 ≤ b.toNat := by
  by_cases hascii : c.val.toNat ≤ 127
  · exact Or.inl ⟨Nat.lt_succ_of_le hascii, if_pos hascii⟩
  · refine Or.inr fun b hb => ?_
    simp only [String.utf8EncodeChar, if_neg hascii] at hb
    split at hb
    · simp only [List.mem_cons, List.not_mem_nil, or_false] at hb
      rcases hb with rfl | rfl <;> (rw [UInt8.toNat_ofNat']; omega)
    split at hb
    · simp only [List.mem_cons, List.not_mem_nil, or_false] at hb
      rcases hb with rfl | rfl | rfl <;> (rw [UInt8.toNat_ofNat']; omega)
    · simp only [List.mem_cons, List.not_mem_nil, or_false] at hb
      rcases hb with rfl | rfl | rfl | rfl <;> (rw [UInt8.toNat_ofNat']; omega)

/-- Inside of a character there is no backslash and no brace. -/
theorem isPlainByte_of_mem_tail (hb : b ∈ (String.utf8EncodeChar c).tail) : IsPlainByte b := by
  rcases utf8EncodeChar_cases c with ⟨-, hone⟩ | hhigh
  · rw [hone] at hb
    cases hb
  · exact isPlainByte_of_le (hhigh b (List.mem_of_mem_tail hb))

theorem isPlainByte_of_isPlain (hc : IsPlain c) (hb : b ∈ String.utf8EncodeChar c) : IsPlainByte b := by
  rcases utf8EncodeChar_cases c with ⟨hascii, hone⟩ | hhigh
  · rw [hone, List.mem_singleton] at hb
    have hsame : ∀ e : Char, b = UInt8.ofNat e.toNat → e.toNat < 128 → c = e := by
      intro e he hlt
      have hnat := congrArg UInt8.toNat (hb.symm.trans he)
      rw [UInt8.toNat_ofNat', UInt8.toNat_ofNat'] at hnat
      exact Char.toNat_inj.1 (by omega)
    exact ⟨fun h => hc.1 (hsame '\\' h (by decide)), fun h => hc.2.1 (hsame '{' h (by decide)),
      fun h => hc.2.2 (hsame '}' h (by decide))⟩
  · exact isPlainByte_of_le (hhigh b hb)

theorem exists_utf8EncodeChar_eq (c : Char) : ∃ b bs, String.utf8EncodeChar c = b :: bs := by
  refine List.exists_cons_of_length_pos ?_
  rw [String.length_utf8EncodeChar]
  exact c.utf8Size_pos

/-! ## Scanning bytes -/

/-- How many bytes there are up to the brace that closes `depth` open groups, which is one of them. -/
def scanBytes (depth : Nat) : List UInt8 → Option Nat
  | [] => none
  | b :: bs =>
    if b = 92 then
      match bs with
      | [] => none
      | _ :: bs => (scanBytes depth bs).map (2 + ·)
    else if b = 125 && depth ≤ 1 then some 1
    else
      let depth := if b = 123 then depth + 1 else if b = 125 then depth - 1 else depth
      (scanBytes depth bs).map (1 + ·)

/-- The end of the group that opens at byte `start`, just past its closing brace. -/
def groupEndBytes? (bs : List UInt8) (start : Nat) : Option Nat :=
  match bs.drop start with
  | [] => none
  | b :: rest => if b = 123 then (scanBytes 1 rest).map (start + 1 + ·) else none

theorem scanBytes_plain (hbs : ∀ b ∈ bs, IsPlainByte b) (rest : List UInt8) :
    scanBytes d (bs ++ rest) = (scanBytes d rest).map (bs.length + ·) := by
  induction bs with
  | nil => simp
  | cons b bs ih =>
    obtain ⟨⟨hslash, hopen, hclose⟩, hbs⟩ := List.forall_mem_cons.1 hbs
    rw [List.cons_append, scanBytes.eq_def]
    simp only [hslash, hopen, hclose, ↓reduceIte, decide_false, Bool.false_and, Bool.false_eq_true, ih hbs,
      Option.map_map, List.length_cons]
    exact congrArg (Option.map · _) (funext fun n => by simp only [Function.comp_apply]; omega)

theorem map_byteLength_onFound (o : Option (List Char × List Char)) (x : List Char) :
    ((o.map (onFound x)).map fun p => byteLength p.1) = (o.map fun p => byteLength p.1).map (byteLength x + ·) := by
  cases o <;> simp [onFound]

/-- The bytes of a text close groups where its characters do. -/
theorem scanBytes_utf8 (d : Nat) (s : List Char) :
    scanBytes d (utf8 s) = (closeGroups? d s).map fun p => byteLength p.1 := by
  induction s using escapes_induction generalizing d with
  | nil => rfl
  | slash => rfl
  | escaped c s ih =>
    obtain ⟨b, bs, hbs⟩ := exists_utf8EncodeChar_eq c
    have htail : ∀ b ∈ bs, IsPlainByte b := fun e he => isPlainByte_of_mem_tail (c := c) (by rw [hbs]; exact he)
    have hbytes : utf8 ('\\' :: c :: s) = 92 :: b :: (bs ++ utf8 s) := by
      rw [utf8_cons, utf8_cons, hbs]
      rfl
    have hscan : scanBytes d (92 :: b :: (bs ++ utf8 s)) = (scanBytes d (bs ++ utf8 s)).map (2 + ·) := by
      rw [scanBytes.eq_def]
      rfl
    have hlength : 2 + bs.length = byteLength ['\\', c] := by
      have hsize := String.length_utf8EncodeChar c
      rw [hbs, List.length_cons] at hsize
      have hslash : '\\'.utf8Size = 1 := rfl
      simp only [byteLength_cons, byteLength_nil]
      omega
    rw [hbytes, hscan, scanBytes_plain htail, ih, closeGroups?_escaped, map_byteLength_onFound, Option.map_map,
      ← hlength]
    exact congrArg (Option.map · _) (funext fun n => (Nat.add_assoc 2 bs.length n).symm)
  | char c s hc ih =>
    by_cases hclose : c = '}'
    · subst hclose
      have hbytes : utf8 ('}' :: s) = 125 :: utf8 s := rfl
      rw [hbytes, scanBytes.eq_def]
      by_cases hd : d ≤ 1
      · simp [closeGroups?_last hd, hd]
        rfl
      · rw [closeGroups?_close (by omega), map_byteLength_onFound, ← ih]
        simp [hd]
        rfl
    by_cases hopen : c = '{'
    · subst hopen
      have hbytes : utf8 ('{' :: s) = 123 :: utf8 s := rfl
      rw [hbytes, closeGroups?_open, map_byteLength_onFound, ← ih, scanBytes.eq_def]
      rfl
    · have hplain : IsPlain c := ⟨hc, hopen, hclose⟩
      rw [utf8_cons, scanBytes_plain fun b hb => isPlainByte_of_isPlain hplain hb, ih,
        closeGroups?_cons_of_isPlain hplain, map_byteLength_onFound, String.length_utf8EncodeChar]
      rfl

/-- Only a brace that is a character has the byte of an opening brace. -/
theorem eq_open_of_mem (h : 123 ∈ String.utf8EncodeChar c) : c = '{' := by
  by_cases hslash : c = '\\'
  · exact absurd (hslash ▸ h) (by decide)
  by_cases hclose : c = '}'
  · exact absurd (hclose ▸ h) (by decide)
  refine Decidable.byContradiction fun hopen => ?_
  exact (isPlainByte_of_isPlain ⟨hslash, hopen, hclose⟩ h).2.1 rfl

theorem exists_of_drop_utf8 (h : (utf8 s).drop n = 123 :: rest) :
    ∃ a t, s = a ++ '{' :: t ∧ byteLength a = n ∧ rest = utf8 t := by
  induction s generalizing n with
  | nil => simp [utf8] at h
  | cons c s ih =>
    have hsize := String.length_utf8EncodeChar c
    rw [utf8_cons, List.drop_append, hsize] at h
    rcases Nat.lt_or_ge n c.utf8Size with hn | hn
    · obtain ⟨b, bs, hbs⟩ := List.exists_cons_of_length_pos (l := (String.utf8EncodeChar c).drop n)
        (by rw [List.length_drop]; omega)
      rw [hbs, List.cons_append] at h
      have hmem : 123 ∈ (String.utf8EncodeChar c).drop n := by
        rw [hbs, (List.cons.inj h).1]
        exact List.mem_cons_self
      cases n with
      | zero =>
        obtain rfl := eq_open_of_mem (List.mem_of_mem_drop hmem)
        obtain rfl : [] = bs := (List.cons.inj hbs).2
        exact ⟨[], s, rfl, rfl, (List.cons.inj h).2.symm⟩
      | succ n =>
        rw [← List.drop_tail] at hmem
        exact absurd rfl (isPlainByte_of_mem_tail (List.mem_of_mem_drop hmem)).2.1
    · rw [List.drop_eq_nil_of_le (by omega), List.nil_append] at h
      obtain ⟨a, t, rfl, ha, ht⟩ := ih h
      exact ⟨c :: a, t, rfl, by rw [byteLength_cons]; omega, ht⟩

theorem drop_utf8_append (a s : List Char) : (utf8 (a ++ s)).drop (byteLength a) = utf8 s := by
  have happend : utf8 (a ++ s) = utf8 a ++ utf8 s := List.flatMap_append
  rw [← length_utf8, happend, List.drop_left]

/-! ## The end of a group -/

/-- The group at an opening brace. -/
theorem groupEnd?_open (a s : List Char) : groupEnd? (a ++ '{' :: s) (byteLength a) =
    (closeGroups? 1 s).map fun p => byteLength a + 1 + byteLength p.1 := by
  rw [groupEnd?, dropBytes?_append]
  have hbrace : '{'.utf8Size = 1 := rfl
  cases hclose : closeGroups? 1 s <;> simp [splitGroup?, hclose, hbrace, Nat.add_assoc]

/-- A group that ends starts with a brace. -/
theorem exists_of_groupEnd? {start stop : Nat} (h : groupEnd? s start = some stop) :
    ∃ a t, s = a ++ '{' :: t ∧ byteLength a = start := by
  simp only [groupEnd?, Option.bind_eq_bind, Option.bind_eq_some_iff, dropBytes?_eq_some_iff] at h
  obtain ⟨rest, ⟨a, rfl, ha⟩, ⟨g, r⟩, hgroup, -⟩ := h
  unfold splitGroup? at hgroup
  split at hgroup
  · exact ⟨a, _, rfl, ha⟩
  · cases hgroup

/-- **The end of a group in UTF-8.** Byte by byte it is found where it is in the text, for every offset. -/
theorem groupEndBytes?_utf8 (s : List Char) (start : Nat) : groupEndBytes? (utf8 s) start = groupEnd? s start := by
  by_cases hopen : ∃ a t, s = a ++ '{' :: t ∧ byteLength a = start
  · obtain ⟨a, t, rfl, rfl⟩ := hopen
    have hbytes : utf8 ('{' :: t) = 123 :: utf8 t := rfl
    rw [groupEnd?_open, groupEndBytes?, drop_utf8_append, hbytes]
    simp only [↓reduceIte, scanBytes_utf8, Option.map_map]
    rfl
  · have hnone : groupEnd? s start = none :=
      Option.eq_none_iff_forall_ne_some.2 fun stop h => hopen (exists_of_groupEnd? h)
    rw [hnone, groupEndBytes?]
    split
    · rfl
    · rename_i b rest hdrop
      refine if_neg fun hb => hopen ?_
      rw [hb] at hdrop
      obtain ⟨a, t, hs, ha, -⟩ := exists_of_drop_utf8 hdrop
      exact ⟨a, t, hs, ha⟩

end MathMarkup.Tex
