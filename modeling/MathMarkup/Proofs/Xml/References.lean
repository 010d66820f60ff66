import Mathlib.Data.List.Basic
import MathMarkup.Proofs.Text.Search
import MathMarkup.Xml.Escape

/-!
# References and the way back

A text is written with references for some of the escapable characters (`refer`), character by character, which is
the same as replacing one character after the other with the ampersand first (`escapeText_eq_replaceAll`,
`escapeAttribute_eq_replaceAll`). Replacing all references to one of these characters gives back the text in which
only the others are references (`replaceAll_reference`), as long as ampersands are among them: then an ampersand that
is read is the start of a reference, and what looks like one in the text itself is left alone. So the ampersand is the
last one to be replaced.

Main theorem: `unescape_escape`.
-/

namespace MathMarkup.Xml

open Text

variable {name s t coded : List Char} {c x : Char}

/-! ## Texts with references -/

/-- The characters that have a reference. -/
def escapable : List Char := ['"', '>', '<', '&']

theorem mem_escapable_iff : c ∈ escapable ↔ c = '"' ∨ c = '>' ∨ c = '<' ∨ c = '&' := by simp [escapable]

/-- How the reference to a character is called. -/
def referenceName : Char → List Char
  | '&' => "amp".toList
  | '<' => "lt".toList
  | '>' => "gt".toList
  | '"' => "quot".toList
  | _ => []

/-- The reference with a name. -/
def referenceTo (name : List Char) : List Char := '&' :: (name ++ [';'])

/-- The text with references for the characters of `coded`. -/
def refer (coded s : List Char) : List Char :=
  s.flatMap fun c => if c ∈ coded then referenceTo (referenceName c) else [c]

theorem refer_nil (s : List Char) : refer [] s = s := by simp [refer]

/-- Of the escapable characters only the ampersand stands in references. -/
theorem notMem_reference (hx : x ∈ ['"', '>', '<']) (hc : c ∈ escapable) : x ∉ referenceTo (referenceName c) := by
  have hx' : x = '"' ∨ x = '>' ∨ x = '<' := by simpa using hx
  rcases hx' with rfl | rfl | rfl <;> rcases mem_escapable_iff.1 hc with rfl | rfl | rfl | rfl <;> decide

/-- References for one more character, which does not stand in a reference itself. -/
theorem replaceAll_refer (hx : ∀ c ∈ coded, x ∉ referenceTo (referenceName c)) (s : List Char) :
    replaceAll [x] (referenceTo (referenceName x)) (refer coded s) = refer (x :: coded) s := by
  rw [replaceAll_singleton, refer, List.flatMap_assoc]
  refine List.flatMap_congr fun c _ => ?_
  by_cases hc : c ∈ coded
  · have hkeep : ∀ d ∈ referenceTo (referenceName c),
        (if d = x then referenceTo (referenceName x) else [d]) = [d] := by
      intro d hd
      exact if_neg fun (hdx : d = x) => hx c hc (hdx ▸ hd)
    rw [if_pos hc, if_pos (List.mem_cons_of_mem x hc), List.flatMap_congr hkeep, List.flatMap_singleton']
  · rw [if_neg hc, List.flatMap_singleton]
    by_cases hcx : c = x
    · rw [if_pos hcx, if_pos (hcx ▸ List.mem_cons_self), hcx]
    · rw [if_neg hcx, if_neg (by simp [hcx, hc])]

/-! ## Escaping -/

theorem escapeTextChar_eq (c : Char) : escapeTextChar c =
    if c ∈ ['>', '<', '&'] then referenceTo (referenceName c) else [c] := by
  unfold escapeTextChar
  split
  · rfl
  · rfl
  · rfl
  · rename_i hamp hless hgreater
    refine (if_neg fun hmem => ?_).symm
    simp only [List.mem_cons, List.not_mem_nil, or_false] at hmem
    exact hmem.elim hgreater fun hmem => hmem.elim hless hamp

theorem escapeAttributeChar_eq (c : Char) : escapeAttributeChar c =
    if c ∈ escapable then referenceTo (referenceName c) else [c] := by
  by_cases hc : c = '"'
  · rw [hc]
    rfl
  · rw [escapeAttributeChar, if_neg hc, escapeTextChar_eq]
    exact if_congr (by simp [escapable, hc]) rfl rfl

theorem escapeText_eq_refer (s : List Char) : escapeText s = refer ['>', '<', '&'] s :=
  List.flatMap_congr fun c _ => escapeTextChar_eq c

theorem escapeAttribute_eq_refer (s : List Char) : escapeAttribute s = refer escapable s :=
  List.flatMap_congr fun c _ => escapeAttributeChar_eq c

/-- Character data is escaped one character after the other, the ampersand first. -/
theorem escapeText_eq_replaceAll (s : List Char) : escapeText s =
    replaceAll ['>'] "&gt;".toList (replaceAll ['<'] "&lt;".toList (replaceAll ['&'] "&amp;".toList s)) := by
  have hsubset : ['<', '&'] ⊆ escapable := by decide
  have hless : ∀ c ∈ ['&'], '<' ∉ referenceTo (referenceName c) := fun c hc =>
    notMem_reference (by decide) (hsubset (List.mem_cons_of_mem '<' hc))
  have hgreater : ∀ c ∈ ['<', '&'], '>' ∉ referenceTo (referenceName c) := fun c hc =>
    notMem_reference (by decide) (hsubset hc)
  have hamp : replaceAll ['&'] "&amp;".toList s = refer ['&'] s := by
    rw [← replaceAll_refer (by simp), refer_nil]
    rfl
  rw [escapeText_eq_refer, ← replaceAll_refer hgreater, ← replaceAll_refer hless, ← hamp]
  rfl

theorem escapeAttribute_eq_replaceAll (s : List Char) :
    escapeAttribute s = replaceAll ['"'] "&quot;".toList (escapeText s) := by
  have hsubset : ['>', '<', '&'] ⊆ escapable := by decide
  have hquote : ∀ c ∈ ['>', '<', '&'], '"' ∉ referenceTo (referenceName c) := fun c hc =>
    notMem_reference (by decide) (hsubset hc)
  rw [escapeAttribute_eq_refer, escapable, ← replaceAll_refer hquote, escapeText_eq_refer]
  rfl

/-! ## Reading references -/

theorem referenceTo_ne_nil (name : List Char) : referenceTo name ≠ [] := List.cons_ne_nil _ _

/-- The names of references are words without ampersands and semicolons. -/
def IsName (name : List Char) : Prop := '&' ∉ name ∧ ';' ∉ name

instance : Decidable (IsName name) := inferInstanceAs (Decidable (_ ∧ _))

theorem isName_referenceName (hc : c ∈ escapable) : IsName (referenceName c) := by
  rcases mem_escapable_iff.1 hc with rfl | rfl | rfl | rfl <;> decide

theorem referenceName_injective (hc : c ∈ escapable) (hx : x ∈ escapable)
    (h : referenceName c = referenceName x) : c = x := by
  rcases mem_escapable_iff.1 hc with rfl | rfl | rfl | rfl <;>
    rcases mem_escapable_iff.1 hx with rfl | rfl | rfl | rfl <;> first | rfl | exact absurd h (by decide)

/-- A reference starts with its ampersand, and nowhere inside of another one. -/
theorem referenceTo_prefix_iff {other : List Char} (hname : IsName name) (hother : IsName other) {x y : List Char}
    (hxy : referenceTo other = x ++ y) (hy : y ≠ []) : referenceTo name <+: y ++ t ↔ x = [] ∧ other = name := by
  constructor
  · rintro ⟨rest, hrest⟩
    cases x with
    | nil =>
      rw [← List.nil_append y, ← hxy, referenceTo, referenceTo, List.cons_append, List.cons_append,
        List.append_assoc, List.append_assoc] at hrest
      exact ⟨rfl, (eq_of_append_cons hname.2 hother.2 (List.cons.inj hrest).2).1.symm⟩
    | cons d x =>
      have htail : y ⊆ other ++ [';'] := by
        rw [(List.cons.inj hxy).2]
        exact List.subset_append_right x y
      obtain ⟨e, y, rfl⟩ := List.exists_cons_of_ne_nil hy
      have hamp : '&' ∈ other ++ [';'] := (List.cons.inj hrest).1 ▸ htail List.mem_cons_self
      exact absurd hamp (by simp [hother.1])
  · rintro ⟨rfl, rfl⟩
    rw [List.nil_append] at hxy
    exact hxy ▸ List.prefix_append _ t

/-- Replacing the references with one name, where every ampersand is written as a reference. -/
theorem replaceAll_referenceTo (hname : IsName name) (hamp : '&' ∈ coded) (hcoded : coded ⊆ escapable)
    (new s : List Char) : replaceAll (referenceTo name) new (refer coded s) =
      s.flatMap fun c =>
        if c ∈ coded then if referenceName c = name then new else referenceTo (referenceName c) else [c] := by
  induction s with
  | nil => exact replaceAll_nil (referenceTo_ne_nil name) new
  | cons c s ih =>
    rw [refer, List.flatMap_cons, List.flatMap_cons, ← ih]
    by_cases hc : c ∈ coded
    · rw [if_pos hc, if_pos hc]
      by_cases heq : referenceName c = name
      · rw [if_pos heq, heq]
        exact replaceAll_word_append (referenceTo_ne_nil name) new _
      · rw [if_neg heq]
        refine replaceAll_append (referenceTo_ne_nil name) (fun x y hxy hy hpre => heq ?_) new
        exact ((referenceTo_prefix_iff hname (isName_referenceName (hcoded hc)) hxy hy).1 hpre).2
    · rw [if_neg hc, if_neg hc]
      refine replaceAll_append (referenceTo_ne_nil name) (fun x y hxy hy hpre => hc ?_) new
      obtain ⟨rfl, rfl⟩ : x = [] ∧ y = [c] := by simpa [List.singleton_eq_append_iff, hy] using hxy
      exact (List.cons_prefix_cons.1 hpre).1 ▸ hamp

/-- The references to a character are replaced by the character. -/
theorem replaceAll_reference (hx : x ∈ escapable) (hamp : '&' ∈ coded) (hcoded : coded ⊆ escapable)
    (s : List Char) :
    replaceAll (referenceTo (referenceName x)) [x] (refer coded s) = refer (coded.filter (· ≠ x)) s := by
  rw [replaceAll_referenceTo (isName_referenceName hx) hamp hcoded]
  refine List.flatMap_congr fun c _ => ?_
  by_cases hc : c ∈ coded
  · by_cases heq : c = x
    · simp [heq]
    · have hname : referenceName c ≠ referenceName x := fun h =>
        heq (referenceName_injective (hcoded hc) hx h)
      simp [hc, heq, hname]
  · simp [hc]

/-- References that are not written are not found. -/
theorem replaceAll_foreign (hname : IsName name) (hforeign : ∀ c ∈ escapable, referenceName c ≠ name)
    (hamp : '&' ∈ coded) (hcoded : coded ⊆ escapable) (new s : List Char) :
    replaceAll (referenceTo name) new (refer coded s) = refer coded s := by
  rw [replaceAll_referenceTo hname hamp hcoded]
  refine List.flatMap_congr fun c _ => ?_
  by_cases hc : c ∈ coded
  · simp [hc, hforeign c (hcoded hc)]
  · simp [hc]

/-! ## The way back -/

/-- A text with references for ampersands, and for any others of the escapable characters. -/
theorem unescape_refer (hamp : '&' ∈ coded) (hcoded : coded ⊆ escapable) (s : List Char) :
    unescape (refer coded s) = s := by
  have hfilter : ∀ {coded : List Char} {x : Char}, x ≠ '&' → '&' ∈ coded ∧ coded ⊆ escapable →
      '&' ∈ coded.filter (· ≠ x) ∧ coded.filter (· ≠ x) ⊆ escapable := by
    rintro coded x hx ⟨hamp, hcoded⟩
    exact ⟨List.mem_filter.2 ⟨hamp, by simpa using hx.symm⟩, List.Subset.trans (List.filter_subset_self _) hcoded⟩
  have hless := hfilter (x := '<') (by decide) ⟨hamp, hcoded⟩
  have hgreater := hfilter (x := '>') (by decide) hless
  have hquote := hfilter (x := '"') (by decide) hgreater
  have hforeign : ∀ c ∈ escapable, referenceName c ≠ "#34".toList := by
    intro c hc
    rcases mem_escapable_iff.1 hc with rfl | rfl | rfl | rfl <;> decide
  have hrest : (((coded.filter (· ≠ '<')).filter (· ≠ '>')).filter (· ≠ '"')).filter (· ≠ '&') = [] := by
    refine List.eq_nil_iff_forall_not_mem.2 fun c hc => ?_
    simp only [List.mem_filter, decide_eq_true_eq] at hc
    have hmem := hcoded hc.1.1.1.1
    simp [escapable, hc] at hmem
  calc unescape (refer coded s)
    _ = replaceAll (referenceTo (referenceName '&')) ['&'] (replaceAll (referenceTo "#34".toList) ['"']
          (replaceAll (referenceTo (referenceName '"')) ['"'] (replaceAll (referenceTo (referenceName '>')) ['>']
            (replaceAll (referenceTo (referenceName '<')) ['<'] (refer coded s))))) := rfl
    _ = refer [] s := by
      rw [replaceAll_reference (by decide) hamp hcoded, replaceAll_reference (by decide) hless.1 hless.2,
        replaceAll_reference (by decide) hgreater.1 hgreater.2,
        replaceAll_foreign (by decide) hforeign hquote.1 hquote.2,
        replaceAll_reference (by decide) hquote.1 hquote.2, hrest]
    _ = s := refer_nil s

/-- **What is escaped is read back.** Character data and attribute values give back every text, whatever references it
seems to hold itself. -/
theorem unescape_escape (s : List Char) : unescape (escapeAttribute s) = s ∧ unescape (escapeText s) = s := by
  constructor
  · rw [escapeAttribute_eq_refer]
    exact unescape_refer (by decide) (List.Subset.refl _) s
  · rw [escapeText_eq_refer]
    exact unescape_refer (by decide) (by decide) s

end MathMarkup.Xml
