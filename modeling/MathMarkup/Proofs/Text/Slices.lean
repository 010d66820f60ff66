import MathMarkup.Text.Basic

/-!
# Slices of a text

A byte offset is a boundary of a text when no character reaches over it (`IsBoundary`), and between two boundaries
stands a slice (`slice?`). A cut at a boundary is told by the bytes in front of it (`dropBytes?_eq_some_iff`,
`slice?_eq_some_iff`).
-/

namespace MathMarkup.Text

variable {s t a b m : List Char} {n start stop : Nat}

/-! ## Bytes -/

theorem byteLength_cons_pos (c : Char) (s : List Char) : 0 < byteLength (c :: s) := by
  have := c.utf8Size_pos
  rw [byteLength_cons]
  omega

theorem byteLength_pos (h : s ≠ []) : 0 < byteLength s := by
  obtain ⟨c, s, rfl⟩ := List.exists_cons_of_ne_nil h
  exact byteLength_cons_pos c s

theorem eq_nil_of_byteLength_eq_zero (h : byteLength s = 0) : s = [] := by
  refine Decidable.byContradiction fun hne => ?_
  have := byteLength_pos hne
  omega

/-- A place in a text is told by the bytes in front of it. -/
theorem eq_of_byteLength_eq (h : a ++ s = b ++ t) (hbytes : byteLength a = byteLength b) : a = b ∧ s = t := by
  have hnil : ∀ x y : List Char, byteLength x = byteLength (x ++ y) → y = [] := by
    intro x y hxy
    rw [byteLength_append] at hxy
    exact eq_nil_of_byteLength_eq_zero (by omega)
  rcases List.append_eq_append_iff.1 h with ⟨x, rfl, rfl⟩ | ⟨x, rfl, rfl⟩
  · obtain rfl := hnil a x hbytes
    exact ⟨(List.append_nil a).symm, rfl⟩
  · obtain rfl := hnil b x hbytes.symm
    exact ⟨List.append_nil b, rfl⟩

theorem byteLength_le_of_isPrefix (h : a <+: b) : byteLength a ≤ byteLength b := by
  obtain ⟨t, rfl⟩ := h
  rw [byteLength_append]
  omega

/-! ## Cuts -/

@[simp] theorem splitAtByte?_append (a b : List Char) : splitAtByte? (a ++ b) (byteLength a) = some (a, b) := by
  induction a with
  | nil => cases b <;> rfl
  | cons c a ih =>
    obtain ⟨n, hn⟩ : ∃ n, byteLength (c :: a) = n + 1 := ⟨_, (Nat.sub_add_cancel (byteLength_cons_pos c a)).symm⟩
    have hrest : n + 1 - c.utf8Size = byteLength a := by
      rw [← hn, byteLength_cons, Nat.add_sub_cancel_left]
    have hle : c.utf8Size ≤ n + 1 := by
      rw [← hn, byteLength_cons]
      exact Nat.le_add_right _ _
    rw [hn, List.cons_append, splitAtByte?, if_pos hle, hrest, ih]
    rfl

theorem splitAtByte?_eq_some_iff : splitAtByte? s n = some (a, b) ↔ s = a ++ b ∧ byteLength a = n := by
  constructor
  · exact append_of_splitAtByte?
  · rintro ⟨rfl, rfl⟩
    exact splitAtByte?_append a b

@[simp] theorem dropBytes?_append (a b : List Char) : dropBytes? (a ++ b) (byteLength a) = some b := by
  rw [dropBytes?, splitAtByte?_append, Option.map_some]

theorem dropBytes?_eq_some_iff : dropBytes? s n = some t ↔ ∃ a, s = a ++ t ∧ byteLength a = n := by
  simp [dropBytes?, splitAtByte?_eq_some_iff]

/-- Behind a beginning of the text that is left, less text is left. -/
theorem dropBytes?_add (h : dropBytes? s n = some (m ++ t)) : dropBytes? s (n + byteLength m) = some t := by
  obtain ⟨a, rfl, rfl⟩ := dropBytes?_eq_some_iff.1 h
  exact dropBytes?_eq_some_iff.2 ⟨a ++ m, (List.append_assoc a m t).symm, byteLength_append a m⟩

/-! ## Boundaries and slices -/

/-- No character reaches over byte `n`, and the text does not end in front of it. -/
def IsBoundary (s : List Char) (n : Nat) : Prop := ∃ a b, s = a ++ b ∧ byteLength a = n

theorem isBoundary_iff : IsBoundary s n ↔ ∃ t, dropBytes? s n = some t := by
  simp only [dropBytes?_eq_some_iff]
  exact exists_comm

theorem IsBoundary.le (h : IsBoundary s n) : n ≤ byteLength s := by
  obtain ⟨a, b, rfl, rfl⟩ := h
  exact byteLength_le_of_isPrefix (List.prefix_append a b)

instance : Decidable (IsBoundary s n) :=
  decidable_of_iff ((dropBytes? s n).isSome = true) (by rw [isBoundary_iff, Option.isSome_iff_exists])

/-- The text from byte `start` up to byte `stop`; `none` when they are out of order or one of them is no boundary. -/
def slice? (s : List Char) (start stop : Nat) : Option (List Char) :=
  if start ≤ stop then do
    let rest ← dropBytes? s start
    let (m, _) ← splitAtByte? rest (stop - start)
    return m
  else none

theorem slice?_eq_some_iff : slice? s start stop = some m ↔
    ∃ a b, s = a ++ (m ++ b) ∧ byteLength a = start ∧ start + byteLength m = stop := by
  constructor
  · intro h
    obtain ⟨hle, h⟩ := Option.ite_none_right_eq_some.1 h
    simp only [Option.bind_eq_bind, Option.pure_def, Option.bind_eq_some_iff, Prod.exists, Option.some.injEq,
      dropBytes?_eq_some_iff, splitAtByte?_eq_some_iff] at h
    obtain ⟨rest, ⟨a, rfl, ha⟩, m', b, ⟨rfl, hm⟩, rfl⟩ := h
    exact ⟨a, b, rfl, ha, by omega⟩
  · rintro ⟨a, b, rfl, rfl, rfl⟩
    rw [slice?, if_pos (Nat.le_add_right _ _), Nat.add_sub_cancel_left, dropBytes?_append]
    simp

theorem slice?_append (a m b : List Char) :
    slice? (a ++ (m ++ b)) (byteLength a) (byteLength a + byteLength m) = some m :=
  slice?_eq_some_iff.2 ⟨a, b, rfl, rfl, rfl⟩

theorem slice?_of_dropBytes? (h : dropBytes? s start = some (m ++ t)) :
    slice? s start (start + byteLength m) = some m := by
  obtain ⟨a, ha, hstart⟩ := dropBytes?_eq_some_iff.1 h
  exact slice?_eq_some_iff.2 ⟨a, t, ha, hstart, rfl⟩

end MathMarkup.Text
