import MathMarkup.Proofs.Normal.Signs

/-!
# Blocks of signs

A command takes its brace groups along, and the opening of an environment everything up to its end.
`blocksOf` cuts signs into blocks: a sign with what it takes along. Both searches are `closing?`, which
counts open pairs; it looks no further than the end it finds (`closing?_append`), and whether it finds
one depends on the signs of its pair only (`isSome_closing?_filter`).

Main theorem `blocksOf_signsOf`: blocks that take along what they should are the blocks of their signs.
-/

namespace MathMarkup.Tex

open Sign

variable {us vs g r : List Sign} {u opens closes : Sign} {depth : Nat}

/-- The number of open pairs behind a sign that does not end the search. -/
def depthAfter (opens closes : Sign) (depth : Nat) (u : Sign) : Nat :=
  if u = opens then depth + 1 else if u = closes then depth - 1 else depth

/-- The signs up to and with the one that closes `depth` open pairs, and the signs after it. -/
def closing? (opens closes : Sign) (depth : Nat) : List Sign → Option (List Sign × List Sign)
  | [] => none
  | u :: us =>
    if u = closes ∧ depth ≤ 1 then some ([u], us)
    else (closing? opens closes (depthAfter opens closes depth u) us).map fun (g, r) => (u :: g, r)

theorem closing?_cons (hu : ¬ (u = closes ∧ depth ≤ 1)) : closing? opens closes depth (u :: us) =
    (closing? opens closes (depthAfter opens closes depth u) us).map fun (g, r) => (u :: g, r) := by
  rw [closing?, if_neg hu]

/-- Signs outside the pair are passed over. -/
theorem closing?_cons_of_ne (ho : u ≠ opens) (hc : u ≠ closes) : closing? opens closes depth (u :: us) =
    (closing? opens closes depth us).map fun (g, r) => (u :: g, r) := by
  rw [closing?_cons fun h => hc h.1, depthAfter, if_neg ho, if_neg hc]

theorem append_of_closing? (h : closing? opens closes depth us = some (g, r)) : us = g ++ r := by
  induction us generalizing depth g with
  | nil => simp [closing?] at h
  | cons u us ih =>
    rw [closing?] at h
    split at h
    · simp only [Option.some.injEq, Prod.mk.injEq] at h
      obtain ⟨rfl, rfl⟩ := h
      rfl
    · simp only [Option.map_eq_some_iff, Prod.exists, Prod.mk.injEq] at h
      obtain ⟨g', r', h', rfl, rfl⟩ := h
      rw [ih h', List.cons_append]

/-- What is found ends with the closing sign. -/
theorem getLast?_of_closing? (h : closing? opens closes depth us = some (g, r)) :
    g.getLast? = some closes := by
  induction us generalizing depth g with
  | nil => simp [closing?] at h
  | cons u us ih =>
    rw [closing?] at h
    split at h
    · rename_i hu
      simp only [Option.some.injEq, Prod.mk.injEq] at h
      obtain ⟨rfl, rfl⟩ := h
      simp [hu.1]
    · simp only [Option.map_eq_some_iff, Prod.exists, Prod.mk.injEq] at h
      obtain ⟨g', r', h', rfl, rfl⟩ := h
      rw [List.getLast?_cons, ih h']
      rfl

/-- The search looks no further than the end it finds. -/
theorem closing?_append (h : closing? opens closes depth us = some (g, r)) (vs : List Sign) :
    closing? opens closes depth (g ++ vs) = some (g, vs) := by
  induction us generalizing depth g with
  | nil => simp [closing?] at h
  | cons u us ih =>
    rw [closing?] at h
    split at h
    · rename_i hu
      simp only [Option.some.injEq, Prod.mk.injEq] at h
      obtain ⟨rfl, rfl⟩ := h
      rw [List.singleton_append, closing?, if_pos hu]
    · rename_i hu
      simp only [Option.map_eq_some_iff, Prod.exists, Prod.mk.injEq] at h
      obtain ⟨g', r', h', rfl, rfl⟩ := h
      rw [List.cons_append, closing?_cons hu, ih h']
      rfl

/-- Whether an end is found depends on the signs of the pair only. -/
theorem isSome_closing?_filter {p : Sign → Bool} (ho : p opens = true) (hc : p closes = true) :
    (closing? opens closes depth (us.filter p)).isSome = (closing? opens closes depth us).isSome := by
  induction us generalizing depth with
  | nil => rfl
  | cons u us ih =>
    by_cases hp : p u = true
    · rw [List.filter_cons_of_pos hp, closing?, closing?]
      split
      · rfl
      · simp only [Option.isSome_map, ih]
    · have hne : ∀ v, p v = true → u ≠ v := by
        rintro v hv rfl
        exact hp hv
      rw [List.filter_cons_of_neg hp, closing?_cons_of_ne (hne _ ho) (hne _ hc), Option.isSome_map, ih]

/-! ## What a sign takes along -/

/-- The brace group at the start, and the signs after it. -/
def group? : List Sign → Option (List Sign × List Sign)
  | .char '{' :: us => closing? (.char '{') (.char '}') 0 (.char '{' :: us)
  | _ => none

theorem append_of_group? (h : group? us = some (g, r)) : us = g ++ r ∧ g ≠ [] := by
  unfold group? at h
  split at h
  · refine ⟨append_of_closing? h, ?_⟩
    rintro rfl
    cases getLast?_of_closing? h
  · cases h

/-- The brace groups at the start, and the signs after them. -/
def groupsOf (us : List Sign) : List Sign × List Sign :=
  match _h : group? us with
  | none => ([], us)
  | some (g, r) => (g ++ (groupsOf r).1, (groupsOf r).2)
termination_by us.length
decreasing_by
  all_goals
    obtain ⟨rfl, hne⟩ := append_of_group? _h
    have := List.length_pos_iff.2 hne
    simp only [List.length_append]
    omega

theorem groupsOf_of_none (h : group? us = none) : groupsOf us = ([], us) := by
  rw [groupsOf]
  split
  · rfl
  · rename_i h'
    rw [h] at h'
    cases h'

theorem groupsOf_of_some (h : group? us = some (g, r)) :
    groupsOf us = (g ++ (groupsOf r).1, (groupsOf r).2) := by
  rw [groupsOf]
  split
  · rename_i h'
    rw [h] at h'
    cases h'
  · rename_i h'
    rw [h, Option.some.injEq, Prod.mk.injEq] at h'
    obtain ⟨rfl, rfl⟩ := h'
    rfl

theorem groupsOf_append (us : List Sign) : (groupsOf us).1 ++ (groupsOf us).2 = us := by
  fun_induction groupsOf us with
  | case1 => rfl
  | case2 us g r h ih =>
    simp only [List.append_assoc, ih]
    exact (append_of_group? h).1.symm

/-- What a sign takes along of the signs behind it, and the others. -/
def Sign.split (u : Sign) (us : List Sign) : List Sign × List Sign :=
  match u with
  | word _ | env false _ => groupsOf us
  | env true name =>
    match closing? (env true name) (env false name) 1 (groupsOf us).2 with
    | some (body, r) => ((groupsOf us).1 ++ body, r)
    | none => groupsOf us
  | _ => ([], us)

theorem Sign.split_append (u : Sign) (us : List Sign) : (u.split us).1 ++ (u.split us).2 = us := by
  cases u with
  | char | escaped | slash => rfl
  | word => exact groupsOf_append us
  | env opening name =>
    cases opening with
    | false => exact groupsOf_append us
    | true =>
      simp only [Sign.split]
      split
      · rename_i body r h
        rw [List.append_assoc, ← append_of_closing? h, groupsOf_append]
      · exact groupsOf_append us

theorem Sign.split_of_isWord_eq_false (hu : u.isWord = false) (us : List Sign) : u.split us = ([], us) := by
  cases u with
  | char | escaped | slash => rfl
  | word | env => cases hu

/-! ## Blocks -/

/-- A sign with the signs it takes along. -/
structure Block where
  head : Sign
  tail : List Sign
deriving DecidableEq, Repr

def Block.signs (b : Block) : List Sign := b.head :: b.tail

/-- The signs of the blocks. -/
def signsOf (bs : List Block) : List Sign := bs.flatMap Block.signs

@[simp] theorem signsOf_nil : signsOf [] = [] := rfl

@[simp] theorem signsOf_cons (b : Block) (bs : List Block) : signsOf (b :: bs) = b.signs ++ signsOf bs := rfl

@[simp] theorem signsOf_append (a b : List Block) : signsOf (a ++ b) = signsOf a ++ signsOf b :=
  List.flatMap_append

def blocksOf : List Sign → List Block
  | [] => []
  | u :: us => ⟨u, (u.split us).1⟩ :: blocksOf (u.split us).2
termination_by us => us.length
decreasing_by
  have := congrArg List.length (u.split_append us)
  simp only [List.length_append, List.length_cons] at *
  omega

@[simp] theorem blocksOf_nil : blocksOf [] = [] := by rw [blocksOf]

theorem blocksOf_cons (u : Sign) (us : List Sign) :
    blocksOf (u :: us) = ⟨u, (u.split us).1⟩ :: blocksOf (u.split us).2 := by rw [blocksOf]

theorem signsOf_blocksOf (us : List Sign) : signsOf (blocksOf us) = us := by
  fun_induction blocksOf us with
  | case1 => rfl
  | case2 u us ih =>
    rw [signsOf_cons, ih, Block.signs, List.cons_append, u.split_append us]

/-- Every block takes along what its sign would take along of what comes behind. -/
def Steady : List Block → Prop
  | [] => True
  | b :: bs => b.head.split (b.tail ++ signsOf bs) = (b.tail, signsOf bs) ∧ Steady bs

theorem steady_blocksOf (us : List Sign) : Steady (blocksOf us) := by
  fun_induction blocksOf us with
  | case1 => trivial
  | case2 u us ih =>
    refine ⟨?_, ih⟩
    rw [signsOf_blocksOf, u.split_append us]

/-- **Steady blocks** are the blocks of their signs. -/
theorem blocksOf_signsOf {bs : List Block} (h : Steady bs) : blocksOf (signsOf bs) = bs := by
  induction bs with
  | nil => exact blocksOf_nil
  | cons b bs ih =>
    rw [signsOf_cons, Block.signs, List.cons_append, blocksOf_cons, h.1, ih h.2]

end MathMarkup.Tex
