import MathMarkup.Tex.Delimiter

/-!
# The pairing of delimiters

Delimiters are paired with a stack, which also takes pairs that do not match. `Balanced` are the lists without a
fault, as a grammar, and `fates` tells what becomes of every delimiter of any list: a pair, silent or reported,
or a delimiter alone, always reported.

Main theorem: `unpaired_accounts`.
-/

namespace MathMarkup.Tex

variable {stack ds a b : List Delimiter} {d left right : Delimiter} {faults : List PairingFault}

/-! ## One delimiter -/

theorem pairFrom_of_opening (h : d.bracket.opening = true) : pairFrom stack (d :: ds) = pairFrom (d :: stack) ds := by
  rw [pairFrom.eq_def]
  exact if_pos h

theorem pairFrom_nil_of_closing (h : d.bracket.opening = false) :
    pairFrom [] (d :: ds) = .unopened d :: pairFrom [] ds := by
  rw [pairFrom.eq_def]
  exact if_neg (by simp [h])

theorem pairFrom_cons_of_closing (h : d.bracket.opening = false) :
    pairFrom (left :: stack) (d :: ds) =
      if left.pairs d then pairFrom stack ds else .mismatched left d :: pairFrom stack ds := by
  rw [pairFrom.eq_def]
  exact if_neg (by simp [h])

/-! ## Balanced lists -/

/-- An opening and a closing delimiter make a pair: both are sized, or both are plain brackets of one shape. -/
structure Delimiter.MakePair (left right : Delimiter) : Prop where
  opening : left.bracket.opening = true
  closing : right.bracket.opening = false
  alike : (left.sized = true ∧ right.sized = true) ∨
    (left.sized = false ∧ right.sized = false ∧ left.bracket.shape = right.bracket.shape)

/-- Every delimiter has its partner. -/
inductive Balanced : List Delimiter → Prop
  | nil : Balanced []
  | pair {a b : List Delimiter} {left right : Delimiter} (ha : Balanced a) (hb : Balanced b)
      (hpair : left.MakePair right) : Balanced (a ++ left :: (b ++ [right]))

theorem Delimiter.pairs_iff (hopen : left.bracket.opening = true) (hclose : right.bracket.opening = false) :
    left.pairs right = true ↔ left.MakePair right := by
  have halike : left.pairs right = true ↔ (left.sized = true ∧ right.sized = true) ∨
      (left.sized = false ∧ right.sized = false ∧ left.bracket.shape = right.bracket.shape) := by
    rw [Delimiter.pairs, Bracket.pairs, hopen, hclose]
    cases left.sized <;> cases right.sized <;> simp
  exact ⟨fun h => ⟨hopen, hclose, halike.1 h⟩, fun h => halike.2 h.alike⟩

theorem Balanced.append (ha : Balanced a) (hb : Balanced b) : Balanced (a ++ b) := by
  induction hb with
  | nil => rwa [List.append_nil]
  | pair hc hd hpair ihc ihd =>
    rw [← List.append_assoc]
    exact .pair ihc hd hpair

/-- The stack is the same behind a balanced list, and no fault is found in it. -/
theorem Balanced.pairFrom_append (h : Balanced a) (stack ds : List Delimiter) :
    pairFrom stack (a ++ ds) = pairFrom stack ds := by
  induction h generalizing stack ds with
  | nil => rfl
  | @pair a b left right ha hb hpair iha ihb =>
    rw [List.append_assoc, iha, List.cons_append, List.append_assoc, pairFrom_of_opening hpair.opening, ihb,
      List.singleton_append, pairFrom_cons_of_closing hpair.closing]
    exact if_pos ((Delimiter.pairs_iff hpair.opening hpair.closing).2 hpair)

/-- Balanced lists around closing delimiters, which are partners of the stack, the innermost first. -/
inductive Completes : List Delimiter → List Delimiter → Prop
  | done {b : List Delimiter} (hb : Balanced b) : Completes [] b
  | close {left right : Delimiter} {stack b ds : List Delimiter} (hb : Balanced b) (hpair : left.MakePair right)
      (hds : Completes stack ds) : Completes (left :: stack) (b ++ right :: ds)

theorem Completes.append (ha : Balanced a) (h : Completes stack ds) : Completes stack (a ++ ds) := by
  cases h with
  | done hb => exact .done (ha.append hb)
  | close hb hpair hds =>
    rw [← List.append_assoc]
    exact .close (ha.append hb) hpair hds

/-- Without a fault the rest of a list completes the stack, of which all are opening. -/
theorem completes_of_pairFrom (hstack : ∀ d ∈ stack, d.bracket.opening = true) (h : pairFrom stack ds = []) :
    Completes stack ds := by
  induction ds generalizing stack with
  | nil =>
    obtain rfl : stack = [] := by simpa [pairFrom] using h
    exact .done .nil
  | cons d ds ih =>
    cases hd : d.bracket.opening with
    | true =>
      rw [pairFrom_of_opening hd] at h
      cases ih (List.forall_mem_cons.2 ⟨hd, hstack⟩) h with
      | @close _ right _ b rest hb hpair hrest =>
        have := hrest.append (Balanced.pair .nil hb hpair)
        simpa using this
    | false =>
      cases stack with
      | nil =>
        rw [pairFrom_nil_of_closing hd] at h
        cases h
      | cons left stack =>
        obtain ⟨hleft, hstack⟩ := List.forall_mem_cons.1 hstack
        rw [pairFrom_cons_of_closing hd] at h
        split at h
        · rename_i hpairs
          have hpair := (Delimiter.pairs_iff hleft hd).1 hpairs
          exact .close .nil hpair (ih hstack h)
        · cases h

theorem unpaired_eq_nil_iff : unpaired ds = [] ↔ Balanced ds := by
  constructor
  · intro h
    cases completes_of_pairFrom (by simp) h with
    | done hb => exact hb
  · intro h
    have := h.pairFrom_append [] []
    rwa [List.append_nil] at this

/-! ## What becomes of delimiters -/

/-- A delimiter with its place in the list. -/
abbrev Placed := Delimiter × Nat

/-- What becomes of delimiters: two are taken together, or one stays alone. -/
inductive Fate where
  | together (left right : Placed)
  | unclosed (left : Placed)
  | unopened (right : Placed)

namespace Fate

def members : Fate → List Placed
  | together left right => [left, right]
  | unclosed left => [left]
  | unopened right => [right]

/-- What is reported: all but the pairs that match. -/
def fault? : Fate → Option PairingFault
  | together left right => if left.1.pairs right.1 then none else some (.mismatched left.1 right.1)
  | unclosed left => some (.unclosed left.1)
  | unopened right => some (.unopened right.1)

/-- An opening delimiter is taken together with a closing one behind it, or stays unclosed; a closing one that
is left stays unopened. -/
def IsSound : Fate → Prop
  | together left right =>
    left.1.bracket.opening = true ∧ right.1.bracket.opening = false ∧ left.2 < right.2
  | unclosed left => left.1.bracket.opening = true
  | unopened right => right.1.bracket.opening = false

end Fate

/-- The fates of delimiters while `stack` are open, the innermost first. -/
def fatesFrom (stack : List Placed) : List Placed → List Fate
  | [] => stack.reverse.map .unclosed
  | d :: ds =>
    if d.1.bracket.opening then fatesFrom (d :: stack) ds
    else
      match stack with
      | [] => .unopened d :: fatesFrom [] ds
      | left :: stack => .together left d :: fatesFrom stack ds

section Fates

variable {p q : Placed} {held rest : List Placed}

theorem fatesFrom_of_opening (h : p.1.bracket.opening = true) :
    fatesFrom held (p :: rest) = fatesFrom (p :: held) rest := by
  rw [fatesFrom.eq_def]
  exact if_pos h

theorem fatesFrom_nil_of_closing (h : p.1.bracket.opening = false) :
    fatesFrom [] (p :: rest) = .unopened p :: fatesFrom [] rest := by
  rw [fatesFrom.eq_def]
  exact if_neg (by simp [h])

theorem fatesFrom_cons_of_closing (h : p.1.bracket.opening = false) :
    fatesFrom (q :: held) (p :: rest) = .together q p :: fatesFrom held rest := by
  rw [fatesFrom.eq_def]
  exact if_neg (by simp [h])

end Fates

/-- The faults are the fates that are reported, in order. -/
theorem pairFrom_map (stack ds : List Placed) :
    pairFrom (stack.map Prod.fst) (ds.map Prod.fst) = (fatesFrom stack ds).filterMap Fate.fault? := by
  induction ds generalizing stack with
  | nil =>
    rw [List.map_nil, pairFrom, fatesFrom, List.filterMap_map, ← List.map_reverse, List.map_map]
    exact (congrFun List.filterMap_eq_map stack.reverse).symm
  | cons d ds ih =>
    rw [List.map_cons]
    cases hd : d.1.bracket.opening with
    | true =>
      rw [pairFrom_of_opening hd, fatesFrom_of_opening hd]
      exact ih (d :: stack)
    | false =>
      cases stack with
      | nil =>
        rw [List.map_nil, pairFrom_nil_of_closing hd, fatesFrom_nil_of_closing hd]
        exact congrArg (_ :: ·) (ih [])
      | cons left stack =>
        rw [List.map_cons, pairFrom_cons_of_closing hd, fatesFrom_cons_of_closing hd, List.filterMap_cons,
          Fate.fault?, ih]
        cases left.1.pairs d.1 <;> rfl

/-- Every delimiter has one fate. -/
theorem perm_members_fatesFrom (stack ds : List Placed) :
    ((fatesFrom stack ds).flatMap Fate.members).Perm (stack ++ ds) := by
  induction ds generalizing stack with
  | nil =>
    rw [fatesFrom, List.flatMap_map, List.append_nil]
    exact (List.Perm.of_eq (by simp [Fate.members])).trans (List.reverse_perm stack)
  | cons d ds ih =>
    cases hd : d.1.bracket.opening with
    | true =>
      rw [fatesFrom_of_opening hd]
      exact (ih (d :: stack)).trans List.perm_middle.symm
    | false =>
      cases stack with
      | nil =>
        rw [fatesFrom_nil_of_closing hd]
        exact (ih []).cons d
      | cons left stack =>
        rw [fatesFrom_cons_of_closing hd]
        exact ((ih stack).cons d |>.trans List.perm_middle.symm).cons left

/-- What is taken together is an opening delimiter with a closing one behind it. -/
theorem isSound_fatesFrom {stack ds : List Placed} (hstack : ∀ d ∈ stack, d.1.bracket.opening = true)
    (hbefore : ∀ d ∈ stack, ∀ e ∈ ds, d.2 < e.2) (hds : ds.Pairwise fun d e => d.2 < e.2) :
    ∀ f ∈ fatesFrom stack ds, f.IsSound := by
  induction ds generalizing stack with
  | nil =>
    rw [fatesFrom, List.forall_mem_map]
    exact fun d hd => hstack d (List.mem_reverse.1 hd)
  | cons d ds ih =>
    obtain ⟨hd, hds⟩ := List.pairwise_cons.1 hds
    have hrest : ∀ e ∈ stack, ∀ f ∈ ds, e.2 < f.2 := fun e he f hf =>
      hbefore e he f (List.mem_cons_of_mem d hf)
    cases hopen : d.1.bracket.opening with
    | true =>
      rw [fatesFrom_of_opening hopen]
      exact ih (List.forall_mem_cons.2 ⟨hopen, hstack⟩) (List.forall_mem_cons.2 ⟨hd, hrest⟩) hds
    | false =>
      cases stack with
      | nil =>
        rw [fatesFrom_nil_of_closing hopen]
        exact List.forall_mem_cons.2 ⟨hopen, ih hstack hrest hds⟩
      | cons left stack =>
        obtain ⟨hleft, hstack⟩ := List.forall_mem_cons.1 hstack
        have hplace : left.2 < d.2 := hbefore left List.mem_cons_self d List.mem_cons_self
        rw [fatesFrom_cons_of_closing hopen]
        exact List.forall_mem_cons.2 ⟨⟨hleft, hopen, hplace⟩,
          ih hstack (List.forall_mem_cons.1 hrest).2 hds⟩

/-- The delimiters of a list with their places. -/
theorem pairwise_zipIdx (ds : List Delimiter) (n : Nat) : (ds.zipIdx n).Pairwise fun d e => d.2 < e.2 := by
  induction ds generalizing n with
  | nil => exact List.Pairwise.nil
  | cons d ds ih =>
    rw [List.zipIdx_cons, List.pairwise_cons]
    exact ⟨fun e he => List.le_snd_of_mem_zipIdx he, ih (n + 1)⟩

/-! ## Several lists -/

namespace PairingCheck

theorem read_of_opening (h : d.bracket.opening = true) : read (stack, faults) d = (d :: stack, faults) :=
  if_pos h

theorem read_nil_of_closing (h : d.bracket.opening = false) : read ([], faults) d = ([], faults ++ [.unopened d]) :=
  if_neg (by simp [h])

theorem read_cons_of_closing (h : d.bracket.opening = false) :
    read (left :: stack, faults) d =
      (stack, if left.pairs d then faults else faults ++ [.mismatched left d]) :=
  if_neg (by simp [h])

end PairingCheck

/-- A fault is put behind the ones that were found before. -/
theorem foldl_read (stack ds : List Delimiter) (faults : List PairingFault) :
    (ds.foldl PairingCheck.read (stack, faults)).2 ++
        (ds.foldl PairingCheck.read (stack, faults)).1.reverse.map .unclosed =
      faults ++ pairFrom stack ds := by
  induction ds generalizing stack faults with
  | nil => rfl
  | cons d ds ih =>
    rw [List.foldl_cons]
    cases hd : d.bracket.opening with
    | true => rw [PairingCheck.read_of_opening hd, ih, pairFrom_of_opening hd]
    | false =>
      cases stack with
      | nil =>
        rw [PairingCheck.read_nil_of_closing hd, ih, pairFrom_nil_of_closing hd, List.append_assoc,
          List.singleton_append]
      | cons left stack =>
        rw [PairingCheck.read_cons_of_closing hd, ih, pairFrom_cons_of_closing hd]
        cases left.pairs d with
        | true => rfl
        | false => exact List.append_assoc faults _ _

theorem faults_validate (check : PairingCheck) (ds : List Delimiter) :
    (check.validate ds).faults = check.faults ++ unpaired ds := foldl_read [] ds check.faults

theorem faults_foldl_validate (check : PairingCheck) (lists : List (List Delimiter)) :
    (lists.foldl PairingCheck.validate check).faults = check.faults ++ lists.flatMap unpaired := by
  induction lists generalizing check with
  | nil => exact (List.append_nil _).symm
  | cons ds lists ih => rw [List.foldl_cons, ih, faults_validate, List.flatMap_cons, List.append_assoc]

/-- **Pairing accounts for every delimiter.** There is no fault exactly if the list is balanced. Every delimiter
has one fate: an opening one is taken together with a closing one behind it or is unclosed, a closing one is taken
or is unopened; what is reported are these fates, all but the pairs that match. And a check that goes on over
several lists adds the faults that each has on its own. -/
theorem unpaired_accounts :
    (∀ ds : List Delimiter, unpaired ds = [] ↔ Balanced ds) ∧
    (∀ ds : List Delimiter, ∃ fates : List Fate, (fates.flatMap Fate.members).Perm ds.zipIdx ∧
      (∀ f ∈ fates, f.IsSound) ∧ unpaired ds = fates.filterMap Fate.fault?) ∧
    ∀ (check : PairingCheck) (lists : List (List Delimiter)),
      (lists.foldl PairingCheck.validate check).faults = check.faults ++ lists.flatMap unpaired := by
  refine ⟨fun ds => unpaired_eq_nil_iff, fun ds => ⟨fatesFrom [] ds.zipIdx, ?_, ?_, ?_⟩, faults_foldl_validate⟩
  · exact perm_members_fatesFrom [] ds.zipIdx
  · exact isSound_fatesFrom (by simp) (by simp) (pairwise_zipIdx ds 0)
  · rw [← pairFrom_map, List.map_nil, List.zipIdx_map_fst, unpaired]

end MathMarkup.Tex
