import MathMarkup.Proofs.Normal.Spans
import MathMarkup.Proofs.Text.Levels

/-!
# Groups and environments in one another

Signs are `Nested` when every brace and every word of an environment has its partner, and what stands between
two partners is nested again. The search for the end of a group or of an environment passes nested signs
(`Nested.closing?_append`), so there is one way only to cut them, and what stands behind nested signs is nested
if the whole is (`Nested.of_append`). Without environments it is enough that the braces fit
(`nested_of_level`).
-/

namespace MathMarkup.Tex

open Sign Text

variable {us a b r : List Sign} {u v opens closes : Sign} {depth d : Nat}

namespace Sign

/-- The sign that closes what this one opens. -/
def partner? : Sign → Option Sign
  | char '{' => some (char '}')
  | env true name => some (env false name)
  | _ => none

/-- Does the sign neither open nor close anything? -/
def isFlat : Sign → Bool
  | char c => c != '{' && c != '}'
  | env _ _ => false
  | _ => true

theorem cases_of_partner? (h : u.partner? = some v) :
    (u = .char '{' ∧ v = .char '}') ∨ ∃ name, u = .env true name ∧ v = .env false name := by
  unfold partner? at h
  split at h
  · exact Or.inl ⟨rfl, (Option.some.inj h).symm⟩
  · exact Or.inr ⟨_, rfl, (Option.some.inj h).symm⟩
  · cases h

/-- What closes a pair opens none, and is not flat. -/
theorem closer_of_partner? (h : u.partner? = some v) : v.partner? = none ∧ v.isFlat = false := by
  rcases cases_of_partner? h with ⟨-, rfl⟩ | ⟨name, -, rfl⟩ <;> exact ⟨rfl, rfl⟩

theorem isFlat_of_partner? (h : u.partner? = some v) : u.isFlat = false := by
  rcases cases_of_partner? h with ⟨rfl, -⟩ | ⟨name, rfl, -⟩ <;> rfl

theorem partner?_injective {u' : Sign} (h : u.partner? = some v) (h' : u'.partner? = some v) : u = u' := by
  rcases cases_of_partner? h with ⟨rfl, rfl⟩ | ⟨name, rfl, rfl⟩ <;>
    rcases cases_of_partner? h' with ⟨rfl, hv⟩ | ⟨name', rfl, hv⟩ <;> cases hv <;> rfl

end Sign

/-- Every brace and every word of an environment has its partner, with nested signs between them. -/
inductive Nested : List Sign → Prop
  | nil : Nested []
  | flat {u : Sign} {us : List Sign} (hu : u.isFlat = true) (h : Nested us) : Nested (u :: us)
  | pair {u v : Sign} {a us : List Sign} (hpair : u.partner? = some v) (ha : Nested a) (h : Nested us) :
      Nested (u :: (a ++ v :: us))

theorem Nested.append (ha : Nested a) (hb : Nested b) : Nested (a ++ b) := by
  induction ha with
  | nil => exact hb
  | flat hu _ ih => exact .flat hu ih
  | pair hpair ha _ _ ih =>
    rw [List.cons_append, List.append_assoc]
    exact .pair hpair ha ih

theorem Nested.of_flats (h : ∀ u ∈ us, u.isFlat = true) : Nested us := by
  induction us with
  | nil => exact .nil
  | cons u us ih =>
    obtain ⟨hu, hus⟩ := List.forall_mem_cons.1 h
    exact .flat hu (ih hus)

/-! ## Searching -/

/-- The search for an end passes nested signs. -/
theorem Nested.closing?_append (ha : Nested a) (hpair : opens.partner? = some closes) (hdepth : 1 ≤ depth)
    (us : List Sign) :
    closing? opens closes depth (a ++ us) = (closing? opens closes depth us).map fun (g, r) => (a ++ g, r) := by
  obtain ⟨hcloses, hnotFlat⟩ := closer_of_partner? hpair
  induction ha generalizing depth us with
  | nil =>
    rw [List.nil_append]
    cases closing? opens closes depth us <;> rfl
  | @flat u a hu _ ih =>
    have hopens : u ≠ opens := by
      rintro rfl
      rw [isFlat_of_partner? hpair] at hu
      cases hu
    have hne : u ≠ closes := by
      rintro rfl
      rw [hnotFlat] at hu
      cases hu
    rw [List.cons_append, closing?_cons_of_ne hopens hne, ih hdepth]
    cases closing? opens closes depth us <;> rfl
  | @pair u v a rest hinner _ _ iha ihrest =>
    have hu : u ≠ closes := by
      rintro rfl
      rw [hcloses] at hinner
      cases hinner
    rw [List.cons_append, List.append_assoc, List.cons_append, closing?_cons fun h => hu h.1]
    by_cases hopens : u = opens
    · -- an inner pair of the same kind: one deeper, and back
      subst hopens
      obtain rfl : closes = v := Option.some.inj (hpair.symm.trans hinner)
      rw [depthAfter, if_pos rfl, iha (by omega), closing?_cons (by omega), depthAfter, if_neg (Ne.symm hu),
        if_pos rfl, Nat.add_sub_cancel, ihrest hdepth]
      cases closing? u closes depth us <;> simp
    · have hv : v ≠ closes := by
        rintro rfl
        exact hopens (partner?_injective hinner hpair)
      have hv' : v ≠ opens := by
        rintro rfl
        rw [(closer_of_partner? hinner).1] at hpair
        cases hpair
      rw [depthAfter, if_neg hopens, if_neg hu, iha hdepth, closing?_cons_of_ne hv' hv, ihrest hdepth]
      cases closing? opens closes depth us <;> simp

/-- The end of a pair is its partner. -/
theorem Nested.closing?_eq (ha : Nested a) (hpair : opens.partner? = some closes) (us : List Sign) :
    closing? opens closes 1 (a ++ closes :: us) = some (a ++ [closes], us) := by
  rw [ha.closing?_append hpair (Nat.le_refl 1), closing?, if_pos ⟨rfl, Nat.le_refl 1⟩]
  rfl

theorem Nested.group?_eq (ha : Nested a) (us : List Sign) :
    group? (.char '{' :: (a ++ .char '}' :: us)) = some (.char '{' :: (a ++ [.char '}']), us) := by
  have hstep : closing? (.char '{') (.char '}') 0 (.char '{' :: (a ++ .char '}' :: us)) =
      (closing? (.char '{') (.char '}') 1 (a ++ .char '}' :: us)).map fun (g, r) => (.char '{' :: g, r) :=
    closing?_cons (by simp)
  rw [group?, hstep, ha.closing?_eq rfl]
  rfl

/-! ## What nested signs start with -/

theorem Nested.of_flat (h : Nested (u :: us)) (hu : u.isFlat = true) : Nested us := by
  generalize hall : u :: us = all at h
  cases h with
  | nil => cases hall
  | flat _ h => exact (List.cons.inj hall).2 ▸ h
  | pair hpair _ _ =>
    obtain ⟨rfl, -⟩ := List.cons.inj hall
    rw [isFlat_of_partner? hpair] at hu
    cases hu

theorem Nested.exists_pair (h : Nested (u :: us)) (hpair : u.partner? = some v) :
    ∃ a r, us = a ++ v :: r ∧ Nested a ∧ Nested r := by
  generalize hall : u :: us = all at h
  cases h with
  | nil => cases hall
  | flat hu _ =>
    obtain ⟨rfl, -⟩ := List.cons.inj hall
    rw [isFlat_of_partner? hpair] at hu
    cases hu
  | pair hpair' ha h =>
    obtain ⟨rfl, hus⟩ := List.cons.inj hall
    obtain rfl := Option.some.inj (hpair.symm.trans hpair')
    exact ⟨_, _, hus, ha, h⟩

/-- Nested signs start with no end of a pair. -/
theorem Nested.isFlat_or_partner? (h : Nested (u :: us)) : u.isFlat = true ∨ ∃ v, u.partner? = some v := by
  generalize hall : u :: us = all at h
  cases h with
  | nil => cases hall
  | flat hu _ => exact Or.inl ((List.cons.inj hall).1 ▸ hu)
  | pair hpair _ _ => exact Or.inr ⟨_, (List.cons.inj hall).1 ▸ hpair⟩

/-- A group at the start of nested signs is nested. -/
theorem Nested.of_group? {g : List Sign} (h : Nested us) (hgroup : group? us = some (g, r)) :
    us = g ++ r ∧ Nested g := by
  refine ⟨(append_of_group? hgroup).1, ?_⟩
  cases us with
  | nil => cases hgroup
  | cons u us =>
    by_cases hu : u = .char '{'
    · subst hu
      obtain ⟨a, r', rfl, ha, -⟩ := h.exists_pair rfl
      rw [ha.group?_eq] at hgroup
      cases hgroup
      exact .pair rfl ha .nil
    · unfold group? at hgroup
      split at hgroup
      · rename_i hus
        exact absurd (List.cons.inj hus).1 hu
      · cases hgroup

/-- There is one end only. -/
theorem Nested.eq_of_append {a' r' : List Sign} (ha : Nested a) (ha' : Nested a') (hpair : u.partner? = some v)
    (h : a ++ v :: r = a' ++ v :: r') : a = a' ∧ r = r' := by
  have hend := ha.closing?_eq hpair r
  rw [h, ha'.closing?_eq hpair r', Option.some.injEq, Prod.mk.injEq] at hend
  exact ⟨(List.append_cancel_right hend.1).symm, hend.2.symm⟩

theorem Nested.of_pair (h : Nested (u :: (a ++ v :: r))) (hpair : u.partner? = some v) (ha : Nested a) : Nested r := by
  obtain ⟨a', r', heq, ha', hr'⟩ := h.exists_pair hpair
  exact (ha.eq_of_append ha' hpair heq).2 ▸ hr'

/-- What stands behind nested signs is nested. -/
theorem Nested.of_append (h : Nested (a ++ b)) (ha : Nested a) : Nested b := by
  induction ha with
  | nil => exact h
  | flat hu _ ih => exact ih (h.of_flat hu)
  | pair hpair ha _ _ ih =>
    rw [List.cons_append, List.append_assoc] at h
    exact ih (h.of_pair hpair ha)

/-- What stands in front of a last flat sign is nested. -/
theorem Nested.of_append_flat (h : Nested (a ++ [u])) (hu : u.isFlat = true) : Nested a := by
  generalize hall : a ++ [u] = all at h
  induction h generalizing a with
  | nil => cases (List.append_eq_nil_iff.1 hall).2
  | @flat v us hv _ ih =>
    cases a with
    | nil => exact .nil
    | cons w a =>
      obtain ⟨rfl, ha⟩ := List.cons.inj hall
      exact .flat hv (ih ha)
  | @pair v closer b us hpair hb _ _ ih =>
    cases a with
    | nil => exact .nil
    | cons w a =>
      obtain ⟨rfl, ha⟩ := List.cons.inj hall
      rcases List.eq_nil_or_concat us with rfl | ⟨us, d, rfl⟩
      · obtain rfl : u = closer := (List.append_singleton_inj.1 ha).2
        rw [(closer_of_partner? hpair).2] at hu
        cases hu
      · rw [List.concat_eq_append, ← List.cons_append, ← List.append_assoc] at ha
        obtain ⟨rfl, rfl⟩ := List.append_singleton_inj.1 ha
        exact .pair hpair hb (ih (by simp))

/-! ## Braces -/

def Sign.brace? : Sign → Option Bool
  | char '{' => some true
  | char '}' => some false
  | _ => none

/-- The braces of the signs, in order; `true` opens a group. -/
def braces (us : List Sign) : List Bool := us.filterMap Sign.brace?

/-- Nested signs with as many closing braces between them as groups are open. -/
inductive ClosesGroups : Nat → List Sign → Prop
  | done {us : List Sign} (h : Nested us) : ClosesGroups 0 us
  | close {d : Nat} {a us : List Sign} (ha : Nested a) (h : ClosesGroups d us) :
      ClosesGroups (d + 1) (a ++ .char '}' :: us)

theorem ClosesGroups.append (ha : Nested a) (h : ClosesGroups d us) : ClosesGroups d (a ++ us) := by
  cases h with
  | done h => exact .done (ha.append h)
  | close hb h =>
    rw [← List.append_assoc]
    exact .close (ha.append hb) h

theorem closesGroups_of_level (hwords : ∀ opening name, .env opening name ∉ us)
    (h : level? d (braces us) = some 0) : ClosesGroups d us := by
  induction us generalizing d with
  | nil =>
    obtain rfl : d = 0 := by simpa [braces] using h
    exact .done .nil
  | cons u us ih =>
    have ih := fun {d} => @ih d fun opening name hmem => hwords opening name (List.mem_cons_of_mem u hmem)
    by_cases hopen : u = .char '{'
    · subst hopen
      have h : level? d (true :: braces us) = some 0 := h
      rw [level?_open] at h
      cases ih h with
      | @close _ a rest ha hrest =>
        have := hrest.append (Nested.pair (u := .char '{') rfl ha .nil)
        simpa using this
    by_cases hclose : u = .char '}'
    · subst hclose
      have h : level? d (false :: braces us) = some 0 := h
      cases d with
      | zero => cases h
      | succ d => exact .close .nil (ih (by rwa [level?_close] at h))
    · have hflat : u.isFlat = true := by
        cases u with
        | char c => simpa [isFlat] using ⟨fun h => hopen (h ▸ rfl), fun h => hclose (h ▸ rfl)⟩
        | env opening name => exact absurd List.mem_cons_self (hwords opening name)
        | escaped | slash | word => rfl
      have hbrace : u.brace? = none := by
        unfold brace?
        split
        · exact absurd rfl hopen
        · exact absurd rfl hclose
        · rfl
      have hbraces : braces (u :: us) = braces us := List.filterMap_cons_none hbrace
      have := ClosesGroups.append (.flat hflat .nil) (ih (by rwa [hbraces] at h))
      simpa using this

/-- **Without environments** signs are nested when their braces fit. -/
theorem nested_of_level (hwords : ∀ opening name, .env opening name ∉ us) (h : level? 0 (braces us) = some 0) :
    Nested us := by
  cases closesGroups_of_level hwords h with
  | done h => exact h

end MathMarkup.Tex
