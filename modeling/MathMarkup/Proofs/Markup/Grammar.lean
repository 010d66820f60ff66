import MathMarkup.Proofs.Markup.Sound
import MathMarkup.Proofs.Xml.Likeness

/-!
# The grammar does not look at namespaces

Trees that are alike have the same names, the same texts and the same attributes, up to the prefixes of some. So
when the one follows the grammar, the other does.

Main statement: `violations_eq_nil_of_like`.
-/

namespace MathMarkup.MathML

open Text Xml

/-- The shape of the children is judged by their names only. -/
theorem shapeViolations_eq_nil_of_names {tag tag' : Tag} {children children' : List Tag} {model : ContentModel}
    (hnames : children'.map Tag.name = children.map Tag.name) (h : shapeViolations tag children model = []) :
    shapeViolations tag' children' model = [] := by
  have hlength : children'.length = children.length := by simpa using congrArg List.length hnames
  have hall : ∀ P : String → Prop, (∀ c ∈ children, P c.name) → ∀ c ∈ children', P c.name := by
    intro P hP
    rw [← List.forall_mem_map (f := Tag.name), hnames, List.forall_mem_map]
    exact hP
  cases model with
  | token | empty | row | unchecked => rfl
  | single =>
    rw [shapeViolations] at h ⊢
    rw [hlength]
    split at h
    · cases h
    · rename_i hsingle
      rw [if_neg hsingle]
  | operands count =>
    rw [shapeViolations, operandViolations, List.append_eq_nil_iff] at h
    obtain ⟨hcount, hbare⟩ := h
    have hrows : ∀ c ∈ children, c.name = "mrow" := by
      intro c hc
      rw [← List.zipIdx_map_fst 1 children, List.mem_map] at hc
      obtain ⟨⟨child, i⟩, hmem, rfl⟩ := hc
      have hnone := List.filterMap_eq_nil_iff.1 hbare _ hmem
      dsimp only at hnone ⊢
      split at hnone
      · assumption
      · cases hnone
    have heq : children'.length = count := by
      rw [hlength]
      split at hcount
      · assumption
      · cases hcount
    rw [shapeViolations, ← heq]
    exact operandViolations_eq_nil (hall (· = "mrow") hrows)
  | table =>
    rw [shapeViolations, List.map_eq_nil_iff, List.filter_eq_nil_iff] at h ⊢
    exact hall (fun name => ¬(!isTableRow name) = true) h
  | tableRow =>
    rw [shapeViolations, List.map_eq_nil_iff, List.filter_eq_nil_iff] at h ⊢
    exact hall (fun name => ¬(name != "mtd") = true) h

theorem contentViolations_eq_nil_of_names {tag tag' : Tag} {children children' : List Tag} {model : ContentModel}
    {hasText : Bool} (hnames : children'.map Tag.name = children.map Tag.name)
    (h : contentViolations tag hasText children model = []) : contentViolations tag' hasText children' model = [] := by
  have hempty : children'.isEmpty = children.isEmpty := by
    have hlength : children'.length = children.length := by simpa using congrArg List.length hnames
    rw [Bool.eq_iff_iff, List.isEmpty_iff_length_eq_zero, List.isEmpty_iff_length_eq_zero, hlength]
  have htext : textViolations tag hasText = [] → textViolations tag' hasText = [] := by
    cases hasText with
    | false => exact fun _ => rfl
    | true => exact nofun
  cases model with
  | unchecked => rfl
  | token =>
    cases children with
    | nil =>
      rw [List.isEmpty_iff.1 hempty]
      rfl
    | cons c children => cases h
  | empty =>
    rw [contentViolations] at h ⊢
    rw [hempty]
    split at h
    · cases h
    · rename_i hcond
      rw [if_neg hcond]
  | row | single | operands | table | tableRow =>
    obtain ⟨hown, hshape⟩ := List.append_eq_nil_iff.1 h
    exact List.append_eq_nil_iff.2 ⟨htext hown, shapeViolations_eq_nil_of_names hnames hshape⟩

theorem noColon_requiredAttributes (name : String) : ∀ a ∈ requiredAttributes name, ':' ∉ a.1.toList := by
  unfold requiredAttributes
  split
  · decide
  · exact List.forall_mem_nil _

theorem missingAttributes_eq_nil_of_like {tag tag' : Tag} (h : tag.Like tag') (hnone : missingAttributes tag = []) :
    missingAttributes tag' = [] := by
  rw [missingAttributes, List.filter_eq_nil_iff] at hnone ⊢
  rw [h.name]
  intro a ha hmissing
  have hget : (tag.get? a.1).isSome = true := by
    have := hnone a ha
    rwa [Bool.not_eq_true, ← Option.not_isSome, Bool.not_eq_false'] at this
  have hget' := h.get? a.1 (noColon_requiredAttributes _ a ha) hget
  rw [← Option.not_isSome, hget'] at hmissing
  cases hmissing

theorem hasText_of_like {ns ms : List Node} (h : List.Forall₂ Node.Like ns ms) : hasText ms = hasText ns := by
  induction h with
  | nil => rfl
  | @cons n m ns ms hn _ ih =>
    unfold hasText at ih ⊢
    rw [List.any_cons, List.any_cons, ih]
    cases n with
    | element =>
      cases m with
      | element => rfl
      | text => exact hn.elim
    | text s =>
      cases m with
      | element => exact hn.elim
      | text t => rw [show t = s from hn]

theorem names_of_like {ns ms : List Node} (h : List.Forall₂ Node.Like ns ms) :
    (childTags ms).map Tag.name = (childTags ns).map Tag.name := by
  induction h with
  | nil => rfl
  | @cons n m ns ms hn _ ih =>
    unfold childTags at ih ⊢
    cases n with
    | element tag children =>
      cases m with
      | element tag' children' =>
        exact congrArg₂ List.cons hn.1.name ih
      | text => exact hn.elim
    | text s =>
      cases m with
      | element => exact hn.elim
      | text t => exact ih

theorem ownViolations_eq_nil_of_like {tag tag' : Tag} {ns ms : List Node} (htag : tag.Like tag')
    (hall : List.Forall₂ Node.Like ns ms) (h : ownViolations tag ns = []) : ownViolations tag' ms = [] := by
  unfold ownViolations at h ⊢
  rw [htag.name, hasText_of_like hall]
  split at h
  · cases h
  · rw [List.append_eq_nil_iff, List.map_eq_nil_iff] at h
    rw [List.append_eq_nil_iff, List.map_eq_nil_iff]
    exact ⟨missingAttributes_eq_nil_of_like htag h.1, contentViolations_eq_nil_of_names (names_of_like hall) h.2⟩

mutual

/-- A tree that follows the grammar does so whatever is done to namespaces and prefixes. -/
theorem violations_eq_nil_of_like : ∀ {n m : Node}, n.Like m → violations n = [] → violations m = []
  | .text _, .text _, _, _ => rfl
  | .element tag ns, .element tag' ms, ⟨htag, hall⟩, h => by
    rw [violations, List.append_eq_nil_iff] at h ⊢
    refine ⟨ownViolations_eq_nil_of_like htag (likeAll_iff.1 hall) h.1, ?_⟩
    have hbelow := h.2
    rw [htag.name]
    split
    · rename_i hwalked
      rw [if_pos hwalked] at hbelow
      exact violationsAll_eq_nil_of_like hall hbelow
    · rfl

theorem violationsAll_eq_nil_of_like : ∀ {ns ms : List Node}, likeAll ns ms → violationsAll ns = [] →
    violationsAll ms = []
  | [], [], _, _ => rfl
  | _ :: _, _ :: _, ⟨hn, hall⟩, h => by
    rw [violationsAll, List.append_eq_nil_iff] at h ⊢
    exact ⟨violations_eq_nil_of_like hn h.1, violationsAll_eq_nil_of_like hall h.2⟩

end

end MathMarkup.MathML
