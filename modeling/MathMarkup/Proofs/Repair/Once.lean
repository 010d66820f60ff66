import MathMarkup.Proofs.Repair.Completeness

/-!
# Once is enough

Repair wraps what is not in shape, and the grammar reports what is not in shape. Each of them has its own test;
`InShape` is what both of them test, a content model at a time. Repair leaves every element in shape, with no
text beside elements and with its required attributes, so a second run finds nothing to do; and a tree in which
the grammar finds nothing is as repair leaves it, blank texts apart.

Main theorem: `repaired_repaired`.
-/

namespace MathMarkup.MathML

open Text Xml

variable {name : String} {tag : Tag} {tags : List Tag} {children : List Node} {n : Node} {model : ContentModel}

/-! ## Shapes -/

/-- The elements in an element that is looked into are wrapped as its content model asks for. -/
def InShape : ContentModel → List Tag → Prop
  | .single, tags => tags.length ≤ 1
  | .operands _, tags => ∀ t ∈ tags, t.name = "mrow"
  | .table, tags => ∀ t ∈ tags, isTableRow t.name = true
  | .tableRow, tags => ∀ t ∈ tags, t.name = "mtd"
  | .row, _ | .token, _ | .empty, _ | .unchecked, _ => True

theorem wrapActions_eq_nil_iff {accepted wrapper : String} :
    wrapActions accepted wrapper name tags = [] ↔ ∀ t ∈ tags, t.name = accepted := by
  rw [wrapActions, List.map_eq_nil_iff, List.filter_eq_nil_iff]
  simp

theorem tableActions_eq_nil_iff : tableActions tag = [] ↔ isTableRow tag.name = true := by
  rw [tableActions]
  split
  · rename_i hrow
    simp [hrow]
  · rename_i hrow
    split <;> simp [hrow]

/-- **The repairer's test**: there is nothing to wrap exactly in elements that are in shape. -/
theorem shapeActions_eq_nil_iff : shapeActions name tags model = [] ↔ InShape model tags := by
  cases model with
  | single =>
    rw [shapeActions, InShape]
    split
    · exact iff_of_false (by simp) (by omega)
    · exact iff_of_true rfl (by omega)
  | operands count => exact wrapActions_eq_nil_iff
  | table =>
    rw [shapeActions, InShape, List.flatMap_eq_nil_iff]
    exact forall₂_congr fun t _ => tableActions_eq_nil_iff
  | tableRow => exact wrapActions_eq_nil_iff
  | token | empty | row | unchecked => exact iff_of_true rfl trivial

/-- **The checker's test**: where it reports nothing, the elements are in shape. -/
theorem inShape_of_shapeViolations (h : shapeViolations tag tags model = []) : InShape model tags := by
  cases model with
  | single =>
    rw [shapeViolations] at h
    split at h
    · cases h
    · rw [InShape]
      omega
  | operands count =>
    rw [shapeViolations, operandViolations, List.append_eq_nil_iff, List.filterMap_eq_nil_iff] at h
    intro t ht
    obtain ⟨⟨child, i⟩, hi, rfl⟩ := List.mem_map.1 ((List.zipIdx_map_fst 1 tags).symm ▸ ht)
    exact Decidable.byContradiction fun hname => by simpa [hname] using h.2 _ hi
  | table =>
    rw [shapeViolations, List.map_eq_nil_iff, List.filter_eq_nil_iff] at h
    intro t ht
    simpa using h t ht
  | tableRow =>
    rw [shapeViolations, List.map_eq_nil_iff, List.filter_eq_nil_iff] at h
    intro t ht
    simpa using h t ht
  | token | empty | row | unchecked => trivial

/-- Wrapping brings the elements into shape. -/
theorem inShape_wrapped (model : ContentModel) (h : ∀ n ∈ children, n.isElement) :
    InShape model (childTags (wrapped model children)) := by
  have hmap : ∀ {f : Node → Node} {P : Tag → Prop}, (∀ n tag cs, f n = .element tag cs → P tag) →
      ∀ t ∈ childTags (children.map f), P t := by
    intro f P hf
    refine forall_childTags fun tag cs hmem => ?_
    obtain ⟨n, -, hn⟩ := List.mem_map.1 hmem
    exact hf n tag cs hn
  cases model with
  | single =>
    rw [InShape, length_childTags (isElement_wrapped .single h), wrapped]
    split
    · exact Nat.le_refl 1
    · omega
  | operands count => exact hmap fun n tag cs hn => by simpa using name_of_wrapUnless hn
  | table => exact hmap fun n tag cs hn => name_of_asTableRow hn
  | tableRow => exact hmap fun n tag cs hn => by simpa using name_of_wrapUnless hn
  | token | empty | row | unchecked => trivial

theorem mem_childTags {cs : List Node} (h : Node.element tag cs ∈ children) : tag ∈ childTags children :=
  List.mem_filterMap.2 ⟨_, h, rfl⟩

/-- Elements that are in shape are not wrapped. -/
theorem wrapped_eq_self (h : ∀ n ∈ children, n.isElement) (hshape : InShape model (childTags children)) :
    wrapped model children = children := by
  have hmap : ∀ {f : Node → Node}, (∀ tag cs, .element tag cs ∈ children → f (.element tag cs) = .element tag cs) →
      children.map f = children := by
    intro f hf
    refine (List.map_congr_left fun n hn => ?_).trans (List.map_id _)
    match n, h n hn with
    | .element tag cs, _ => exact hf tag cs hn
  cases model with
  | single =>
    rw [InShape, length_childTags h] at hshape
    rw [wrapped, if_neg (by omega)]
  | operands count =>
    refine hmap fun tag cs hn => ?_
    rw [wrapUnless, hshape tag (mem_childTags hn), if_pos (by simp)]
  | table =>
    refine hmap fun tag cs hn => ?_
    rw [asTableRow, if_pos (hshape tag (mem_childTags hn))]
  | tableRow =>
    refine hmap fun tag cs hn => ?_
    rw [wrapUnless, hshape tag (mem_childTags hn), if_pos (by simp)]
  | token | empty | row | unchecked => rfl

/-! ## Elements without a text beside them -/

theorem textActions_eq_nil_iff : textActions children = [] ↔ ∀ n ∈ children, n.isElement := by
  rw [textActions, List.filterMap_eq_nil_iff]
  refine forall₂_congr fun n _ => ?_
  cases n <;> simp [Node.isElement]

theorem map_tokenized_eq_self (h : ∀ n ∈ children, n.isElement) : children.map tokenized = children := by
  refine (List.map_congr_left fun n hn => ?_).trans (List.map_id _)
  match n, h n hn with
  | .element tag cs, _ => rfl

/-- Nothing is to be done about an element itself: it has its required attributes, and if it is looked into it
holds elements only, which are in shape. -/
theorem ownActions_eq_nil_iff : ownActions tag children = [] ↔ missingAttributes tag = [] ∧
    ∀ model, contentModel? tag.name = some model → model.isWalked = true →
      (∀ n ∈ children, n.isElement) ∧ InShape model (childTags children) := by
  rw [ownActions, List.append_eq_nil_iff, List.map_eq_nil_iff]
  refine and_congr_right fun _ => ?_
  cases hmodel : contentModel? tag.name with
  | none => simp
  | some model =>
    simp only [Option.some.injEq, forall_eq']
    split
    · rename_i hwalked
      rw [List.append_eq_nil_iff, textActions_eq_nil_iff, shapeActions_eq_nil_iff]
      constructor
      · rintro ⟨helements, hshape⟩ -
        exact ⟨helements, map_tokenized_eq_self helements ▸ hshape⟩
      · intro h
        obtain ⟨helements, hshape⟩ := h hwalked
        exact ⟨helements, (map_tokenized_eq_self helements).symm ▸ hshape⟩
    · rename_i hwalked
      simp [hwalked]

theorem actions_element_eq_nil_iff : actions (.element tag children) = [] ↔
    ownActions tag children = [] ∧ (isWalked tag.name = true → actionsAll children = []) := by
  rw [actions, List.append_eq_nil_iff]
  refine and_congr_right fun _ => ?_
  split <;> simp_all

/-! ## No action, no change -/

theorem withRequired_eq_self (h : missingAttributes tag = []) : withRequired tag = tag := by
  rw [withRequired, h, List.append_nil]

mutual

/-- Every change is told as an action. -/
theorem repaired_eq_self : ∀ {n : Node}, actions n = [] → repaired n = n
  | .text _, _ => rfl
  | .element tag children, h => by
    obtain ⟨hown, hchildren⟩ := actions_element_eq_nil_iff.1 h
    obtain ⟨hmissing, hcontent⟩ := ownActions_eq_nil_iff.1 hown
    rw [repaired, withRequired_eq_self hmissing]
    cases hmodel : contentModel? tag.name with
    | none => rfl
    | some model =>
      by_cases hwalked : model.isWalked = true
      · obtain ⟨helements, hshape⟩ := hcontent model hmodel hwalked
        have hall := repairedAll_eq_self helements (hchildren (by simp [isWalked, hmodel, hwalked]))
        simp only [hwalked, if_pos, hall, wrapped_eq_self helements hshape]
      · simp only [hwalked, if_neg, Bool.false_eq_true, not_false_eq_true]

theorem repairedAll_eq_self : ∀ {children : List Node}, (∀ n ∈ children, n.isElement) →
    actionsAll children = [] → repairedAll children = children
  | [], _, _ => rfl
  | .text s :: _, helements, _ => by simpa [Node.isElement] using helements (.text s) List.mem_cons_self
  | .element tag cs :: rest, helements, h => by
    rw [actionsAll, List.append_eq_nil_iff] at h
    have hrest := repairedAll_eq_self (fun n hn => helements n (List.mem_cons_of_mem _ hn)) h.2
    rw [repairedAll, repaired_eq_self h.1, hrest]
    simp

end

/-! ## Nothing is left to do -/

theorem actionsAll_eq_nil_iff : actionsAll children = [] ↔ ∀ n ∈ children, actions n = [] := by
  induction children with
  | nil => simp [actionsAll]
  | cons n rest ih => rw [actionsAll, List.append_eq_nil_iff, List.forall_mem_cons, ih]

/-- A wrapper around elements that are in shape needs nothing itself. -/
theorem actions_made (hmodel : contentModel? name = some model) (hrequired : requiredAttributes name = [])
    (h : ∀ n ∈ children, n.isElement) (hshape : InShape model (childTags children)) :
    actions (.made name children) = [] ↔ (model.isWalked = true → ∀ n ∈ children, actions n = []) := by
  have hown : ownActions { name := name } children = [] := by
    refine ownActions_eq_nil_iff.2 ⟨by simp [missingAttributes, hrequired], fun model' hmodel' _ => ?_⟩
    obtain rfl : model = model' := Option.some.inj (hmodel.symm.trans hmodel')
    exact ⟨h, hshape⟩
  rw [Node.made, actions_element_eq_nil_iff, actionsAll_eq_nil_iff]
  simp [hown, isWalked, hmodel]

theorem actions_tokenOf (s : List Char) : actions (tokenOf s) = [] := by
  simp [tokenOf, Node.made, actions, ownActions, missingAttributes, contentModel?_tokenName,
    requiredAttributes_tokenName, isWalked, ContentModel.isWalked]

theorem actions_wrapUnless {accepted : String → Bool} (hmodel : contentModel? name = some .row)
    (hrequired : requiredAttributes name = []) (h : actions n = []) : actions (wrapUnless accepted name n) = [] := by
  cases n with
  | text s => exact h
  | element tag cs =>
    rw [wrapUnless]
    split
    · exact h
    · refine (actions_made hmodel hrequired (by simp [Node.isElement]) trivial).2 fun _ => ?_
      simpa using h

theorem actions_asTableRow (h : actions n = []) : actions (asTableRow n) = [] := by
  cases n with
  | text s => exact h
  | element tag cs =>
    rw [asTableRow]
    split
    · exact h
    have hcell : ∀ n ∈ [wrapUnless (· == "mtd") "mtd" (.element tag cs)], n.isElement := by
      simpa using isElement_wrapUnless rfl
    have hshape : InShape .tableRow (childTags [wrapUnless (· == "mtd") "mtd" (.element tag cs)]) := by
      refine forall_childTags fun t c ht => ?_
      simpa using name_of_wrapUnless (List.mem_singleton.1 ht).symm
    have hmodel : contentModel? "mtr" = some .tableRow := rfl
    refine (actions_made hmodel rfl hcell hshape).2 fun _ => ?_
    simpa using actions_wrapUnless rfl rfl h

/-- Wrapping finished elements leaves finished elements. -/
theorem actionsAll_wrapped (model : ContentModel) (h : ∀ n ∈ children, n.isElement)
    (hdone : actionsAll children = []) : actionsAll (wrapped model children) = [] := by
  rw [actionsAll_eq_nil_iff] at hdone ⊢
  cases model with
  | single =>
    rw [wrapped]
    split
    · have hmodel : contentModel? "mrow" = some .row := rfl
      simpa using (actions_made hmodel rfl h trivial).2 fun _ => hdone
    · exact hdone
  | operands count | tableRow =>
    simp only [wrapped, List.forall_mem_map]
    exact fun n hn => actions_wrapUnless rfl rfl (hdone n hn)
  | table =>
    simp only [wrapped, List.forall_mem_map]
    exact fun n hn => actions_asTableRow (hdone n hn)
  | token | empty | row | unchecked => exact hdone

mutual

/-- Repair leaves nothing to do. -/
theorem actions_repaired : ∀ n : Node, actions (repaired n) = []
  | .text _ => rfl
  | .element tag children => by
    have hname : (withRequired tag).name = tag.name := rfl
    have hunwalked : ∀ cs, isWalked tag.name = false → actions (.element (withRequired tag) cs) = [] := by
      intro cs hwalked
      refine actions_element_eq_nil_iff.2 ⟨ownActions_eq_nil_iff.2 ⟨missingAttributes_withRequired tag, ?_⟩, ?_⟩
      · intro model hmodel hmodelWalked
        simp [isWalked, ← hname, hmodel, hmodelWalked] at hwalked
      · rw [hname, hwalked]
        exact fun h => absurd h Bool.false_ne_true
    rw [repaired]
    cases hmodel : contentModel? tag.name with
    | none => exact hunwalked children (by simp [isWalked, hmodel])
    | some model =>
      by_cases hwalked : model.isWalked = true
      · simp only [hwalked, if_pos]
        have helements := isElement_repairedAll children
        refine actions_element_eq_nil_iff.2 ⟨ownActions_eq_nil_iff.2 ⟨missingAttributes_withRequired tag, ?_⟩, ?_⟩
        · intro model' hmodel' _
          obtain rfl : model = model' := Option.some.inj (hmodel.symm.trans hmodel')
          exact ⟨isElement_wrapped model helements, inShape_wrapped model helements⟩
        · exact fun _ => actionsAll_wrapped model helements (actionsAll_repairedAll children)
      · simp only [hwalked, if_neg, Bool.false_eq_true, not_false_eq_true]
        exact hunwalked children (by simp [isWalked, hmodel, hwalked])

theorem actionsAll_repairedAll : ∀ children : List Node, actionsAll (repairedAll children) = []
  | [] => rfl
  | .text s :: rest => by rw [repairedAll, actionsAll, actions_tokenOf, actionsAll_repairedAll rest]; rfl
  | .element tag cs :: rest => by
    rw [repairedAll, actionsAll, actions_repaired (.element tag cs), actionsAll_repairedAll rest]
    · rfl
    · simp

end

/-! ## Trees that are valid -/

mutual

/-- Is there a text of blanks only in the tree? -/
def holdsBlank : Node → Bool
  | .text s => s.all isBlank
  | .element _ children => holdsBlankAll children

def holdsBlankAll : List Node → Bool
  | [] => false
  | n :: rest => holdsBlank n || holdsBlankAll rest

end

/-- Without text there are elements only, unless there are blanks. -/
theorem isElement_of_hasText (hblank : holdsBlankAll children = false) (h : hasText children = false) :
    ∀ n ∈ children, n.isElement := by
  induction children with
  | nil => simp
  | cons n rest ih =>
    rw [holdsBlankAll, Bool.or_eq_false_iff] at hblank
    rw [hasText, List.any_cons, Bool.or_eq_false_iff] at h
    refine List.forall_mem_cons.2 ⟨?_, ih hblank.2 h.2⟩
    cases n with
    | text s =>
      have hnotBlank : s.all isBlank = false := hblank.1
      simp [hnotBlank] at h
    | element tag cs => rfl

theorem contentViolations_of_isWalked {hasText : Bool} (hwalked : model.isWalked = true) :
    contentViolations tag hasText tags model = textViolations tag hasText ++ shapeViolations tag tags model := by
  cases model with
  | row | single | operands _ | table | tableRow => rfl
  | token | empty | unchecked => cases hwalked

theorem ownActions_of_ownViolations (hblank : holdsBlankAll children = false)
    (h : ownViolations tag children = []) : ownActions tag children = [] := by
  rw [ownViolations] at h
  cases hmodel : contentModel? tag.name with
  | none => simp [hmodel] at h
  | some model =>
    simp only [hmodel, List.append_eq_nil_iff, List.map_eq_nil_iff] at h
    refine ownActions_eq_nil_iff.2 ⟨h.1, fun model' hmodel' hwalked => ?_⟩
    obtain rfl : model = model' := Option.some.inj (hmodel.symm.trans hmodel')
    rw [contentViolations_of_isWalked hwalked, List.append_eq_nil_iff] at h
    have htext : hasText children = false := by
      cases hfound : hasText children with
      | false => rfl
      | true => simp [textViolations, hfound] at h
    exact ⟨isElement_of_hasText hblank htext, inShape_of_shapeViolations h.2.2⟩

mutual

/-- Where the grammar finds nothing there is nothing to repair. -/
theorem actions_of_violations : ∀ {n : Node}, holdsBlank n = false → violations n = [] → actions n = []
  | .text _, _, _ => rfl
  | .element tag children, hblank, h => by
    rw [violations, List.append_eq_nil_iff] at h
    refine actions_element_eq_nil_iff.2 ⟨ownActions_of_ownViolations hblank h.1, fun hwalked => ?_⟩
    rw [if_pos hwalked] at h
    exact actionsAll_of_violationsAll hblank h.2

theorem actionsAll_of_violationsAll : ∀ {children : List Node}, holdsBlankAll children = false →
    violationsAll children = [] → actionsAll children = []
  | [], _, _ => rfl
  | n :: rest, hblank, h => by
    rw [holdsBlankAll, Bool.or_eq_false_iff] at hblank
    rw [violationsAll, List.append_eq_nil_iff] at h
    rw [actionsAll, actions_of_violations hblank.1 h.1, actionsAll_of_violationsAll hblank.2 h.2]
    rfl

end

/-- **Repair is applied once and that is enough.** A second run does nothing and leaves the tree as it is. On a
tree without blank texts in which the grammar finds nothing, so does the first run. -/
theorem repaired_repaired :
    (∀ root : Element, actions (repaired root.toNode) = [] ∧
      repaired (repaired root.toNode) = repaired root.toNode) ∧
    ∀ root : Element, holdsBlank root.toNode = false → violations root.toNode = [] →
      actions root.toNode = [] ∧ repaired root.toNode = root.toNode := by
  refine ⟨fun root => ?_, fun root hblank hvalid => ?_⟩
  · have hdone := actions_repaired root.toNode
    exact ⟨hdone, repaired_eq_self hdone⟩
  · have hdone := actions_of_violations hblank hvalid
    exact ⟨hdone, repaired_eq_self hdone⟩

/-- A table with a stray cell and a loose text is repaired once; what comes out is a tree without blank texts in
which the grammar finds nothing, and stays as it is. -/
theorem repaired_repaired_table :
    let table (children : List Node) : Element :=
      ⟨{ name := "math" }, [.element { name := "mtable" } children]⟩
    let row (cell : Node) : Node := .made "mtr" [cell]
    let before := table [.element { name := "mtd" } [.element { name := "mglyph" } []], .text ['x']]
    let after := table [row (.element { name := "mtd" } [.element { name := "mglyph", attributes := [("alt", [])] } []]),
      row (.made "mtd" [.made "mi" [.text ['x']]])]
    actions before.toNode ≠ [] ∧ repaired before.toNode = after.toNode ∧
      actions after.toNode = [] ∧ repaired after.toNode = after.toNode ∧
      holdsBlank after.toNode = false ∧ violations after.toNode = [] := by
  intro table row before after
  have hafter : repaired before.toNode = after.toNode := rfl
  have hblank : holdsBlank after.toNode = false := by decide +kernel
  have hvalid : violations after.toNode = [] := by decide +kernel
  obtain ⟨hdone, hsame⟩ := repaired_repaired.2 after hblank hvalid
  exact ⟨by decide +kernel, hafter, hafter ▸ (repaired_repaired.1 before).1, hsame, hblank, hvalid⟩

end MathMarkup.MathML
