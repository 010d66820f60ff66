import MathMarkup.MathML.Repair

/-!
# What repair leaves behind

Repair adds structure and deletes nothing, so some violations stay: an unknown name, an element inside
a token, content in an empty element, a wrong number of operands. `residue` lists them on the tree
before repair, and `violations_repaired` says that these are the violations of the tree afterwards.

Main theorem `isValid_repairedRoot`: a repaired `math` root is valid exactly when the tree was
repairable, and whatever is still reported is of one of those four kinds.
-/

namespace MathMarkup.MathML

open Text Xml

/-! ## Repairable trees -/

/-- The part of a content model that no added structure brings about. -/
def fits (children : List Node) : ContentModel → Bool
  | .token => !children.any Node.isElement
  | .empty => !children.any Node.isElement && !hasText children
  | .operands count => children.length == count
  | .row | .single | .table | .tableRow | .unchecked => true

mutual

/-- Can repair make this tree valid? Texts count as operands, and the content of a token, an empty or
an unchecked element is not looked into. -/
def isRepairable : Node → Bool
  | .text _ => true
  | .element tag children =>
    match contentModel? tag.name with
    | none => false
    | some model => fits children model && (!model.isWalked || isRepairableAll children)

def isRepairableAll : List Node → Bool
  | [] => true
  | n :: rest => isRepairable n && isRepairableAll rest

end

/-- Violations of this kind never survive repair. -/
def Violation.isMended : Violation → Bool
  | .missingAttribute .. | .characterData _ | .severalChildren .. | .bareOperand .. | .strayInTable _
  | .strayInRow .. => true
  | .unknownElement _ | .elementInToken .. | .notEmpty _ | .operandCount .. => false

/-! ## The residue -/

/-- What stays wrong with the content of an element. -/
def contentResidue (tag : Tag) (children : List Node) : ContentModel → List Diagnostic
  | .token => tokenViolations tag (childTags children)
  | .empty =>
    if hasText children || !(childTags children).isEmpty then
      [(Violation.notEmpty tag.name).diagnostic tag]
    else []
  | .operands count =>
    if children.length = count then []
    else [(Violation.operandCount tag.name count children.length).diagnostic tag]
  | .row | .single | .table | .tableRow | .unchecked => []

mutual

/-- The violations that repair leaves, in the order of the text. -/
def residue : Node → List Diagnostic
  | .text _ => []
  | .element tag children =>
    match contentModel? tag.name with
    | none => [(Violation.unknownElement tag.name).diagnostic tag]
    | some model => contentResidue tag children model ++ if model.isWalked then residueAll children else []

def residueAll : List Node → List Diagnostic
  | [] => []
  | n :: rest => residue n ++ residueAll rest

end

/-! ## Lists of elements -/

theorem hasText_eq_false {children : List Node} (h : ∀ n ∈ children, n.isElement) :
    hasText children = false := by
  rw [hasText, List.any_eq_false]
  rintro (⟨tag, cs⟩ | s) hn
  · simp
  · simpa [Node.isElement] using h _ hn

theorem childTags_eq_nil {children : List Node} :
    childTags children = [] ↔ children.any Node.isElement = false := by
  rw [childTags, List.filterMap_eq_nil_iff, List.any_eq_false]
  constructor
  · intro h n hn
    have := h n hn
    cases n <;> simp_all [Node.isElement]
  · intro h n hn
    have := h n hn
    cases n <;> simp_all [Node.isElement]

theorem length_childTags {children : List Node} (h : ∀ n ∈ children, n.isElement) :
    (childTags children).length = children.length := by
  induction children with
  | nil => rfl
  | cons n rest ih =>
    have hrest := ih fun m hm => h m (List.mem_cons_of_mem _ hm)
    match n, h n List.mem_cons_self with
    | .element tag cs, _ => simpa [childTags] using hrest

/-- Names that the shape of the children is judged by. -/
theorem forall_childTags {children : List Node} {P : Tag → Prop}
    (h : ∀ tag cs, Node.element tag cs ∈ children → P tag) : ∀ t ∈ childTags children, P t := by
  intro t ht
  rw [childTags, List.mem_filterMap] at ht
  obtain ⟨n, hn, hnt⟩ := ht
  cases n with
  | text s => simp at hnt
  | element tag cs =>
    obtain rfl := Option.some.inj hnt
    exact h tag cs hn

/-! ## Wrapping -/

/-- An element that repair has made out of elements violates nothing itself. -/
theorem violations_made_row (name : String) (hmodel : contentModel? name = some .row)
    (hreq : requiredAttributes name = []) {children : List Node} (h : ∀ n ∈ children, n.isElement) :
    violations (.made name children) = violationsAll children := by
  simp [Node.made, violations, ownViolations, hmodel, missingAttributes, hreq, contentViolations,
    textViolations, hasText_eq_false h, shapeViolations, isWalked, ContentModel.isWalked]

theorem violations_made_tableRow {children : List Node} (h : ∀ n ∈ children, n.isElement)
    (hcells : ∀ tag cs, Node.element tag cs ∈ children → tag.name = "mtd") :
    violations (.made "mtr" children) = violationsAll children := by
  have hnames : ∀ t ∈ childTags children, t.name = "mtd" := forall_childTags hcells
  have hstray : (childTags children).filter (fun c => c.name != "mtd") = [] := by
    rw [List.filter_eq_nil_iff]
    intro t ht
    simp [hnames t ht]
  have hmodel : contentModel? "mtr" = some .tableRow := rfl
  have hreq : requiredAttributes "mtr" = [] := rfl
  simp [Node.made, violations, ownViolations, hmodel, missingAttributes, hreq, contentViolations,
    textViolations, hasText_eq_false h, shapeViolations, hstray, isWalked, ContentModel.isWalked]

theorem violations_wrapUnless {accepted : String → Bool} (name : String)
    (hmodel : contentModel? name = some .row) (hreq : requiredAttributes name = []) (n : Node) :
    violations (wrapUnless accepted name n) = violations n := by
  cases n with
  | text s => rfl
  | element tag cs =>
    rw [wrapUnless]
    split
    · rfl
    · rw [violations_made_row name hmodel hreq (by simp [Node.isElement])]
      simp [violationsAll]

theorem violations_asTableRow (n : Node) : violations (asTableRow n) = violations n := by
  cases n with
  | text s => rfl
  | element tag cs =>
    rw [asTableRow]
    split
    · rfl
    · rw [violations_made_tableRow]
      · simp [violationsAll, violations_wrapUnless "mtd" rfl rfl]
      · simp only [List.mem_singleton, forall_eq]
        rw [wrapUnless]
        split <;> rfl
      · intro t cs' ht
        rw [List.mem_singleton] at ht
        rw [wrapUnless] at ht
        split at ht
        · rename_i hmtd
          cases ht
          simpa using hmtd
        · cases ht
          rfl

theorem violationsAll_map {f : Node → Node} (h : ∀ n, violations (f n) = violations n)
    (children : List Node) : violationsAll (children.map f) = violationsAll children := by
  induction children with
  | nil => rfl
  | cons n rest ih => simp [violationsAll, h, ih]

/-- Wrapping brings no violation in and takes none of the children's own away. -/
theorem violationsAll_wrapped (model : ContentModel) {children : List Node}
    (h : ∀ n ∈ children, n.isElement) : violationsAll (wrapped model children) = violationsAll children := by
  cases model with
  | single =>
    rw [wrapped]
    split
    · simp [violationsAll, violations_made_row "mrow" rfl rfl h]
    · rfl
  | operands count => exact violationsAll_map (violations_wrapUnless "mrow" rfl rfl) children
  | table => exact violationsAll_map violations_asTableRow children
  | tableRow => exact violationsAll_map (violations_wrapUnless "mtd" rfl rfl) children
  | token | empty | row | unchecked => rfl

theorem isElement_wrapUnless {accepted : String → Bool} {name : String} {n : Node} (h : n.isElement) :
    (wrapUnless accepted name n).isElement := by
  cases n with
  | text s => exact h
  | element tag cs =>
    rw [wrapUnless]
    split <;> rfl

theorem isElement_asTableRow {n : Node} (h : n.isElement) : (asTableRow n).isElement := by
  cases n with
  | text s => exact h
  | element tag cs =>
    rw [asTableRow]
    split <;> rfl

theorem isElement_wrapped (model : ContentModel) {children : List Node}
    (h : ∀ n ∈ children, n.isElement) : ∀ n ∈ wrapped model children, n.isElement := by
  cases model with
  | single =>
    rw [wrapped]
    split
    · simp [Node.made, Node.isElement]
    · exact h
  | operands count | tableRow =>
    simp only [wrapped, List.mem_map, forall_exists_index, and_imp, forall_apply_eq_imp_iff₂]
    exact fun n hn => isElement_wrapUnless (h n hn)
  | table =>
    simp only [wrapped, List.mem_map, forall_exists_index, and_imp, forall_apply_eq_imp_iff₂]
    exact fun n hn => isElement_asTableRow (h n hn)
  | token | empty | row | unchecked => exact h

/-- The name of a wrapped element is the wrapper's, or one that is accepted. -/
theorem name_of_wrapUnless {accepted : String → Bool} {name : String} {n : Node} {tag : Tag}
    {cs : List Node} (h : wrapUnless accepted name n = .element tag cs) :
    tag.name = name ∨ accepted tag.name = true := by
  cases n with
  | text s => cases h
  | element t c =>
    rw [wrapUnless] at h
    split at h
    · rename_i hacc
      cases h
      exact Or.inr hacc
    · cases h
      exact Or.inl rfl

theorem name_of_asTableRow {n : Node} {tag : Tag} {cs : List Node}
    (h : asTableRow n = .element tag cs) : isTableRow tag.name = true := by
  cases n with
  | text s => cases h
  | element t c =>
    rw [asTableRow] at h
    split at h
    · rename_i hrow
      cases h
      exact hrow
    · cases h
      rfl

/-- Behind wrapping the shape of the children is right, but for the number of operands. -/
theorem shapeViolations_wrapped (tag : Tag) (model : ContentModel) {children : List Node}
    (h : ∀ n ∈ children, n.isElement) (hwalked : model.isWalked = true) :
    shapeViolations tag (childTags (wrapped model children)) model =
      contentResidue tag children model := by
  have hlen := length_childTags (isElement_wrapped model h)
  cases model with
  | single =>
    have hone : (wrapped .single children).length ≤ 1 := by
      rw [wrapped]
      split
      · simp
      · omega
    simp only [shapeViolations, contentResidue]
    rw [if_neg (by omega)]
  | operands count =>
    have hrows : ∀ t ∈ childTags (wrapped (.operands count) children), t.name = "mrow" := by
      refine forall_childTags fun t cs ht => ?_
      simp only [wrapped, List.mem_map] at ht
      obtain ⟨n, -, hn⟩ := ht
      simpa using name_of_wrapUnless hn
    have hcount : (childTags (wrapped (.operands count) children)).length = children.length := by
      rw [hlen]
      simp [wrapped]
    simp only [shapeViolations, operandViolations, contentResidue, hcount]
    -- no operand is bare, so only their number is left to tell
    refine (congrArg (_ ++ ·) (List.filterMap_eq_nil_iff.2 ?_)).trans (List.append_nil _)
    rintro ⟨t, i⟩ ht
    simp [hrows t (List.fst_mem_of_mem_zipIdx ht)]
  | table =>
    have hrows : ∀ t ∈ childTags (wrapped .table children), isTableRow t.name = true := by
      refine forall_childTags fun t cs ht => ?_
      simp only [wrapped, List.mem_map] at ht
      obtain ⟨n, -, hn⟩ := ht
      exact name_of_asTableRow hn
    simp only [shapeViolations, contentResidue, List.map_eq_nil_iff, List.filter_eq_nil_iff]
    intro t ht
    simp [hrows t ht]
  | tableRow =>
    have hcells : ∀ t ∈ childTags (wrapped .tableRow children), t.name = "mtd" := by
      refine forall_childTags fun t cs ht => ?_
      simp only [wrapped, List.mem_map] at ht
      obtain ⟨n, -, hn⟩ := ht
      simpa using name_of_wrapUnless hn
    simp only [shapeViolations, contentResidue, List.map_eq_nil_iff, List.filter_eq_nil_iff]
    intro t ht
    simp [hcells t ht]
  | row => rfl
  | token | empty | unchecked => simp [ContentModel.isWalked] at hwalked

/-! ## The repaired tree -/

theorem isElement_repaired (tag : Tag) (children : List Node) :
    (repaired (.element tag children)).isElement := by
  unfold repaired
  split
  · split <;> rfl
  · rfl

theorem isElement_repairedAll (children : List Node) : ∀ n ∈ repairedAll children, n.isElement := by
  induction children with
  | nil => simp [repairedAll]
  | cons c rest ih =>
    cases c with
    | text s => simpa [repairedAll, tokenOf, Node.made, Node.isElement] using ih
    | element tag cs => simpa [repairedAll, isElement_repaired] using ih

theorem length_repairedAll (children : List Node) : (repairedAll children).length = children.length := by
  induction children with
  | nil => rfl
  | cons c rest ih => cases c <;> simp [repairedAll, ih]

theorem contentModel?_tokenName (s : List Char) : contentModel? (tokenName s) = some .token := by
  unfold tokenName
  split
  · rfl
  · split
    · split <;> rfl
    · rfl

theorem requiredAttributes_tokenName (s : List Char) : requiredAttributes (tokenName s) = [] := by
  unfold tokenName
  split
  · rfl
  · split
    · split <;> rfl
    · rfl

/-- A text in its token violates nothing. -/
theorem violations_tokenOf (s : List Char) : violations (tokenOf s) = [] := by
  simp [tokenOf, Node.made, violations, ownViolations, contentModel?_tokenName, missingAttributes,
    requiredAttributes_tokenName, contentViolations, tokenViolations, childTags, isWalked,
    ContentModel.isWalked]

theorem missingAttributes_withRequired (tag : Tag) : missingAttributes (withRequired tag) = [] := by
  rw [missingAttributes, List.filter_eq_nil_iff]
  intro a ha
  have hname : (withRequired tag).name = tag.name := rfl
  rw [hname] at ha
  have hget : (withRequired tag).get? a.1 = (tag.get? a.1).or ((missingAttributes tag).lookup a.1) :=
    List.lookup_append
  rw [hget]
  by_cases hmissing : (tag.get? a.1).isNone = true
  · have hadded : a ∈ missingAttributes tag := List.mem_filter.2 ⟨ha, hmissing⟩
    cases hlook : (missingAttributes tag).lookup a.1 with
    | none => simpa using List.lookup_eq_none_iff.1 hlook a hadded
    | some v => cases tag.get? a.1 <;> simp
  · cases hold : tag.get? a.1 with
    | none => simp [hold] at hmissing
    | some v => simp

/-- What an element violates itself once it is repaired. -/
theorem ownViolations_repaired {tag : Tag} {model : ContentModel} (children : List Node)
    (hmodel : contentModel? tag.name = some model) (hwalked : model.isWalked = true) :
    ownViolations (withRequired tag) (wrapped model (repairedAll children)) =
      contentResidue tag children model := by
  have helements := isElement_wrapped model (isElement_repairedAll children)
  have hname : (withRequired tag).name = tag.name := rfl
  have hshape := shapeViolations_wrapped (withRequired tag) model (isElement_repairedAll children) hwalked
  have hresidue : contentResidue (withRequired tag) (repairedAll children) model =
      contentResidue tag children model := by
    cases model with
    | operands count => simp only [contentResidue, length_repairedAll]; rfl
    | row | single | table | tableRow => rfl
    | token | empty | unchecked => simp [ContentModel.isWalked] at hwalked
  rw [ownViolations, hname, hmodel]
  simp only [missingAttributes_withRequired, List.map_nil, List.nil_append]
  rw [← hresidue, ← hshape]
  cases model with
  | row | single | operands count | table | tableRow =>
    simp only [contentViolations, textViolations, hasText_eq_false helements, Bool.false_eq_true,
      ↓reduceIte, List.nil_append]
  | token | empty | unchecked => simp [ContentModel.isWalked] at hwalked

/-- An element that is not walked keeps its content. -/
theorem ownViolations_withRequired {tag : Tag} {model : ContentModel} (children : List Node)
    (hmodel : contentModel? tag.name = some model) (hwalked : model.isWalked = false) :
    ownViolations (withRequired tag) children = contentResidue tag children model := by
  have hname : (withRequired tag).name = tag.name := rfl
  rw [ownViolations, hname, hmodel]
  simp only [missingAttributes_withRequired, List.map_nil, List.nil_append]
  cases model with
  | token | empty | unchecked => rfl
  | row | single | operands count | table | tableRow => simp [ContentModel.isWalked] at hwalked

mutual

/-- Repair leaves the residue, and nothing else. -/
theorem violations_repaired : ∀ n : Node, violations (repaired n) = residue n
  | .text _ => rfl
  | .element tag children => by
    have hname : (withRequired tag).name = tag.name := rfl
    rw [repaired, residue]
    cases hmodel : contentModel? tag.name with
    | none =>
      simp only [violations, ownViolations, hname, hmodel, isWalked, Option.any_none, Bool.false_eq_true,
        ↓reduceIte, List.append_nil]
      rfl
    | some model =>
      simp only
      by_cases hwalked : model.isWalked = true
      · rw [if_pos hwalked, if_pos hwalked, violations, ownViolations_repaired children hmodel hwalked,
          violationsAll_wrapped model (isElement_repairedAll children), violationsAll_repairedAll children]
        simp [isWalked, hname, hmodel, hwalked]
      · rw [if_neg hwalked, if_neg hwalked, violations,
          ownViolations_withRequired children hmodel (by simpa using hwalked)]
        simp [isWalked, hname, hmodel, hwalked]

theorem violationsAll_repairedAll : ∀ children : List Node,
    violationsAll (repairedAll children) = residueAll children
  | [] => rfl
  | .text s :: rest => by
    rw [repairedAll, violationsAll, violations_tokenOf, violationsAll_repairedAll rest]
    rfl
  | .element tag cs :: rest => by
    rw [repairedAll, violationsAll, violations_repaired, violationsAll_repairedAll rest, residueAll]
    simp

end

/-! ## Completeness -/

theorem contentResidue_eq_nil (tag : Tag) (children : List Node) (model : ContentModel) :
    contentResidue tag children model = [] ↔ fits children model = true := by
  cases model with
  | token =>
    simp only [contentResidue, fits, Bool.not_eq_true', ← childTags_eq_nil]
    cases childTags children <;> simp [tokenViolations]
  | empty =>
    simp only [contentResidue, fits, Bool.and_eq_true, Bool.not_eq_true', ← childTags_eq_nil]
    cases childTags children <;> cases hasText children <;> simp
  | operands count => simp [contentResidue, fits]
  | row | single | table | tableRow | unchecked => simp [contentResidue, fits]

mutual

theorem residue_eq_nil : ∀ n : Node, residue n = [] ↔ isRepairable n = true
  | .text _ => by simp [residue, isRepairable]
  | .element tag children => by
    rw [residue, isRepairable]
    cases contentModel? tag.name with
    | none => simp
    | some model =>
      have ih := residueAll_eq_nil children
      cases hwalked : model.isWalked <;> simp [contentResidue_eq_nil, ih, hwalked]

theorem residueAll_eq_nil : ∀ children : List Node,
    residueAll children = [] ↔ isRepairableAll children = true
  | [] => by simp [residueAll, isRepairableAll]
  | n :: rest => by
    have h := residue_eq_nil n
    have ih := residueAll_eq_nil rest
    simp [residueAll, isRepairableAll, h, ih]

end

/-- A finding of a kind that repair does not mend. -/
def IsUnmended (d : Diagnostic) : Prop :=
  ∃ (v : Violation) (tag : Tag), v.isMended = false ∧ d = v.diagnostic tag

theorem isUnmended_contentResidue {tag : Tag} {children : List Node} {model : ContentModel} :
    ∀ d ∈ contentResidue tag children model, IsUnmended d := by
  intro d hd
  cases model with
  | token =>
    rw [contentResidue] at hd
    cases h : childTags children with
    | nil => simp [h, tokenViolations] at hd
    | cons child rest =>
      simp only [h, tokenViolations, List.mem_singleton] at hd
      exact ⟨_, _, rfl, hd⟩
  | empty =>
    rw [contentResidue] at hd
    split at hd
    · exact ⟨_, _, rfl, List.mem_singleton.1 hd⟩
    · simp at hd
  | operands count =>
    rw [contentResidue] at hd
    split at hd
    · simp at hd
    · exact ⟨_, _, rfl, List.mem_singleton.1 hd⟩
  | row | single | table | tableRow | unchecked => simp [contentResidue] at hd

mutual

theorem isUnmended_residue : ∀ (n : Node), ∀ d ∈ residue n, IsUnmended d
  | .text _ => by simp [residue]
  | .element tag children => by
    intro d hd
    rw [residue] at hd
    cases hmodel : contentModel? tag.name with
    | none =>
      simp only [hmodel, List.mem_singleton] at hd
      exact ⟨_, _, rfl, hd⟩
    | some model =>
      simp only [hmodel, List.mem_append] at hd
      rcases hd with hd | hd
      · exact isUnmended_contentResidue d hd
      · split at hd
        · exact isUnmended_residueAll children d hd
        · simp at hd

theorem isUnmended_residueAll : ∀ (children : List Node), ∀ d ∈ residueAll children, IsUnmended d
  | [] => by simp [residueAll]
  | n :: rest => by
    intro d hd
    rw [residueAll, List.mem_append] at hd
    rcases hd with hd | hd
    · exact isUnmended_residue n d hd
    · exact isUnmended_residueAll rest d hd

end

/-- The violations of a root do not depend on its namespace. -/
theorem violations_repairedRoot (root : Element) :
    violations (repairedRoot root).toNode = residue root.toNode := by
  rw [← violations_repaired]
  obtain ⟨tag, children⟩ := root
  have helement := isElement_repaired tag children
  simp only [repairedRoot, Element.toNode]
  cases hrep : repaired (.element tag children) with
  | text s => simp [hrep, Node.isElement] at helement
  | element t cs =>
    simp only [violations, withNamespace]
    split <;> rfl

theorem tag_repairedRoot (root : Element) :
    (repairedRoot root).tag = withNamespace (withRequired root.tag) := by
  obtain ⟨tag, children⟩ := root
  simp only [repairedRoot, Element.toNode, repaired]
  split
  · rename_i t cs h
    split at h
    · split at h <;> cases h <;> rfl
    · cases h
      rfl
  · rename_i s h
    split at h
    · split at h <;> cases h
    · cases h

/-- **Repair is complete.** A `math` root without a foreign namespace is valid after repair exactly
when the tree was repairable, and no violation of a mended kind is ever left. -/
theorem isValid_repairedRoot (config : Config) (root : Element) (hchecks : config.grammarChecks = true)
    (hname : root.tag.name = "math") (hspace : root.tag.space ∈ [none, some mathNamespace]) :
    (validateTree config (repairedRoot root)).isValid = isRepairable root.toNode ∧
    (validateTree config (repairedRoot root)).lacksNamespace = false ∧
    ∀ d ∈ (validateTree config (repairedRoot root)).diagnostics, IsUnmended d := by
  have htag := tag_repairedRoot root
  have hroot : (repairedRoot root).tag.name = "math" := by
    rw [htag, withNamespace]
    split <;> exact hname
  have hns : (repairedRoot root).tag.space = some mathNamespace := by
    rw [htag, withNamespace]
    simp only [List.mem_cons, List.not_mem_nil, or_false] at hspace
    rcases hspace with h | h <;> simp [needsNamespace, withRequired, hname, h]
  have hdiag : (validateTree config (repairedRoot root)).diagnostics = residue root.toNode := by
    simp [validateTree, rootViolations, spaceViolations, hroot, hns, hchecks, violations_repairedRoot]
  refine ⟨?_, by simp [validateTree, hns], by rw [hdiag]; exact isUnmended_residue _⟩
  rw [Validation.isValid, hdiag, Bool.eq_iff_iff, List.isEmpty_iff]
  exact residue_eq_nil _

/-- A fraction of a number and a loose text, and a table with a stray cell, are repairable. -/
theorem isValid_repairedRoot_stray :
    (validateTree {} (repairedRoot ⟨{ name := "math" }, [
      .element { name := "mfrac" } [.element { name := "mn" } [.text ['1']], .text ['x']],
      .element { name := "mtable" } [.element { name := "mtd" } []]]⟩)).isValid = true :=
  (isValid_repairedRoot {} _ rfl rfl (by decide)).1.trans (by decide)

end MathMarkup.MathML
