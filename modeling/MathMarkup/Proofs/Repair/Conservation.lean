import MathMarkup.MathML.Repair
import MathMarkup.Proofs.Xml.Lines

/-!
# What repair leaves in place

The elements that repair makes stand on no line. `unspliced` takes them out of a tree again, each of
them making room for its children, and then the original is back: every element with its name, its
namespace, its line and its children in order. Two things are added on the way (`polished`): required
attributes behind the others, and trimmed texts where the content of an element is looked into.

Main theorem: `unspliced_repaired_toNode`.
-/

namespace MathMarkup.MathML

open Text Xml

/-! ## Made elements -/

mutual

/-- What is left of a node when every made element makes room for its children. -/
def unspliced : Node → List Node
  | .text s => [.text s]
  | .element tag children =>
    if 0 < tag.line then [.element tag (unsplicedAll children)] else unsplicedAll children

def unsplicedAll : List Node → List Node
  | [] => []
  | n :: rest => unspliced n ++ unsplicedAll rest

end

mutual

/-- The tree with the two changes that repair makes to what is there. Elements are reached through such
as are known and are no token, no empty and no unchecked element; these have their texts trimmed. -/
def polished : Node → Node
  | .text s => .text s
  | .element tag children =>
    .element { tag with attributes := tag.attributes ++ missingAttributes tag }
      (if isWalked tag.name then polishedAll children else children)

def polishedAll : List Node → List Node
  | [] => []
  | .text s :: rest => .text (trim s) :: polishedAll rest
  | n :: rest => polished n :: polishedAll rest

end

theorem unspliced_made (name : String) (children : List Node) :
    unspliced (.made name children) = unsplicedAll children := rfl

theorem unspliced_tokenOf (s : List Char) : unspliced (tokenOf s) = [.text (trim s)] := rfl

theorem unspliced_element_of_pos {tag : Tag} (h : 0 < tag.line) (children : List Node) :
    unspliced (.element tag children) = [.element tag (unsplicedAll children)] := by
  rw [unspliced, if_pos h]

mutual

/-- Nothing was made in a tree all of whose elements stand on lines. -/
theorem unspliced_eq_self : ∀ {n : Node}, isPlaced n = true → unspliced n = [n]
  | .text _, _ => rfl
  | .element tag children, h => by
    rw [isPlaced, Bool.and_eq_true, decide_eq_true_eq] at h
    rw [unspliced_element_of_pos h.1, unsplicedAll_eq_self h.2]

theorem unsplicedAll_eq_self : ∀ {children : List Node}, isPlacedAll children = true →
    unsplicedAll children = children
  | [], _ => rfl
  | n :: rest, h => by
    rw [isPlacedAll, Bool.and_eq_true] at h
    rw [unsplicedAll, unspliced_eq_self h.1, unsplicedAll_eq_self h.2, List.singleton_append]

end

/-! ## Wrapping -/

theorem unspliced_wrapUnless (accepted : String → Bool) (wrapper : String) (n : Node) :
    unspliced (wrapUnless accepted wrapper n) = unspliced n := by
  cases n with
  | text s => rfl
  | element tag children =>
    rw [wrapUnless]
    split
    · rfl
    · rw [unspliced_made, unsplicedAll, unsplicedAll, List.append_nil]

theorem unspliced_asTableRow (n : Node) : unspliced (asTableRow n) = unspliced n := by
  cases n with
  | text s => rfl
  | element tag children =>
    rw [asTableRow]
    split
    · rfl
    · rw [unspliced_made, unsplicedAll, unsplicedAll, List.append_nil, unspliced_wrapUnless]

theorem unsplicedAll_map {f : Node → Node} (h : ∀ n, unspliced (f n) = unspliced n) (children : List Node) :
    unsplicedAll (children.map f) = unsplicedAll children := by
  induction children with
  | nil => rfl
  | cons n rest ih => rw [List.map_cons, unsplicedAll, unsplicedAll, h, ih]

/-- Taking the wrappers out again undoes wrapping, whatever the content model. -/
theorem unsplicedAll_wrapped (model : ContentModel) (children : List Node) :
    unsplicedAll (wrapped model children) = unsplicedAll children := by
  cases model with
  | single =>
    rw [wrapped]
    split
    · rw [unsplicedAll, unspliced_made, unsplicedAll, List.append_nil]
    · rfl
  | operands count => exact unsplicedAll_map (unspliced_wrapUnless (· == "mrow") "mrow") children
  | table => exact unsplicedAll_map unspliced_asTableRow children
  | tableRow => exact unsplicedAll_map (unspliced_wrapUnless (· == "mtd") "mtd") children
  | token | empty | row | unchecked => rfl

/-! ## Repair -/

/-- The content of a repaired element: wrapped when it is looked into, and the same otherwise. -/
theorem repaired_element (tag : Tag) (children : List Node) :
    (∃ model, isWalked tag.name = true ∧
      repaired (.element tag children) = .element (withRequired tag) (wrapped model (repairedAll children))) ∨
    (isWalked tag.name = false ∧ repaired (.element tag children) = .element (withRequired tag) children) := by
  rw [repaired, isWalked]
  cases contentModel? tag.name with
  | none => exact Or.inr ⟨rfl, rfl⟩
  | some model =>
    cases hwalked : model.isWalked with
    | true => exact Or.inl ⟨model, hwalked, by simp [hwalked]⟩
    | false => exact Or.inr ⟨hwalked, by simp [hwalked]⟩

mutual

/-- Where all elements stand on lines, what was made can be told from what was there. -/
theorem unspliced_repaired : ∀ n : Node, isPlaced n = true → unspliced (repaired n) = [polished n]
  | .text _, _ => rfl
  | .element tag children, h => by
    rw [isPlaced, Bool.and_eq_true, decide_eq_true_eq] at h
    obtain ⟨hline, hchildren⟩ := h
    have hplaced : 0 < (withRequired tag).line := hline
    rw [polished]
    rcases repaired_element tag children with ⟨model, hwalked, hrepaired⟩ | ⟨hwalked, hrepaired⟩
    · rw [hrepaired, unspliced_element_of_pos hplaced, unsplicedAll_wrapped,
        unsplicedAll_repairedAll children hchildren, hwalked, if_pos rfl]
      rfl
    · rw [hrepaired, unspliced_element_of_pos hplaced, unsplicedAll_eq_self hchildren, hwalked,
        if_neg Bool.false_ne_true]
      rfl

theorem unsplicedAll_repairedAll : ∀ children : List Node, isPlacedAll children = true →
    unsplicedAll (repairedAll children) = polishedAll children
  | [], _ => rfl
  | .text s :: rest, h => by
    rw [isPlacedAll, Bool.and_eq_true] at h
    rw [repairedAll, unsplicedAll, unspliced_tokenOf, unsplicedAll_repairedAll rest h.2, polishedAll,
      List.singleton_append]
  | .element tag cs :: rest, h => by
    rw [isPlacedAll, Bool.and_eq_true] at h
    have hfirst := unspliced_repaired (.element tag cs) h.1
    have hrest := unsplicedAll_repairedAll rest h.2
    rw [repairedAll, unsplicedAll, hfirst, hrest, polishedAll, List.singleton_append]
    all_goals simp

end

/-- **Repair only adds structure.** In what was read every element stands on a line; and of a tree in
which this is so, taking the made elements out of the repaired tree gives the tree back, with the missing
required attributes added and the texts of the elements that are looked into trimmed. -/
theorem unspliced_repaired_toNode :
    (∀ s root, parse s = .ok root → isPlaced root.toNode = true) ∧
    ∀ root : Element, isPlaced root.toNode = true →
      unspliced (repaired root.toNode) = [polished root.toNode] :=
  ⟨fun _ _ h => isPlaced_of_parse h, fun root h => unspliced_repaired root.toNode h⟩

/-- A table with a loose text and a stray cell is wrapped four times; without the wrappers it is back. -/
theorem unspliced_repaired_toNode_table :
    let cell : Tag := { name := "mtd", attributes := [("id", ['c'])], line := 3 }
    let image : Tag := { name := "mglyph", line := 4 }
    let table (children : List Node) : Node := .element { name := "mtable", line := 2 } children
    let read := table [.text [' ', 'x'], .element cell [.element image []]]
    isPlaced read = true ∧
      repaired read = table [
        .made "mtr" [.made "mtd" [.made "mi" [.text ['x']]]],
        .made "mtr" [.element cell [.element { image with attributes := [("alt", [])] } []]]] ∧
      unspliced (repaired read) =
        [table [.text ['x'], .element cell [.element { image with attributes := [("alt", [])] } []]]] :=
  ⟨by decide, rfl, (unspliced_repaired_toNode.2 ⟨{ name := "mtable", line := 2 }, _⟩ (by decide)).trans rfl⟩

end MathMarkup.MathML
