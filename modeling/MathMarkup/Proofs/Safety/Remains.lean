import MathMarkup.Proofs.Safety.Choices
import MathMarkup.Proofs.Text.Search

/-!
# What sanitizing leaves

Sanitizing takes elements out of a tree, with all that is in them or so that they make room for what is in
them, and it takes attributes out of the elements that stay (`Thins`). Read in the order of the text, the
elements and texts that stay are those of the original one after the other, and all that are neither in an
annotation nor in a choice are among them.

Main theorem `thins_sanitized`: besides, nothing that is not safe stays, and the tree changes exactly if there
was something to take out.
-/

namespace MathMarkup.MathML

open Text Xml

/-! ## Safe attributes -/

theorem isSafe_iff {a : String × List Char} : isSafe a = true ↔
    ¬ "on".toList <+: a.1.toList.map Char.toLower ∧
      ¬ "javascript:".toList <+: (trimStart a.2).map Char.toLower := by
  rw [isSafe, isHandler, isScript, Bool.and_eq_true, Bool.not_eq_true', Bool.not_eq_true',
    Option.isSome_eq_false_iff, Option.isSome_eq_false_iff, Option.isNone_iff_eq_none, Option.isNone_iff_eq_none,
    after?_eq_none_iff, after?_eq_none_iff]

/-! ## Elements and texts in order -/

/-- An element, told by its tag, or a text. -/
abbrev Entry := Tag ⊕ List Char

mutual

/-- The elements and texts in a node, an element before what is in it. -/
def entriesIn : Node → List Entry
  | .text s => [.inr s]
  | .element tag children => .inl tag :: entriesInAll children

def entriesInAll : List Node → List Entry
  | [] => []
  | n :: rest => entriesIn n ++ entriesInAll rest

end

/-- The entry with its safe attributes only. -/
def safeEntry : Entry → Entry := Sum.map safeTag id

mutual

/-- The elements and texts in a node that are neither annotations or choices nor in such elements. -/
def entriesOutside : Node → List Entry
  | .text s => [.inr s]
  | .element tag children =>
    if isAnnotation tag.name || isChoice tag.name then [] else .inl tag :: entriesOutsideAll children

def entriesOutsideAll : List Node → List Entry
  | [] => []
  | n :: rest => entriesOutside n ++ entriesOutsideAll rest

end

/-! ## Thinning -/

/-- `Thins all kept`: nodes are left out of `all`, each with all that is in it or making room for what is in it.
The others are `kept` in their places, elements with their safe attributes only. -/
inductive Thins : List Node → List Node → Prop
  | nil : Thins [] []
  | without (n : Node) {rest kept : List Node} (hrest : Thins rest kept) : Thins (n :: rest) kept
  | opened (tag : Tag) {children rest kept : List Node} (hrest : Thins (children ++ rest) kept) :
      Thins (.element tag children :: rest) kept
  | text (s : List Char) {rest kept : List Node} (hrest : Thins rest kept) : Thins (.text s :: rest) (.text s :: kept)
  | element (tag : Tag) {children inner rest kept : List Node} (hinner : Thins children inner)
      (hrest : Thins rest kept) : Thins (.element tag children :: rest) (.element (safeTag tag) inner :: kept)

variable {all all' kept kept' : List Node}

theorem entriesInAll_append (a b : List Node) : entriesInAll (a ++ b) = entriesInAll a ++ entriesInAll b := by
  induction a with
  | nil => rfl
  | cons n a ih => rw [List.cons_append, entriesInAll, entriesInAll, ih, List.append_assoc]

/-- What is kept stands in the original in this order. -/
theorem Thins.sublist (h : Thins all kept) : (entriesInAll kept).Sublist ((entriesInAll all).map safeEntry) := by
  induction h with
  | nil => exact List.Sublist.refl []
  | without n hrest ih =>
    rw [entriesInAll, List.map_append]
    exact ih.trans (List.sublist_append_right _ _)
  | opened tag hrest ih =>
    rw [entriesInAll, entriesIn, List.cons_append, List.map_cons, ← entriesInAll_append]
    exact ih.cons _
  | text s hrest ih => exact ih.cons_cons _
  | element tag hinner hrest ihinner ihrest =>
    rw [entriesInAll, entriesInAll, entriesIn, entriesIn, List.map_append, List.map_cons]
    exact (ihinner.cons_cons _).append ihrest

theorem Thins.length_le (h : Thins all kept) : (entriesInAll kept).length ≤ (entriesInAll all).length := by
  have := h.sublist.length_le
  rwa [List.length_map] at this

theorem Thins.append (h : Thins all kept) (h' : Thins all' kept') :
    Thins (all ++ all') (kept ++ kept') := by
  induction h with
  | nil => exact h'
  | without n hrest ih => exact .without n ih
  | opened tag hrest ih =>
    rw [List.append_assoc] at ih
    exact .opened tag ih
  | text s hrest ih => exact .text s ih
  | element tag hinner hrest ihinner ihrest => exact .element tag hinner ihrest

theorem thins_nothing (all : List Node) : Thins all [] := by
  induction all with
  | nil => exact .nil
  | cons n rest ih => exact .without n ih

mutual

theorem thins_sanitizedChild : ∀ n : Node, Thins [n] (sanitizedChild n)
  | .text s => .text s .nil
  | .element tag children => by
    rw [sanitizedChild]
    split
    · exact thins_nothing _
    split
    · -- a choice makes room for its children, of which one may stay
      refine .opened tag ?_
      rw [List.append_nil]
      exact thins_firstShown children
    · exact .element tag (thins_sanitizedChildren children) .nil

theorem thins_sanitizedChildren : ∀ children : List Node, Thins children (sanitizedChildren children)
  | [] => .nil
  | n :: rest => by
    rw [sanitizedChildren]
    exact (thins_sanitizedChild n).append (thins_sanitizedChildren rest)

theorem thins_firstShown : ∀ children : List Node, Thins children (firstShown children)
  | [] => .nil
  | .text s :: rest => by
    rw [firstShown]
    exact .without _ (thins_firstShown rest)
  | .element tag children :: rest => by
    rw [firstShown]
    split
    · exact .without _ (thins_firstShown rest)
    · exact .element tag (thins_sanitizedChildren children) (thins_nothing rest)

end

mutual

theorem entriesOutside_sublist : ∀ n : Node,
    ((entriesOutside n).map safeEntry).Sublist (entriesInAll (sanitizedChild n))
  | .text s => List.Sublist.refl _
  | .element tag children => by
    rw [entriesOutside, sanitizedChild]
    by_cases hnote : isAnnotation tag.name = true
    · rw [hnote, Bool.true_or, if_pos rfl]
      exact List.nil_sublist _
    by_cases hchoice : isChoice tag.name = true
    · rw [hchoice, Bool.or_true, if_pos rfl]
      exact List.nil_sublist _
    · rw [if_neg (by simp [hnote, hchoice]), if_neg hnote, if_neg hchoice, entriesInAll, entriesIn,
        entriesInAll, List.append_nil]
      exact (entriesOutsideAll_sublist children).cons_cons _

/-- What is neither in an annotation nor in a choice stays. -/
theorem entriesOutsideAll_sublist : ∀ children : List Node,
    ((entriesOutsideAll children).map safeEntry).Sublist (entriesInAll (sanitizedChildren children))
  | [] => List.Sublist.refl _
  | n :: rest => by
    rw [entriesOutsideAll, sanitizedChildren, List.map_append, entriesInAll_append]
    exact (entriesOutside_sublist n).append (entriesOutsideAll_sublist rest)

end

/-! ## Trees that stay as they are -/

theorem safeTag_eq_self {tag : Tag} (h : tag.attributes.all isSafe = true) : safeTag tag = tag := by
  rw [safeTag, List.filter_eq_self.2 (List.all_eq_true.1 h)]

mutual

theorem sanitizedChild_eq_self : ∀ n : Node, isSuspectChild n = false → sanitizedChild n = [n]
  | .text _, _ => rfl
  | .element tag children, h => by
    simp only [isSuspectChild, Bool.or_eq_false_iff, Bool.not_eq_false'] at h
    obtain ⟨⟨⟨hnote, hchoice⟩, hsafe⟩, hchildren⟩ := h
    rw [sanitizedChild, hnote, hchoice, if_neg Bool.false_ne_true, if_neg Bool.false_ne_true,
      safeTag_eq_self hsafe, sanitizedChildren_eq_self children hchildren]

theorem sanitizedChildren_eq_self : ∀ children : List Node,
    hasSuspect children = false → sanitizedChildren children = children
  | [], _ => rfl
  | n :: rest, h => by
    rw [hasSuspect, Bool.or_eq_false_iff] at h
    rw [sanitizedChildren, sanitizedChild_eq_self n h.1, sanitizedChildren_eq_self rest h.2,
      List.singleton_append]

end

mutual

/-- When as many entries stay as there were, none of them was taken out because of its name. -/
theorem forall_tags_of_length_child : ∀ n : Node,
    (entriesIn n).length ≤ (entriesInAll (sanitizedChild n)).length →
      ∀ t ∈ tagsIn n, isAnnotation t.name = false ∧ isChoice t.name = false
  | .text _, _ => by simp [tagsIn]
  | .element tag children, hlength => by
    rw [sanitizedChild] at hlength
    by_cases hnote : isAnnotation tag.name = true
    · rw [if_pos hnote] at hlength
      simp [entriesIn, entriesInAll] at hlength
    by_cases hchoice : isChoice tag.name = true
    · rw [if_neg hnote, if_pos hchoice, entriesIn, List.length_cons] at hlength
      have := (thins_firstShown children).length_le
      omega
    · rw [if_neg hnote, if_neg hchoice, entriesIn, entriesInAll, entriesIn, entriesInAll,
        List.append_nil, List.length_cons, List.length_cons] at hlength
      rw [tagsIn, List.forall_mem_cons]
      exact ⟨⟨by simpa using hnote, by simpa using hchoice⟩,
        forall_tags_of_length children (Nat.le_of_succ_le_succ hlength)⟩

theorem forall_tags_of_length : ∀ children : List Node,
    (entriesInAll children).length ≤ (entriesInAll (sanitizedChildren children)).length →
      ∀ t ∈ tagsInAll children, isAnnotation t.name = false ∧ isChoice t.name = false
  | [], _ => by simp [tagsInAll]
  | n :: rest, hlength => by
    have hfirst := (thins_sanitizedChild n).length_le
    have hrest := (thins_sanitizedChildren rest).length_le
    simp only [sanitizedChildren, entriesInAll, entriesInAll_append, List.length_append, List.length_nil]
      at hlength hfirst
    rw [tagsInAll, List.forall_mem_append]
    exact ⟨forall_tags_of_length_child n (by omega), forall_tags_of_length rest (by omega)⟩

end

/-- A tree stays as it is exactly if there is nothing to take out. -/
theorem sanitized_eq_self_iff (root : Element) : sanitized root = root ↔ isSuspect root = false := by
  constructor
  · intro h
    have hchildren : sanitizedChildren root.children = root.children := congrArg Element.children h
    have hroot : root.tag.attributes.all isSafe = true :=
      congrArg Element.tag h ▸ all_isSafe_safeTag root.tag
    have hnames := forall_tags_of_length root.children (Nat.le_of_eq (by rw [hchildren]))
    have hsafe := forall_tags_sanitizedChildren (P := fun t => t.attributes.all isSafe = true)
      (fun tag _ => all_isSafe_safeTag tag) root.children
    rw [hchildren] at hsafe
    rw [isSuspect, hroot, Bool.not_true, Bool.false_or, hasSuspect_eq_any, List.any_eq_false]
    intro t ht
    simp [isSuspectTag, hnames t ht, hsafe t ht]
  · intro h
    rw [isSuspect, Bool.or_eq_false_iff, Bool.not_eq_false'] at h
    rw [sanitized, safeTag_eq_self h.1, sanitizedChildren_eq_self root.children h.2]

/-! ## All of it -/

/-- **What sanitizing leaves.** There is something to take out exactly if the tree changes. Nowhere in the
sanitized tree there is a handler or a script, and no annotation below its root. The tree is thinned: its
elements and texts are some of the original ones in the original order, with all other attributes, and below
the root they are at least those that are neither in an annotation nor in a choice. -/
theorem thins_sanitized (root : Element) :
    (isSuspect root = true ↔ sanitized root ≠ root) ∧
    (∀ t ∈ tagsIn (sanitized root).toNode, ∀ a ∈ t.attributes, ¬ "on".toList <+: a.1.toList.map Char.toLower ∧
      ¬ "javascript:".toList <+: (trimStart a.2).map Char.toLower) ∧
    (∀ t ∈ tagsInAll (sanitized root).children, t.name ≠ "annotation" ∧ t.name ≠ "annotation-xml") ∧
    Thins [root.toNode] [(sanitized root).toNode] ∧
    (entriesIn (sanitized root).toNode).Sublist ((entriesIn root.toNode).map safeEntry) ∧
    ((entriesOutsideAll root.children).map safeEntry).Sublist (entriesInAll (sanitized root).children) := by
  have hthins : Thins [root.toNode] [(sanitized root).toNode] :=
    .element root.tag (thins_sanitizedChildren root.children) .nil
  refine ⟨?_, ?_, ?_, hthins, ?_, entriesOutsideAll_sublist root.children⟩
  · rw [ne_eq, sanitized_eq_self_iff, Bool.not_eq_false]
  · intro t ht a ha
    have hsafe : t.attributes.all isSafe = true := by
      rcases List.mem_cons.1 ht with rfl | ht
      · exact all_isSafe_safeTag root.tag
      · exact forall_tags_sanitizedChildren (P := fun t => t.attributes.all isSafe = true)
          (fun tag _ => all_isSafe_safeTag tag) root.children t ht
    exact isSafe_iff.1 (List.all_eq_true.1 hsafe a ha)
  · intro t ht
    have hname : isAnnotation t.name = false :=
      forall_tags_sanitizedChildren (P := fun t => isAnnotation t.name = false) (fun _ h => h) root.children t ht
    unfold isAnnotation at hname
    simpa using hname
  · have hsublist := hthins.sublist
    rwa [entriesInAll, entriesInAll, entriesInAll, entriesInAll, List.append_nil, List.append_nil] at hsublist

/-- A choice with an annotation in front makes room for a token, which loses its handler, and a text stays. -/
theorem thins_sanitized_choice :
    let token (attributes : List (String × List Char)) : Node :=
      .element { name := "mi", attributes := attributes } [.text ['x']]
    let note : Node := .element { name := "annotation" } [.text ['n']]
    let choice : Node := .element { name := "semantics" } [note, token [("onclick", ['a']), ("id", ['i'])]]
    let root : Element := ⟨{ name := "math" }, [choice, .text ['y']]⟩
    sanitized root = ⟨{ name := "math" }, [token [("id", ['i'])], .text ['y']]⟩ ∧ sanitized root ≠ root ∧
      (entriesIn (sanitized root).toNode).Sublist ((entriesIn root.toNode).map safeEntry) := by
  intro token note choice root
  obtain ⟨hchanged, -, -, -, hsublist, -⟩ := thins_sanitized root
  exact ⟨rfl, hchanged.1 rfl, hsublist⟩

end MathMarkup.MathML
