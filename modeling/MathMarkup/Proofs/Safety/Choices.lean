import MathMarkup.MathML.Sanitize

/-!
# What sanitizing takes out

A choice (`semantics`, `maction`) makes room for its first child that is shown. That child is treated
as a root is, so its own name is not looked at: when it is a choice itself, it stays. `hidesChoice`
finds such choices in the tree as it was.

Main theorem `isSuspect_sanitized`: below a sanitized root there are no annotations, and there are
choices, and something to take out once more, exactly when a choice showed a choice.
-/

namespace MathMarkup.MathML

open Text Xml

variable {P : Tag → Prop}

/-! ## The tags of a tree -/

mutual

/-- The tags in a node, its own one first, in the order of the text. -/
def tagsIn : Node → List Tag
  | .text _ => []
  | .element tag children => tag :: tagsInAll children

def tagsInAll : List Node → List Tag
  | [] => []
  | n :: rest => tagsIn n ++ tagsInAll rest

end

/-- Is it a tag that sanitizing does not leave as it is? -/
def isSuspectTag (tag : Tag) : Bool :=
  isAnnotation tag.name || isChoice tag.name || !tag.attributes.all isSafe

theorem tagsInAll_append (a b : List Node) : tagsInAll (a ++ b) = tagsInAll a ++ tagsInAll b := by
  induction a with
  | nil => rfl
  | cons n a ih => rw [List.cons_append, tagsInAll, tagsInAll, ih, List.append_assoc]

theorem tagsInAll_element (tag : Tag) (children : List Node) :
    tagsInAll [.element tag children] = tag :: tagsInAll children := by
  rw [tagsInAll, tagsIn, tagsInAll, List.append_nil]

mutual

theorem isSuspectChild_eq_any : ∀ n : Node, isSuspectChild n = (tagsIn n).any isSuspectTag
  | .text _ => rfl
  | .element tag children => by
    rw [isSuspectChild, tagsIn, List.any_cons, hasSuspect_eq_any children]
    rfl

/-- There is something to take out when some tag is suspect. -/
theorem hasSuspect_eq_any : ∀ children : List Node, hasSuspect children = (tagsInAll children).any isSuspectTag
  | [] => rfl
  | n :: rest => by
    rw [hasSuspect, tagsInAll, List.any_append, isSuspectChild_eq_any n, hasSuspect_eq_any rest]

end

/-! ## Tags that stay -/

mutual

/-- What is left of a child are tags that are no annotations, with their safe attributes. -/
theorem forall_tags_sanitizedChild (h : ∀ tag : Tag, isAnnotation tag.name = false → P (safeTag tag)) :
    ∀ n : Node, ∀ t ∈ tagsInAll (sanitizedChild n), P t
  | .text _ => by simp [sanitizedChild, tagsInAll, tagsIn]
  | .element tag children => by
    intro t ht
    rw [sanitizedChild] at ht
    split at ht
    · cases ht
    · rename_i hannotation
      split at ht
      · exact forall_tags_firstShown h children t ht
      · rw [tagsInAll_element, List.mem_cons] at ht
        rcases ht with rfl | ht
        · exact h tag (by simpa using hannotation)
        · exact forall_tags_sanitizedChildren h children t ht

theorem forall_tags_sanitizedChildren (h : ∀ tag : Tag, isAnnotation tag.name = false → P (safeTag tag)) :
    ∀ children : List Node, ∀ t ∈ tagsInAll (sanitizedChildren children), P t
  | [] => by simp [sanitizedChildren, tagsInAll]
  | n :: rest => by
    intro t ht
    rw [sanitizedChildren, tagsInAll_append, List.mem_append] at ht
    rcases ht with ht | ht
    · exact forall_tags_sanitizedChild h n t ht
    · exact forall_tags_sanitizedChildren h rest t ht

theorem forall_tags_firstShown (h : ∀ tag : Tag, isAnnotation tag.name = false → P (safeTag tag)) :
    ∀ children : List Node, ∀ t ∈ tagsInAll (firstShown children), P t
  | [] => by simp [firstShown, tagsInAll]
  | .text _ :: rest => by
    rw [firstShown]
    exact forall_tags_firstShown h rest
  | .element tag children :: rest => by
    intro t ht
    rw [firstShown] at ht
    split at ht
    · exact forall_tags_firstShown h rest t ht
    · rename_i hannotation
      rw [tagsInAll_element, List.mem_cons] at ht
      rcases ht with rfl | ht
      · exact h tag (by simpa using hannotation)
      · exact forall_tags_sanitizedChildren h children t ht

end

theorem all_isSafe_safeTag (tag : Tag) : (safeTag tag).attributes.all isSafe = true := by
  rw [safeTag, List.all_eq_true]
  exact fun a ha => (List.mem_filter.1 ha).2

/-! ## Choices that stay -/

mutual

/-- Is there a choice, among what is reached in the node, that shows a choice? -/
def hidesChoice : Node → Bool
  | .text _ => false
  | .element tag children =>
    if isAnnotation tag.name then false
    else if isChoice tag.name then showsChoice children
    else hidesChoiceAll children

def hidesChoiceAll : List Node → Bool
  | [] => false
  | n :: rest => hidesChoice n || hidesChoiceAll rest

/-- The same for the children of a choice, of which the first one that is shown is reached. -/
def showsChoice : List Node → Bool
  | [] => false
  | .text _ :: rest => showsChoice rest
  | .element tag children :: rest =>
    if isAnnotation tag.name then showsChoice rest else isChoice tag.name || hidesChoiceAll children

end

mutual

theorem any_isChoice_sanitizedChild : ∀ n : Node,
    ((tagsInAll (sanitizedChild n)).any fun t => isChoice t.name) = hidesChoice n
  | .text _ => rfl
  | .element tag children => by
    rw [sanitizedChild, hidesChoice]
    split
    · rfl
    · split
      · exact any_isChoice_firstShown children
      · rename_i hchoice
        have hname : isChoice (safeTag tag).name = false := by simpa [safeTag] using hchoice
        rw [tagsInAll_element, List.any_cons, hname, Bool.false_or,
          any_isChoice_sanitizedChildren children]

/-- The choices that stay are those that a choice has shown. -/
theorem any_isChoice_sanitizedChildren : ∀ children : List Node,
    ((tagsInAll (sanitizedChildren children)).any fun t => isChoice t.name) = hidesChoiceAll children
  | [] => rfl
  | n :: rest => by
    rw [sanitizedChildren, tagsInAll_append, List.any_append, any_isChoice_sanitizedChild n,
      any_isChoice_sanitizedChildren rest, hidesChoiceAll]

theorem any_isChoice_firstShown : ∀ children : List Node,
    ((tagsInAll (firstShown children)).any fun t => isChoice t.name) = showsChoice children
  | [] => rfl
  | .text _ :: rest => by
    rw [firstShown, showsChoice]
    exact any_isChoice_firstShown rest
  | .element tag children :: rest => by
    rw [firstShown, showsChoice]
    split
    · exact any_isChoice_firstShown rest
    · rw [tagsInAll_element, List.any_cons, any_isChoice_sanitizedChildren children]
      rfl

end

/-- Of the three ways to be suspect, only the name of a choice is left. -/
theorem any_isSuspectTag_sanitizedChildren (children : List Node) :
    (tagsInAll (sanitizedChildren children)).any isSuspectTag = hidesChoiceAll children := by
  have hclean : ∀ t ∈ tagsInAll (sanitizedChildren children),
      isAnnotation t.name = false ∧ t.attributes.all isSafe = true :=
    forall_tags_sanitizedChildren (fun tag h => ⟨h, all_isSafe_safeTag tag⟩) children
  rw [← any_isChoice_sanitizedChildren, Bool.eq_iff_iff, List.any_eq_true, List.any_eq_true]
  refine exists_congr fun t => and_congr_right fun ht => ?_
  rw [isSuspectTag, (hclean t ht).1, (hclean t ht).2, Bool.false_or, Bool.not_true, Bool.or_false]

/-! ## Twice -/

/-- **Sanitizing leaves the choices that a choice has shown**, and nothing else that it takes out: below
a sanitized root there is no annotation, there is a `semantics` or `maction` exactly when one of them
had another one as its first shown child, and then only, there is something to take out once more. -/
theorem isSuspect_sanitized (root : Element) :
    (∀ t ∈ tagsInAll (sanitized root).children, isAnnotation t.name = false) ∧
    ((∀ t ∈ tagsInAll (sanitized root).children, isChoice t.name = false) ↔
      hidesChoiceAll root.children = false) ∧
    isSuspect (sanitized root) = hidesChoiceAll root.children := by
  refine ⟨?_, ?_, ?_⟩
  · exact forall_tags_sanitizedChildren (fun _ h => h) root.children
  · rw [← any_isChoice_sanitizedChildren, List.any_eq_false]
    simp [sanitized]
  · have hsafe : (sanitized root).tag.attributes.all isSafe = true := all_isSafe_safeTag root.tag
    rw [isSuspect, hsafe, Bool.not_true, Bool.false_or, hasSuspect_eq_any]
    exact any_isSuspectTag_sanitizedChildren root.children

/-- A choice in a choice stays when the outer one is taken out, and goes when sanitizing again. -/
theorem isSuspect_sanitized_nested :
    let leaf : Node := .element { name := "mi" } [.text ['x']]
    let inner : Node := .element { name := "semantics" } [leaf]
    let root : Element := ⟨{ name := "math" }, [.element { name := "semantics" } [inner]]⟩
    sanitized root = ⟨{ name := "math" }, [inner]⟩ ∧
      (∃ t ∈ tagsInAll (sanitized root).children, isChoice t.name = true) ∧
      isSuspect (sanitized root) = true ∧
      sanitized (sanitized root) = ⟨{ name := "math" }, [leaf]⟩ :=
  ⟨rfl, ⟨{ name := "semantics" }, by decide, by decide⟩, rfl, rfl⟩

end MathMarkup.MathML
