import MathMarkup.Proofs.Markup.Document

/-!
# The symbols of a document

The texts of the elements for identifiers, numbers and operators are what a formula shows. What is read of
sound markup shows the same ones (`showsAlike_of_sound`), as long as reading changes none of them: a
carriage return would be read as a line feed, and a text of blanks would be dropped.

Main theorem: `symbols_of_parse_math`.
-/

namespace MathMarkup.MathML

open Text Xml

/-! ## Symbols -/

/-- Is this the name of an element for an identifier, a number or an operator? -/
def isSymbolElement (name : String) : Bool := name == "mi" || name == "mn" || name == "mo"

/-- The texts among the children of an element. -/
def ownTexts (children : List Node) : List (List Char) :=
  children.filterMap fun
    | .text s => some s
    | .element .. => none

mutual

/-- The texts of the elements for identifiers, numbers and operators, in document order. -/
def nodeSymbols : Node → List (List Char)
  | .text _ => []
  | .element tag children => (if isSymbolElement tag.name then ownTexts children else []) ++ allNodeSymbols children

def allNodeSymbols : List Node → List (List Char)
  | [] => []
  | n :: ns => nodeSymbols n ++ allNodeSymbols ns

end

namespace Markup

/-- The texts among the children of an element. -/
def ownTexts (children : List Markup) : List (List Char) :=
  children.filterMap fun
    | .text s => some s
    | .element .. | .void .. => none

mutual

/-- The texts of the elements for identifiers, numbers and operators, in the order in which they are
written. -/
def symbols : Markup → List (List Char)
  | .text _ | .void _ _ => []
  | .element name _ children => (if isSymbolElement name then ownTexts children else []) ++ allSymbols children

def allSymbols : List Markup → List (List Char)
  | [] => []
  | m :: ms => symbols m ++ allSymbols ms

end

@[simp] theorem allSymbols_nil : allSymbols [] = [] := by rw [allSymbols]

@[simp] theorem allSymbols_cons (m : Markup) (ms : List Markup) : allSymbols (m :: ms) = m.symbols ++ allSymbols ms := by
  rw [allSymbols]

@[simp] theorem allSymbols_append (a b : List Markup) : allSymbols (a ++ b) = allSymbols a ++ allSymbols b := by
  induction a with
  | nil => simp
  | cons m a ih => simp [ih]

theorem mem_allSymbols {s : List Char} {ms : List Markup} : s ∈ allSymbols ms ↔ ∃ m ∈ ms, s ∈ m.symbols := by
  induction ms with
  | nil => simp
  | cons m ms ih => simp [ih]

/-- An element of another kind shows what is in it. -/
theorem symbols_element {name : String} (h : isSymbolElement name = false) (attributes : List (String × List Char))
    (children : List Markup) : (element name attributes children).symbols = allSymbols children := by
  simp [symbols, h]

/-- A token element around its text. -/
theorem symbols_text (name : String) (attributes : List (String × List Char)) (s : List Char) :
    (element name attributes [.text s]).symbols = if isSymbolElement name then [s] else [] := by
  simp [symbols, ownTexts]

@[simp] theorem symbols_row (ms : List Markup) : (row ms).symbols = allSymbols ms := symbols_element rfl [] ms

@[simp] theorem symbols_identifier (s : List Char) : (identifier s).symbols = [s] := symbols_text "mi" [] s

@[simp] theorem symbols_number (s : List Char) : (number s).symbols = [s] := symbols_text "mn" [] s

@[simp] theorem symbols_operator (s : List Char) : (operator s).symbols = [s] := symbols_text "mo" [] s

end Markup

/-! ## Reading -/

/-- Reading does not change this text. -/
structure IsLegible (s : List Char) : Prop where
  noReturn : '\r' ∉ s
  visible : ∃ c ∈ s, isBlank c = false

theorem IsLegible.isBlankText (h : IsLegible s) : (Node.text s).isBlankText = false := by
  obtain ⟨c, hc, hblank⟩ := h.visible
  rw [Node.isBlankText, Bool.eq_false_iff, ne_eq, List.all_eq_true]
  intro hall
  rw [hall c hc] at hblank
  cases hblank

theorem IsLegible.ne_nil (h : IsLegible s) : s ≠ [] := by
  rintro rfl
  obtain ⟨c, hc, -⟩ := h.visible
  cases hc

/-- The node is an element that shows the same symbols. -/
def ShowsAlike (m : Markup) (n : Node) : Prop := n.isElement ∧ nodeSymbols n = m.symbols

theorem allNodeSymbols_of_forall₂ {ms : List Markup} {ns : List Node} (h : List.Forall₂ ShowsAlike ms ns) :
    allNodeSymbols ns = Markup.allSymbols ms := by
  induction h with
  | nil => rw [allNodeSymbols, Markup.allSymbols]
  | cons hn _ ih => rw [allNodeSymbols, Markup.allSymbols, hn.2, ih]

theorem allNodeSymbols_eq_nil {ns : List Node} (h : ∀ n ∈ ns, n.isElement = false) : allNodeSymbols ns = [] := by
  induction ns with
  | nil => rw [allNodeSymbols]
  | cons n ns ih =>
    rw [List.forall_mem_cons] at h
    cases n with
    | element tag children => cases h.1
    | text s => rw [allNodeSymbols, nodeSymbols, ih h.2, List.nil_append]

/-- Only token elements stand for symbols. -/
theorem isSymbolElement_eq_false {name : String} {model : ContentModel} {names : List String}
    (hmodel : contentModel? name = some model) (hfits : model.Fits names) : isSymbolElement name = false := by
  rw [Bool.eq_false_iff]
  intro hsymbol
  have htoken : contentModel? name = some .token := by
    simp only [isSymbolElement, Bool.or_eq_true, beq_iff_eq] at hsymbol
    rcases hsymbol with (rfl | rfl) | rfl <;> rfl
  obtain rfl := Option.some.inj (htoken.symm.trans hmodel)
  exact hfits

/-- **Sound markup is read back with its symbols.** -/
theorem showsAlike_of_sound {m : Markup} (hm : m.Sound) (hlegible : ∀ s ∈ m.symbols, IsLegible s) :
    ReadsAs ShowsAlike m := by
  induction hm with
  | @void name attributes tag =>
    intro p f outer t hopened h
    rw [Markup.render, List.append_assoc] at h
    obtain ⟨start, -, hcomes⟩ := comes_of_empty tag hopened h
    refine ⟨_, ⟨rfl, ?_⟩, hcomes⟩
    simp [nodeSymbols, ownTexts, allNodeSymbols, Markup.symbols]
  | @element name attributes ms model tag hfits _ ih =>
    intro p f outer t hopened h
    have hsymbol := isSymbolElement_eq_false tag.model hfits
    rw [Markup.symbols_element hsymbol] at hlegible
    have hchildren : ∀ m ∈ ms, ReadsAs ShowsAlike m := fun m hm => ih m hm fun s hs =>
      hlegible s (Markup.mem_allSymbols.2 ⟨m, hm, hs⟩)
    obtain ⟨start, ns, htag, hns, hcomes⟩ := comes_of_element tag hchildren (fun _ _ hmn => hmn.1) hopened h
    refine ⟨_, ⟨rfl, ?_⟩, hcomes⟩
    rw [nodeSymbols, htag, hsymbol, Markup.symbols_element hsymbol, allNodeSymbols_of_forall₂ hns]
    rfl
  | @token name attributes s tag hs =>
    intro p f outer t hopened h
    obtain ⟨start, texts, htag, htexts, hcomes⟩ := comes_of_token tag hs hopened h
    refine ⟨_, ⟨rfl, ?_⟩, hcomes⟩
    have hnone : allNodeSymbols ((texts.map Node.text).filter fun n => !n.isBlankText) = [] := by
      refine allNodeSymbols_eq_nil fun n hn => ?_
      obtain ⟨text, -, rfl⟩ := List.mem_map.1 (List.mem_filter.1 hn).1
      rfl
    rw [Markup.symbols_text] at hlegible ⊢
    rw [nodeSymbols, htag, hnone, List.append_nil]
    by_cases hsymbol : isSymbolElement name = true
    · rw [if_pos hsymbol] at hlegible ⊢
      rw [if_pos hsymbol]
      have hs' := hlegible s (List.mem_singleton_self s)
      obtain rfl : texts = [s] := by
        rcases htexts with ⟨hnil, -⟩ | ⟨place, text, hdata, rfl⟩
        · exact absurd hnil hs'.ne_nil
        · rw [characterData_escapeText place hs'.noReturn] at hdata
          rw [Except.ok.inj hdata]
      simp [hs'.isBlankText, ownTexts]
    · rw [if_neg hsymbol, if_neg hsymbol]

/-- **A `math` element is read back with its symbols.** -/
theorem symbols_of_parse_math {ms : List Markup} (hms : ∀ m ∈ ms, m.Sound)
    (hlegible : ∀ s ∈ Markup.allSymbols ms, IsLegible s) :
    ∃ root, parse (mathElement ms).render = .ok root ∧ nodeSymbols root.toNode = Markup.allSymbols ms := by
  have hreads : ∀ m ∈ ms, ReadsAs ShowsAlike m := fun m hm =>
    showsAlike_of_sound (hms m hm) fun s hs => hlegible s (Markup.mem_allSymbols.2 ⟨m, hm, hs⟩)
  obtain ⟨tag, ns, hparse, hname, -, hns⟩ := parse_math_of_readsAs hreads fun _ _ hmn => hmn.1
  refine ⟨⟨tag, ns⟩, hparse, ?_⟩
  have hsymbol : isSymbolElement tag.name = false := by rw [hname]; rfl
  rw [Element.toNode, nodeSymbols, hsymbol, allNodeSymbols_of_forall₂ hns]
  rfl

end MathMarkup.MathML
