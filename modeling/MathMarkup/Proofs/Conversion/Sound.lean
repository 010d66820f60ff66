import MathMarkup.Proofs.Conversion.Reading
import MathMarkup.Proofs.Markup.Sound

/-!
# Converted markup is sound

Every piece that is read builds sound markup around sound markup (`Piece.Sound`), so what `convert`
answers with is sound, whatever the text was (`sound_convert`).
-/

namespace MathMarkup.MathML

open Xml

/-- Each of several elements is sound. -/
def AllSound (ms : List Markup) : Prop := ∀ m ∈ ms, m.Sound

theorem AllSound.append {a b : List Markup} (ha : AllSound a) (hb : AllSound b) : AllSound (a ++ b) :=
  List.forall_mem_append.2 ⟨ha, hb⟩

theorem allSound_singleton {m : Markup} : AllSound [m] ↔ m.Sound := List.forall_mem_singleton

theorem fitTag_bare {name : String} {model : ContentModel} (hmodel : contentModel? name = some model)
    (hrequired : requiredAttributes name = []) (hword : IsWord name.toList) : FitTag name [] model :=
  ⟨hmodel, hrequired, hword, .nil⟩

theorem fitTag_single {name key : String} {value : List Char} {model : ContentModel}
    (hmodel : contentModel? name = some model) (hrequired : requiredAttributes name = [])
    (hword : IsWord name.toList) (hkey : IsWord key.toList ∧ key ≠ "xmlns") (hvalue : IsAdmitted value) :
    FitTag name [(key, value)] model :=
  ⟨hmodel, hrequired, hword, by simp, by simpa using hkey,
    by simpa [IsAdmitted] using hvalue⟩

namespace Markup

theorem Sound.row {ms : List Markup} (h : AllSound ms) : (row ms).Sound := by
  have htag : FitTag "mrow" [] .row := fitTag_bare rfl rfl (by decide)
  exact .element htag trivial h

theorem Sound.identifier {s : List Char} (h : IsAdmitted s) : (identifier s).Sound :=
  .token (fitTag_bare rfl rfl (by decide)) h

theorem Sound.operator {s : List Char} (h : IsAdmitted s) : (operator s).Sound :=
  .token (fitTag_bare rfl rfl (by decide)) h

theorem Sound.number {s : List Char} (h : IsAdmitted s) : (number s).Sound :=
  .token (fitTag_bare rfl rfl (by decide)) h

theorem Sound.space {width : String} (h : IsAdmitted width.toList) : (space width).Sound :=
  .void (fitTag_single rfl rfl (by decide) (by decide) h)

/-- An element around grouped operands. -/
theorem Sound.operands {name : String} {attributes : List (String × List Char)}
    (groups : List (List Markup)) (tag : FitTag name attributes (.operands groups.length))
    (h : ∀ g ∈ groups, AllSound g) : (Markup.element name attributes (groups.map Markup.row)).Sound := by
  refine .element tag ⟨by simp, ?_⟩ ?_
  · simp only [List.map_map, List.mem_map]
    rintro n ⟨g, -, rfl⟩
    rfl
  · rw [List.forall_mem_map]
    exact fun g hg => .row (h g hg)

end Markup

end MathMarkup.MathML

namespace MathMarkup.Tex

open MathML Text Xml

/-! ## Characters -/

theorem isAdmitted_of_isCarried {c : Char} (h : isCarried c = true) : Cursor.isAdmitted c = true := by
  unfold isCarried at h
  unfold Cursor.isAdmitted
  simp only at h ⊢
  split at h
  · rename_i hlow
    rwa [if_pos hlow]
  · rename_i hhigh
    rw [if_neg hhigh]
    simp only [Bool.and_eq_true] at h ⊢
    exact ⟨h.1.2, h.2⟩

theorem isAdmitted_of_range {c : Char} (hlow : 0x20 ≤ c.toNat) (hhigh : c.toNat < 0xFFFE) :
    Cursor.isAdmitted c = true := by
  simp only [Cursor.isAdmitted, if_neg (Nat.not_lt.2 hlow), bne_iff_ne, ne_eq, Bool.and_eq_true]
  omega

theorem isAdmitted_of_isAlpha {c : Char} (h : c.isAlpha = true) : Cursor.isAdmitted c = true := by
  have := toNat_of_isAlpha h
  exact isAdmitted_of_range (by omega) (by omega)

theorem isAdmitted_of_isDigit {c : Char} (h : c.isDigit = true) : Cursor.isAdmitted c = true := by
  rw [Char.isDigit, Bool.and_eq_true, decide_eq_true_eq, decide_eq_true_eq] at h
  have hlow : 48 ≤ c.toNat := h.1
  have hhigh : c.toNat ≤ 57 := h.2
  exact isAdmitted_of_range (by omega) (by omega)

theorem isAdmitted_carriedText (s : List Char) : IsAdmitted (carriedText s) := by
  intro c hc
  exact isAdmitted_of_isCarried (List.mem_filter.1 hc).2

/-! ## Constructs -/

/-- A construct builds sound markup around sound markup. -/
def Build.Sound : Build → Prop
  | .unary f => ∀ a, AllSound a → (f a).Sound
  | .binary f => ∀ a b, AllSound a → AllSound b → (f a b).Sound
  | .indexed bare f =>
    (∀ a, AllSound a → (bare a).Sound) ∧ ∀ a b, AllSound a → AllSound b → (f a b).Sound
  | .plain f => ∀ s, (f s).Sound
  | .styled f => ∀ s a, AllSound a → (f s a).Sound

theorem sound_fraction {attributes : List (String × List Char)}
    (tag : FitTag "mfrac" attributes (.operands 2)) {a b : List Markup} (ha : AllSound a)
    (hb : AllSound b) : (fraction attributes a b).Sound :=
  .operands [a, b] tag (by simp [ha, hb])

theorem isAdmitted_fontVariant (command : String) : IsAdmitted (fontVariant command).toList := by
  unfold fontVariant
  split <;> decide

theorem isAdmitted_accentMark (command : String) : IsAdmitted [accentMark command] := by
  unfold accentMark
  split <;> decide

theorem sound_constructs {c : Construct} (h : c ∈ constructs) (command : String) :
    (c.build command).Sound := by
  simp only [constructs, List.mem_cons, List.not_mem_nil, or_false] at h
  rcases h with rfl | rfl | rfl | rfl | rfl | rfl | rfl | rfl | rfl | rfl
  · intro a b ha hb
    exact sound_fraction (fitTag_bare rfl rfl (by decide)) ha hb
  · intro a b ha hb
    refine .row (List.forall_mem_cons.2 ⟨.operator (by decide), List.forall_mem_cons.2 ⟨?_, ?_⟩⟩)
    · exact sound_fraction (fitTag_single rfl rfl (by decide) (by decide) (by decide)) ha hb
    · exact List.forall_mem_singleton.2 (.operator (by decide))
  · refine ⟨fun a ha => ?_, fun a index ha hindex => ?_⟩
    · have htag : FitTag "msqrt" [] .single := fitTag_bare rfl rfl (by decide)
      exact .element htag (Nat.le_refl 1) (List.forall_mem_singleton.2 (.row ha))
    · exact .operands [a, index] (fitTag_bare rfl rfl (by decide)) (by simp [ha, hindex])
  · intro s
    exact .token (fitTag_bare rfl rfl (by decide)) (isAdmitted_carriedText s)
  · intro s
    exact .token (fitTag_single rfl rfl (by decide) (by decide) (by decide))
      (isAdmitted_carriedText (trim s))
  · intro a ha
    have htag : FitTag "mstyle" [("mathvariant", (fontVariant command).toList)] .row :=
      fitTag_single rfl rfl (by decide) (by decide) (isAdmitted_fontVariant command)
    exact .element htag trivial ha
  · intro a ha
    refine .operands [a, [.operator [accentMark command]]]
      (fitTag_single rfl rfl (by decide) (by decide) (by decide)) ?_
    simp [ha, allSound_singleton, Markup.Sound.operator (isAdmitted_accentMark command)]
  · intro a ha
    have hline : (Markup.operator ['_']).Sound := .operator (by decide)
    exact .operands [a, [.operator ['_']]] (fitTag_bare rfl rfl (by decide))
      (by simp [ha, allSound_singleton, hline])
  · intro color a ha
    have htag : FitTag "mstyle" [("mathcolor", carriedText (trim color))] .row :=
      fitTag_single rfl rfl (by decide) (by decide) (isAdmitted_carriedText (trim color))
    exact .element htag trivial ha
  · intro a ha
    have htag : FitTag "menclose" [("notation", "box".toList)] .single :=
      fitTag_single rfl rfl (by decide) (by decide) (by decide)
    exact .element htag (Nat.le_refl 1) (List.forall_mem_singleton.2 (.row ha))

theorem sound_of_build? {command : String} {build : Build} (h : build? command = some build) :
    build.Sound := by
  simp only [build?, Option.map_eq_some_iff] at h
  obtain ⟨c, hfind, rfl⟩ := h
  exact sound_constructs (List.mem_of_find?_eq_some hfind) command

/-! ## Symbols -/

theorem mem_of_lookup {α : Type} {table : List (String × α)} {name : String} {s : α}
    (h : table.lookup name = some s) : (name, s) ∈ table := by
  obtain ⟨before, behind, rfl, -⟩ := List.lookup_eq_some_iff.1 h
  exact List.mem_append_right before List.mem_cons_self

theorem isAdmitted_identifierSymbols : ∀ e ∈ identifierSymbols, IsAdmitted e.2.toList := by decide

theorem isAdmitted_operatorSymbols : ∀ e ∈ operatorSymbols, IsAdmitted e.2.toList := by decide

/-- A symbol stands for a sound element; the name of a function is made of letters. -/
theorem sound_of_symbol? {command : String} {symbol : Symbol} (h : symbol? command = some symbol)
    {name : List Char} (hname : ∀ c ∈ name, c.isAlpha = true) {m : Markup}
    (hm : symbol.markup? name = some m) : m.Sound := by
  simp only [symbol?, Option.orElse_eq_orElse, Option.orElse_eq_or, Option.or_eq_some_iff, Option.map_eq_some_iff] at h
  obtain ⟨s, hs, rfl⟩ | ⟨-, ⟨s, hs, rfl⟩ | ⟨-, h | ⟨-, h | ⟨-, s, hs, rfl⟩⟩⟩⟩ := h
  · cases hm
    exact .identifier (isAdmitted_identifierSymbols _ (mem_of_lookup hs))
  · cases hm
    exact .operator (isAdmitted_operatorSymbols _ (mem_of_lookup hs))
  · split at h
    · cases h
      cases hm
      exact .identifier fun c hc => isAdmitted_of_isAlpha (hname c hc)
    · cases h
  · split at h
    · cases h
      cases hm
    · cases h
  · cases hm
    have hwidth : ∀ e ∈ [("quad", "1em"), ("qquad", "2em")], IsAdmitted e.2.toList := by decide
    exact .space (hwidth _ (mem_of_lookup hs))

theorem sound_of_escapedSymbol? {c : Char} {m : Markup} (h : escapedSymbol? c = some m) : m.Sound := by
  unfold escapedSymbol? at h
  split at h
  · cases h
    exact .space (by decide)
  split at h
  · cases h
    exact .space (by decide)
  split at h
  · cases h
    exact .space (by decide)
  split at h
  · cases h
    exact .space (by decide)
  split at h
  · cases h
  split at h
  · cases h
  split at h
  · cases h
    exact .operator (by decide)
  · rename_i hcarried _
    cases h
    rw [Bool.not_eq_true, Bool.not_eq_false'] at hcarried
    exact .operator (List.forall_mem_singleton.2 (isAdmitted_of_isCarried hcarried))

/-! ## Pieces -/

/-- The brackets are characters of XML. -/
def Fences.Sound (f : Fences) : Prop := ∀ c, f.opening = some c ∨ f.closing = some c → IsAdmitted [c]

/-- A piece builds sound markup around sound markup. -/
def Piece.Sound : Piece → Prop
  | .remark _ | .script _ _ => True
  | .plain m => m.Sound
  | .unary f _ => ∀ a, AllSound a → (f a).Sound
  | .binary f _ _ => ∀ a b, AllSound a → AllSound b → (f a b).Sound
  | .table fences _ => fences.Sound

theorem sound_of_construct? {build : Build} (hbuild : build.Sound) {s rest : List Char} {piece : Piece}
    (h : construct? build s = some (piece, rest)) : piece.Sound := by
  have hcases := cases_of_construct? h
  cases build with
  | unary f =>
    obtain ⟨a, -, rfl⟩ := hcases
    exact hbuild
  | plain f =>
    obtain ⟨a, -, rfl⟩ := hcases
    exact hbuild a
  | binary f =>
    obtain ⟨a, r, b, -, -, rfl⟩ := hcases
    exact hbuild
  | styled f =>
    obtain ⟨a, r, b, -, -, rfl⟩ := hcases
    exact hbuild a
  | indexed bare f =>
    rcases hcases with ⟨a, -, rfl⟩ | ⟨index, r, a, -, -, rfl⟩
    · exact hbuild.1
    · exact hbuild.2

theorem sound_of_fences? {name : String} {fences : Fences} (h : fences? name = some fences) :
    fences.Sound := by
  unfold fences? at h
  split at h
  · cases h
    rintro c (hc | hc) <;> cases hc
  · have hmem := mem_of_lookup h
    simp only [List.mem_cons, Prod.mk.injEq, List.not_mem_nil, or_false] at hmem
    rcases hmem with ⟨-, rfl⟩ | ⟨-, rfl⟩ | ⟨-, rfl⟩ | ⟨-, rfl⟩ | ⟨-, rfl⟩ | ⟨-, rfl⟩ <;>
      rintro c (hc | hc) <;> cases hc <;> decide

/-- Several pieces build sound markup. -/
def AllPiecesSound (ps : List Piece) : Prop := ∀ piece ∈ ps, piece.Sound

theorem AllPiecesSound.nil : AllPiecesSound [] := fun _ h => absurd h List.not_mem_nil

theorem allPiecesSound_singleton {piece : Piece} : AllPiecesSound [piece] ↔ piece.Sound :=
  List.forall_mem_singleton

/-- A remark in front of a piece builds nothing. -/
theorem AllPiecesSound.remark {r : Remark} {ps : List Piece} (h : AllPiecesSound ps) :
    AllPiecesSound (.remark r :: ps) := List.forall_mem_cons.2 ⟨trivial, h⟩

theorem allPiecesSound_map_plain {ms : List Markup} (h : AllSound ms) :
    AllPiecesSound (ms.map .plain) := List.forall_mem_map.2 h

theorem sound_environmentPieces (name body : List Char) : AllPiecesSound (environmentPieces name body) := by
  unfold environmentPieces
  split
  · rename_i fences hfences
    exact allPiecesSound_singleton.2 (sound_of_fences? hfences)
  · exact .remark (allPiecesSound_singleton.2 fun a ha => .row ha)

theorem sound_readEnvironment (s : List Char) : AllPiecesSound (readEnvironment s).1 := by
  unfold readEnvironment
  split
  · exact .remark .nil
  · simp only
    split
    · exact .remark .nil
    · exact sound_environmentPieces _ _

theorem sound_verbatimCommand {name : List Char} (hname : ∀ c ∈ name, c.isAlpha = true) :
    AllPiecesSound [verbatimCommand name] := by
  refine allPiecesSound_singleton.2 (.identifier (List.forall_mem_cons.2 ⟨by decide, fun c hc => ?_⟩))
  exact isAdmitted_of_isAlpha (hname c hc)

theorem sound_readWord {name : List Char} (hname : ∀ c ∈ name, c.isAlpha = true) (s : List Char) :
    AllPiecesSound (readWord name s).1 := by
  unfold readWord
  simp only
  split
  · exact sound_readEnvironment s
  split
  · exact .remark .nil
  split
  · exact .nil
  split
  · rename_i build hbuild
    split
    · rename_i piece rest hconstruct
      exact allPiecesSound_singleton.2 (sound_of_construct? (sound_of_build? hbuild) hconstruct)
    · exact .remark (sound_verbatimCommand hname)
  · split
    · rename_i symbol hsymbol
      refine allPiecesSound_map_plain fun m hm => ?_
      exact sound_of_symbol? hsymbol hname (Option.mem_toList.1 hm)
    · exact .remark (sound_verbatimCommand hname)

theorem sound_readCommand (s : List Char) : AllPiecesSound (readCommand s).1 := by
  unfold readCommand
  split
  · exact allPiecesSound_singleton.2 (.operator (by decide))
  · rename_i c s
    split
    · exact allPiecesSound_singleton.2 (.void (fitTag_single rfl rfl (by decide) (by decide) (by decide)))
    split
    · rename_i hletter
      refine sound_readWord (List.forall_mem_cons.2 ⟨hletter, fun d hd => ?_⟩) _
      exact List.mem_takeWhile_imp hd
    · exact allPiecesSound_map_plain fun m hm => sound_of_escapedSymbol? (Option.mem_toList.1 hm)

theorem sound_readScript (marker : Char) (s : List Char) : AllPiecesSound (readScript marker s).1 := by
  unfold readScript
  split
  · exact allPiecesSound_singleton.2 trivial
  · exact .remark (allPiecesSound_singleton.2 trivial)

theorem sound_readGroup (s : List Char) : AllPiecesSound (readGroup s).1 := by
  unfold readGroup
  split
  · exact allPiecesSound_singleton.2 fun a ha => .row ha
  · exact .remark .nil

/-- The digits of a number are characters of XML. -/
theorem isAdmitted_splitNumber (s : List Char) : IsAdmitted (splitNumber s).1 := by
  have hdigits : ∀ s : List Char, IsAdmitted (s.takeWhile Char.isDigit) := fun s c hc =>
    isAdmitted_of_isDigit (List.mem_takeWhile_imp hc)
  unfold splitNumber
  split
  · split
    · exact hdigits s
    · rename_i rest _ fraction _
      refine List.forall_mem_append.2 ⟨hdigits s, List.forall_mem_cons.2 ⟨by decide, ?_⟩⟩
      exact hdigits rest
  · exact hdigits s

theorem sound_readPlain {c : Char} (hc : isCarried c = true) (s : List Char) :
    AllPiecesSound (readPlain c s).1 := by
  have hadmitted := isAdmitted_of_isCarried hc
  unfold readPlain
  split
  · refine allPiecesSound_singleton.2 (.number ?_)
    exact List.forall_mem_cons.2 ⟨hadmitted, isAdmitted_splitNumber s⟩
  split
  · exact allPiecesSound_singleton.2 (.identifier (List.forall_mem_singleton.2 hadmitted))
  split
  · exact allPiecesSound_singleton.2 (.operator (by decide))
  split
  · exact allPiecesSound_singleton.2 (.operator (by decide))
  · exact allPiecesSound_singleton.2 (.operator (List.forall_mem_singleton.2 hadmitted))

theorem sound_readPieces (c : Char) (s : List Char) : AllPiecesSound (readPieces c s).1 := by
  unfold readPieces
  split
  · exact sound_readCommand s
  split
  · exact sound_readScript c s
  split
  · exact sound_readGroup s
  split
  · exact .remark .nil
  split
  · exact .nil
  split
  · exact .nil
  split
  · exact .nil
  · rename_i hkept
    rw [Bool.or_eq_true, not_or, Bool.not_eq_true', Bool.not_eq_false] at hkept
    exact sound_readPlain hkept.2 s

/-- Whatever the text, its pieces build sound markup. -/
theorem sound_pieces (s : List Char) : AllPiecesSound (pieces s) := by
  fun_induction pieces s with
  | case1 => exact .nil
  | case2 c s ih => exact List.forall_mem_append.2 ⟨sound_readPieces c s, ih⟩

/-! ## Atoms -/

/-- Everything in the atom is sound. -/
def Atom.Sound : Atom → Prop
  | .plain m => m.Sound
  | .scripted base sub sup => AllSound base ∧ (∀ s ∈ sub, AllSound s) ∧ ∀ s ∈ sup, AllSound s

theorem Atom.Sound.markup {a : Atom} (h : a.Sound) : AllSound a.markup := by
  unfold Atom.markup
  split
  · exact allSound_singleton.2 h
  · rename_i base sub sup
    refine allSound_singleton.2 (.operands [base, sub, sup] (fitTag_bare rfl rfl (by decide)) ?_)
    simp [h.1, h.2.1 sub rfl, h.2.2 sup rfl]
  · rename_i base sub
    refine allSound_singleton.2 (.operands [base, sub] (fitTag_bare rfl rfl (by decide)) ?_)
    simp [h.1, h.2.1 sub rfl]
  · rename_i base sup
    refine allSound_singleton.2 (.operands [base, sup] (fitTag_bare rfl rfl (by decide)) ?_)
    simp [h.1, h.2.2 sup rfl]
  · exact h.1

theorem Atom.sound_withScript {base operand : List Markup} (sub : Bool) (hbase : AllSound base)
    (hoperand : AllSound operand) : (Atom.withScript base sub operand).Sound := by
  unfold Atom.withScript
  split <;> exact ⟨hbase, by simp [hoperand], by simp [hoperand]⟩

theorem Atom.Sound.addScript {a : Atom} (h : a.Sound) (sub : Bool) {operand : List Markup}
    (hoperand : AllSound operand) : (a.addScript sub operand).Sound := by
  unfold Atom.addScript
  split
  · exact ⟨h.1, by simp [hoperand], h.2.2⟩
  · exact ⟨h.1, h.2.1, by simp [hoperand]⟩
  · exact Atom.sound_withScript sub h.markup hoperand

theorem sound_attachScript {atoms : List Atom} (h : ∀ a ∈ atoms, a.Sound) (sub : Bool)
    {operand : List Markup} (hoperand : AllSound operand) :
    ∀ a ∈ attachScript sub operand atoms, a.Sound := by
  cases atoms with
  | nil => exact List.forall_mem_singleton.2 (Atom.sound_withScript sub (by simp [AllSound]) hoperand)
  | cons a atoms =>
    rw [List.forall_mem_cons] at h
    exact List.forall_mem_cons.2 ⟨h.1.addScript sub hoperand, h.2⟩

/-! ## Tables -/

theorem sound_tableRow {cells : List (List Markup)} (h : ∀ cell ∈ cells, AllSound cell) :
    (Markup.node "mtr" (cells.map fun cell => .node "mtd" cell)).Sound := by
  have hrow : FitTag "mtr" [] .tableRow := fitTag_bare rfl rfl (by decide)
  have hcell : FitTag "mtd" [] .row := fitTag_bare rfl rfl (by decide)
  refine .element hrow ?_ ?_
  · simp only [List.map_map]
    exact List.forall_mem_map.2 fun cell _ => rfl
  · exact List.forall_mem_map.2 fun cell hmem => .element hcell trivial (h cell hmem)

theorem sound_tableMarkup {fences : Fences} (hfences : fences.Sound)
    {rows : List (List (List Markup))} (h : ∀ row ∈ rows, ∀ cell ∈ row, AllSound cell) :
    (tableMarkup fences rows).Sound := by
  have htable : (Markup.node "mtable" <| rows.map fun cells =>
      .node "mtr" (cells.map fun cell => .node "mtd" cell)).Sound := by
    have htag : FitTag "mtable" [] .table := fitTag_bare rfl rfl (by decide)
    refine .element htag ?_ ?_
    · simp only [List.map_map]
      exact List.forall_mem_map.2 fun row _ => rfl
    · exact List.forall_mem_map.2 fun row hrow => sound_tableRow (h row hrow)
  have hfence : ∀ c : Option Char, c = fences.opening ∨ c = fences.closing →
      AllSound (c.map fun c => Markup.operator [c]).toList := by
    intro c hc m hm
    rw [Option.mem_toList, Option.map_eq_some_iff] at hm
    obtain ⟨d, rfl, rfl⟩ := hm
    exact .operator (hfences d (hc.imp Eq.symm Eq.symm))
  unfold tableMarkup
  simp only
  split
  · exact htable
  · refine .row (AllSound.append (AllSound.append ?_ (allSound_singleton.2 htable)) ?_)
    · exact hfence _ (Or.inl rfl)
    · exact hfence _ (Or.inr rfl)

/-! ## Conversion -/

variable {f : List Char → Option Converted}

theorem sound_convertAll (hf : ∀ s c, f s = some c → AllSound c.markup) {ts : List (List Char)}
    {r : List (List Markup) × List Remark} (h : convertAll f ts = some r) : ∀ ms ∈ r.1, AllSound ms := by
  induction ts generalizing r with
  | nil =>
    cases h
    simp
  | cons t ts ih =>
    simp only [convertAll, Option.bind_eq_bind, Option.pure_def, Option.bind_eq_some_iff, Prod.exists,
      Option.some.injEq] at h
    obtain ⟨c, hc, markup, remarks, hrec, rfl⟩ := h
    exact List.forall_mem_cons.2 ⟨hf t c hc, ih hrec⟩

theorem sound_convertRows (hf : ∀ s c, f s = some c → AllSound c.markup)
    {rows : List (List (List Char))} {r : List (List (List Markup)) × List Remark}
    (h : convertRows f rows = some r) : ∀ row ∈ r.1, ∀ cell ∈ row, AllSound cell := by
  induction rows generalizing r with
  | nil =>
    cases h
    simp
  | cons row rows ih =>
    simp only [convertRows, Option.bind_eq_bind, Option.pure_def, Option.bind_eq_some_iff, Prod.exists,
      Option.some.injEq] at h
    obtain ⟨cells, remarks, hcells, rows', more, hrec, rfl⟩ := h
    exact List.forall_mem_cons.2 ⟨sound_convertAll hf hcells, ih hrec⟩

theorem sound_convertTable (hf : ∀ s c, f s = some c → AllSound c.markup) {fences : Fences}
    (hfences : fences.Sound) {rows : List (List (List Char))} {r : Markup × List Remark}
    (h : convertTable f fences rows = some r) : r.1.Sound := by
  rw [convertTable, Option.map_eq_some_iff] at h
  obtain ⟨⟨rows', remarks⟩, hrows, rfl⟩ := h
  exact sound_tableMarkup hfences (sound_convertRows hf hrows)

/-- Placing a piece keeps the atoms sound. -/
theorem sound_place (hf : ∀ s c, f s = some c → AllSound c.markup) {p q : Progress} {piece : Piece}
    (hpiece : piece.Sound) (hp : ∀ a ∈ p.atoms, a.Sound) (h : place f p piece = some q) :
    ∀ a ∈ q.atoms, a.Sound := by
  have hpush : ∀ (m : Markup) (remarks : List Remark), m.Sound → ∀ a ∈ (p.push m remarks).atoms, a.Sound :=
    fun m remarks hm => List.forall_mem_cons.2 ⟨hm, hp⟩
  cases piece with
  | remark r =>
    cases h
    exact hp
  | plain m =>
    cases h
    exact hpush m [] hpiece
  | unary g a =>
    simp only [place, Option.bind_eq_bind, Option.pure_def, Option.bind_eq_some_iff,
      Option.some.injEq] at h
    obtain ⟨c, hc, rfl⟩ := h
    exact hpush _ _ (hpiece _ (hf a c hc))
  | binary g a b =>
    simp only [place, Option.bind_eq_bind, Option.pure_def, Option.bind_eq_some_iff,
      Option.some.injEq] at h
    obtain ⟨c, hc, d, hd, rfl⟩ := h
    exact hpush _ _ (hpiece _ _ (hf a c hc) (hf b d hd))
  | script sub operand =>
    simp only [place, Option.bind_eq_bind, Option.pure_def, Option.bind_eq_some_iff,
      Option.some.injEq] at h
    obtain ⟨c, hc, rfl⟩ := h
    exact sound_attachScript hp sub (hf operand c hc)
  | table fences rows =>
    simp only [place, Option.bind_eq_bind, Option.pure_def, Option.bind_eq_some_iff, Prod.exists,
      Option.some.injEq] at h
    obtain ⟨m, remarks, htable, rfl⟩ := h
    exact hpush _ _ (sound_convertTable hf hpiece htable)

theorem sound_placeAll (hf : ∀ s c, f s = some c → AllSound c.markup) {ps : List Piece}
    (hps : AllPiecesSound ps) {p q : Progress} (hp : ∀ a ∈ p.atoms, a.Sound)
    (h : placeAll f p ps = some q) : ∀ a ∈ q.atoms, a.Sound := by
  induction ps generalizing p with
  | nil =>
    cases h
    exact hp
  | cons piece ps ih =>
    simp only [placeAll, Option.bind_eq_bind, Option.bind_eq_some_iff] at h
    obtain ⟨p', hplace, h⟩ := h
    rw [AllPiecesSound, List.forall_mem_cons] at hps
    exact ih hps.2 (sound_place hf hps.1 hp hplace) h

/-- **Converted markup is sound**, however deep the text is nested. -/
theorem sound_convert {fuel : Nat} {s : List Char} {c : Converted} (h : convert fuel s = some c) :
    AllSound c.markup := by
  induction fuel generalizing s c with
  | zero => cases h
  | succ fuel ih =>
    rw [convert, Option.map_eq_some_iff] at h
    obtain ⟨p, hplace, rfl⟩ := h
    have hatoms := sound_placeAll (fun s c hc => ih hc) (sound_pieces s) (by simp) hplace
    intro m hm
    obtain ⟨a, ha, hm⟩ := List.mem_flatMap.1 hm
    exact (hatoms a (List.mem_reverse.1 ha)).markup m hm

theorem sound_convertBody {fuel : Nat} {body : List Char} {c : Converted}
    (h : convertBody fuel body = some c) : AllSound c.markup := by
  unfold convertBody at h
  simp only at h
  split at h
  · rw [Option.map_eq_some_iff] at h
    obtain ⟨r, htable, rfl⟩ := h
    refine allSound_singleton.2 (sound_convertTable (fun s c hc => sound_convert hc) ?_ htable)
    rintro c (hc | hc) <;> cases hc
  · exact sound_convert h

end MathMarkup.Tex
