import MathMarkup.Proofs.Conversion.Unknown
import MathMarkup.Proofs.Normal.Display
import MathMarkup.Proofs.Text.Groups
import MathMarkup.Proofs.Xml.References

/-!
# Constructs from their arguments

What a construct writes is determined by its arguments alone. `templates` says it in written markup, with
places for the arguments; `fill` puts them in, converted or as text. A construct that is read in front of any
text takes its arguments in braces and nothing behind them, and the one atom that comes of it is written as
the filled template (`readPieces_construct`).
-/

namespace MathMarkup.Tex

open MathML Text Xml

/-! ## Templates -/

/-- A part of written markup with places for arguments, which are counted from zero. -/
inductive Part where
  | written (s : String)
  /-- The conversion of an argument. -/
  | converted (i : Nat)
  /-- An argument as character data. -/
  | text (i : Nat)
  /-- An argument as character data, without the blanks around it. -/
  | trimmed (i : Nat)
  /-- An argument as the value of an attribute, without the blanks around it. -/
  | value (i : Nat)

/-- The variants that the font commands stand for. -/
def variants : List (String × String) := [
  ("mathbf", "bold"), ("mathit", "italic"), ("mathbb", "double-struck"), ("mathcal", "script"),
  ("mathfrak", "fraktur"), ("mathsf", "sans-serif"), ("mathtt", "monospace"), ("boldsymbol", "bold-italic")]

/-- The marks that the accent commands set. -/
def marks : List (String × String) := [
  ("hat", "^"), ("widehat", "^"), ("bar", "\u00af"), ("overline", "\u00af"), ("vec", "→"), ("dot", "\u02d9"),
  ("ddot", "\u00a8"), ("tilde", "~"), ("widetilde", "~")]

/-- The commands that are written alike, and how. -/
structure Template where
  commands : List String
  parts : String → List Part

/-- What every construct is written as. -/
def templates : List Template := [
  { commands := ["frac", "dfrac", "tfrac", "cfrac"]
    parts := fun _ => [.written "<mfrac><mrow>", .converted 0, .written "</mrow><mrow>", .converted 1,
      .written "</mrow></mfrac>"] },
  { commands := ["binom", "dbinom", "tbinom"]
    parts := fun _ => [.written "<mrow><mo>(</mo><mfrac linethickness=\"0\"><mrow>", .converted 0,
      .written "</mrow><mrow>", .converted 1, .written "</mrow></mfrac><mo>)</mo></mrow>"] },
  { commands := ["sqrt"]
    parts := fun _ => [.written "<msqrt><mrow>", .converted 0, .written "</mrow></msqrt>"] },
  { commands := ["text", "textrm", "textbf", "textit", "mbox"]
    parts := fun _ => [.written "<mtext>", .text 0, .written "</mtext>"] },
  { commands := ["mathrm", "operatorname"]
    parts := fun _ => [.written "<mi mathvariant=\"normal\">", .trimmed 0, .written "</mi>"] },
  { commands := variants.map Prod.fst
    parts := fun command => [.written ("<mstyle mathvariant=\"" ++ (variants.lookup command).getD "" ++ "\">"),
      .converted 0, .written "</mstyle>"] },
  { commands := marks.map Prod.fst
    parts := fun command => [.written "<mover accent=\"true\"><mrow>", .converted 0,
      .written ("</mrow><mrow><mo>" ++ (marks.lookup command).getD "" ++ "</mo></mrow></mover>")] },
  { commands := ["underline"]
    parts := fun _ => [.written "<munder><mrow>", .converted 0,
      .written "</mrow><mrow><mo>_</mo></mrow></munder>"] },
  { commands := ["color", "textcolor"]
    parts := fun _ => [.written "<mstyle mathcolor=\"", .value 0, .written "\">", .converted 1,
      .written "</mstyle>"] },
  { commands := ["boxed"]
    parts := fun _ => [.written "<menclose notation=\"box\"><mrow>", .converted 0,
      .written "</mrow></menclose>"] }]

/-- What a command with arguments is written as. -/
def template (command : String) : List Part :=
  ((templates.find? fun t => t.commands.contains command).map fun t => t.parts command).getD []

/-- What a root with an index is written as; the index is the second argument. -/
def indexedRoot : List Part :=
  [.written "<mroot><mrow>", .converted 0, .written "</mrow><mrow>", .converted 1, .written "</mrow></mroot>"]

/-- The characters of a text that markup carries: no control characters but tab, line feed and carriage return,
and neither of the two characters that XML excludes. -/
def legalText (s : List Char) : List Char :=
  s.filter fun c => c = '\t' ∨ c = '\n' ∨ c = '\r' ∨ 0x20 ≤ c.toNat ∧ c.toNat < 0x7F ∨
    0x9F < c.toNat ∧ c.toNat ≠ 0xFFFE ∧ c.toNat ≠ 0xFFFF

section Filling

variable (convert : List Char → Option Converted) (args : List (List Char))

/-- The text at one place, and the remarks made on the way to it. -/
def Part.fill : Part → Option (List Char × List Remark)
  | written s => some (s.toList, [])
  | converted i => (convert (args.getD i [])).map fun c => (Markup.renderList c.markup, c.remarks)
  | text i => some (refer ['>', '<', '&'] (legalText (args.getD i [])), [])
  | trimmed i => some (refer ['>', '<', '&'] (legalText (trim (args.getD i []))), [])
  | value i => some (refer ['"', '>', '<', '&'] (legalText (trim (args.getD i []))), [])

/-- Written markup with the arguments at their places. -/
def fill : List Part → Option (List Char × List Remark)
  | [] => some ([], [])
  | part :: rest => do
    let (s, remarks) ← part.fill convert args
    let (t, more) ← fill rest
    return (s ++ t, remarks ++ more)

end Filling

/-! ## What is placed -/

/-- Whatever was converted before, the piece adds one plain atom that is written like this, and these remarks;
without a text there is no answer. -/
def PlacesAs (convert : List Char → Option Converted) (piece : Piece) :
    Option (List Char × List Remark) → Prop
  | none => ∀ p, place convert p piece = none
  | some (text, remarks) => ∃ m : Markup, m.render = text ∧
    ∀ p, place convert p piece = some ⟨.plain m :: p.atoms, p.remarks ++ remarks⟩

/-- The pieces that are built are written as the template. -/
def Build.Agrees (parts : List Part) : Build → Prop
  | .unary f => ∀ convert a, PlacesAs convert (.unary f a) (fill convert [a] parts)
  | .binary f => ∀ convert a b, PlacesAs convert (.binary f a b) (fill convert [a, b] parts)
  | .indexed bare f => (∀ convert a, PlacesAs convert (.unary bare a) (fill convert [a] parts)) ∧
      ∀ convert a index, PlacesAs convert (.binary f a index) (fill convert [a, index] indexedRoot)
  | .plain f => ∀ convert a, PlacesAs convert (.plain (f a)) (fill convert [a] parts)
  | .styled f => ∀ convert a b, PlacesAs convert (.unary (f a) b) (fill convert [a, b] parts)

variable {convert : List Char → Option Converted} {a b : List Char}

theorem placesAs_unary {f : List Markup → Markup} {write : List Markup → List Char}
    (h : ∀ m, (f m).render = write m) :
    PlacesAs convert (.unary f a) ((convert a).map fun c => (write c.markup, c.remarks)) := by
  cases ha : convert a with
  | none => exact fun p => by simp [place, ha]
  | some c => exact ⟨f c.markup, h _, fun p => by simp [place, ha, Progress.push]⟩

theorem placesAs_binary {f : List Markup → List Markup → Markup} {write : List Markup → List Markup → List Char}
    (h : ∀ m n, (f m n).render = write m n) :
    PlacesAs convert (.binary f a b) ((convert a).bind fun c => (convert b).map fun d =>
      (write c.markup d.markup, c.remarks ++ d.remarks)) := by
  cases ha : convert a with
  | none => exact fun p => by simp [place, ha]
  | some c =>
    cases hb : convert b with
    | none => exact fun p => by simp [place, ha, hb]
    | some d => exact ⟨f c.markup d.markup, h _ _, fun p => by simp [place, ha, hb, Progress.push]⟩

/-- One converted argument between two texts. -/
theorem placesAs_fill_one {f : List Markup → Markup} (x y : String)
    (h : ∀ m, (f m).render = x.toList ++ (Markup.renderList m ++ y.toList)) :
    PlacesAs convert (.unary f a) (fill convert [a] [.written x, .converted 0, .written y]) := by
  have hfill : fill convert [a] [.written x, .converted 0, .written y] =
      (convert a).map fun c => (x.toList ++ (Markup.renderList c.markup ++ y.toList), c.remarks) := by
    cases ha : convert a <;> simp [fill, Part.fill, ha]
  rw [hfill]
  exact placesAs_unary h

/-- Two converted arguments between three texts. -/
theorem placesAs_fill_two {f : List Markup → List Markup → Markup} (x y z : String)
    (h : ∀ m n, (f m n).render =
      x.toList ++ (Markup.renderList m ++ (y.toList ++ (Markup.renderList n ++ z.toList)))) :
    PlacesAs convert (.binary f a b)
      (fill convert [a, b] [.written x, .converted 0, .written y, .converted 1, .written z]) := by
  have hfill : fill convert [a, b] [.written x, .converted 0, .written y, .converted 1, .written z] =
      (convert a).bind fun c => (convert b).map fun d =>
        (x.toList ++ (Markup.renderList c.markup ++ (y.toList ++ (Markup.renderList d.markup ++ z.toList))),
          c.remarks ++ d.remarks) := by
    cases ha : convert a <;> cases hb : convert b <;> simp [fill, Part.fill, ha, hb]
  rw [hfill]
  exact placesAs_binary h

/-! ## Constructs as they are written -/

theorem render_row (ms : List Markup) :
    (Markup.row ms).render = "<mrow>".toList ++ (Markup.renderList ms ++ "</mrow>".toList) := by
  simp [Markup.row, Markup.node, Markup.render, Markup.renderHead]

theorem render_operator {c : Char} (hc : escapeText [c] = [c]) :
    (Markup.operator [c]).render = "<mo>".toList ++ c :: "</mo>".toList := by
  simp [Markup.operator, Markup.token, Markup.node, Markup.render, Markup.renderList, Markup.renderHead, hc]

theorem renderHead_attribute {name key : String} {value : List Char} (hvalue : escapeAttribute value = value) :
    Markup.renderHead name [(key, value)] =
      '<' :: name.toList ++ (' ' :: key.toList ++ ('=' :: '"' :: value ++ ['"'])) := by
  simp [Markup.renderHead, Markup.renderAttribute, hvalue]

theorem escapeAttribute_fontVariant (command : String) :
    escapeAttribute (fontVariant command).toList = (fontVariant command).toList := by
  unfold fontVariant
  split <;> rfl

/-- The listed commands are those with a variant of their own. -/
theorem fontVariant_eq : ∀ command ∈ variants.map Prod.fst,
    fontVariant command = (variants.lookup command).getD "" := by decide

theorem accentMark_eq : ∀ command ∈ marks.map Prod.fst,
    String.ofList [accentMark command] = (marks.lookup command).getD "" := by decide

theorem carriedText_eq (s : List Char) : carriedText s = legalText s := by
  refine List.filter_congr fun c _ => ?_
  rw [Bool.eq_iff_iff, decide_eq_true_eq]
  have hsame : ∀ d : Char, c = d ↔ c.toNat = d.toNat := fun d => Char.toNat_inj.symm
  have htab : '\t'.toNat = 0x9 := rfl
  have hfeed : '\n'.toNat = 0xA := rfl
  have hreturn : '\r'.toNat = 0xD := rfl
  rw [hsame, hsame, hsame, htab, hfeed, hreturn, isCarried]
  by_cases hcontrol : c.toNat < 0x20
  · simp [hcontrol]
    omega
  · simp [hcontrol]
    omega

theorem escapeText_accentMark (command : String) : escapeText [accentMark command] = [accentMark command] := by
  unfold accentMark
  split <;> rfl

/-- The templates are those of the constructs, in the same order. -/
theorem forall₂_templates : List.Forall₂
    (fun c t => t.commands = c.commands ∧ ∀ command ∈ t.commands, (c.build command).Agrees (t.parts command))
    constructs templates := by
  unfold constructs templates
  refine .cons ⟨rfl, ?fraction⟩ <| .cons ⟨rfl, ?binomial⟩ <| .cons ⟨rfl, ?root⟩ <| .cons ⟨rfl, ?text⟩ <|
    .cons ⟨rfl, ?upright⟩ <| .cons ⟨rfl, ?font⟩ <| .cons ⟨rfl, ?accent⟩ <| .cons ⟨rfl, ?underline⟩ <|
    .cons ⟨rfl, ?color⟩ <| .cons ⟨rfl, ?boxed⟩ .nil
  case fraction =>
    refine fun command _ convert a b => placesAs_fill_two _ _ _ fun m n => ?_
    simp [fraction, Markup.render, Markup.renderHead, Markup.renderList, render_row]
  case binomial =>
    refine fun command _ convert a b => placesAs_fill_two _ _ _ fun m n => ?_
    have hthickness : escapeAttribute ['0'] = ['0'] := rfl
    simp [fraction, Markup.render, Markup.renderList, render_row, render_operator (c := '(') rfl,
      render_operator (c := ')') rfl, renderHead_attribute hthickness]
  case root =>
    refine fun command _ => ⟨fun convert a => placesAs_fill_one _ _ fun m => ?_, fun convert a index =>
      placesAs_fill_two _ _ _ fun m n => ?_⟩
    all_goals simp [Markup.node, Markup.render, Markup.renderHead, Markup.renderList, render_row]
  case text =>
    refine fun command _ convert a => ⟨_, ?_, fun p => rfl⟩
    simp [Markup.token, Markup.node, Markup.render, Markup.renderHead, Markup.renderList, carriedText_eq,
      escapeText_eq_refer]
  case upright =>
    refine fun command _ convert a => ⟨_, ?_, fun p => rfl⟩
    have hvariant : escapeAttribute ['n', 'o', 'r', 'm', 'a', 'l'] = ['n', 'o', 'r', 'm', 'a', 'l'] := rfl
    simp [Markup.render, Markup.renderList, renderHead_attribute hvariant, carriedText_eq, escapeText_eq_refer]
  case font =>
    refine fun command hcommand convert a => placesAs_fill_one _ _ fun m => ?_
    rw [← fontVariant_eq command hcommand]
    simp [Markup.render, renderHead_attribute (escapeAttribute_fontVariant command)]
  case accent =>
    refine fun command hcommand convert a => placesAs_fill_one _ _ fun m => ?_
    rw [← accentMark_eq command hcommand]
    have haccent : escapeAttribute ['t', 'r', 'u', 'e'] = ['t', 'r', 'u', 'e'] := rfl
    simp [Markup.render, Markup.renderList, render_row, render_operator (escapeText_accentMark command),
      renderHead_attribute haccent]
  case underline =>
    refine fun command _ convert a => placesAs_fill_one _ _ fun m => ?_
    simp [Markup.node, Markup.render, Markup.renderHead, Markup.renderList, render_row,
      render_operator (c := '_') rfl]
  case color =>
    intro command _ convert color a
    have hfill : fill convert [color, a] [.written "<mstyle mathcolor=\"", .value 0, .written "\">", .converted 1,
        .written "</mstyle>"] = (convert a).map fun c => ((Markup.element "mstyle"
          [("mathcolor", carriedText (trim color))] c.markup).render, c.remarks) := by
      cases ha : convert a <;>
        simp [fill, Part.fill, ha, Markup.render, Markup.renderHead, Markup.renderAttribute, carriedText_eq,
          escapeAttribute_eq_refer, escapable]
    rw [hfill]
    exact placesAs_unary fun m => rfl
  case boxed =>
    refine fun command _ convert a => placesAs_fill_one _ _ fun m => ?_
    have hnotation : escapeAttribute ['b', 'o', 'x'] = ['b', 'o', 'x'] := rfl
    simp [Markup.render, Markup.renderList, render_row, renderHead_attribute hnotation]

/-! ## The template of a command -/

/-- A search by command finds the entry that lists it when no other one does. -/
theorem find?_contains {α : Type} {commands : α → List String} {command : String} {x : α} {l : List α}
    (hl : l.Pairwise fun y z => ∀ s ∈ commands y, s ∉ commands z) (hx : x ∈ l) (hcommand : command ∈ commands x) :
    (l.find? fun y => (commands y).contains command) = some x := by
  induction l with
  | nil => cases hx
  | cons y l ih =>
    rw [List.pairwise_cons] at hl
    rcases List.mem_cons.1 hx with rfl | hx
    · exact List.find?_cons_of_pos (List.contains_iff_mem.2 hcommand)
    · have hy : command ∉ commands y := fun h => hl.1 x hx command h hcommand
      rw [List.find?_cons_of_neg (by simpa using hy), ih hl.2 hx]

theorem disjoint_constructs : constructs.Pairwise fun c d => ∀ s ∈ c.commands, s ∉ d.commands := by decide

theorem disjoint_templates : templates.Pairwise fun t u => ∀ s ∈ t.commands, s ∉ u.commands := by decide

theorem exists_mem_of_forall₂ {α β : Type} {R : α → β → Prop} {l : List α} {l' : List β} {x : α}
    (h : List.Forall₂ R l l') (hx : x ∈ l) : ∃ y ∈ l', R x y := by
  induction h with
  | nil => cases hx
  | @cons x' y' l l' hxy _ ih =>
    rcases List.mem_cons.1 hx with rfl | hx
    · exact ⟨y', List.mem_cons_self, hxy⟩
    · obtain ⟨y, hy, hxy⟩ := ih hx
      exact ⟨y, List.mem_cons_of_mem _ hy, hxy⟩

variable {c : Construct} {command : String} {args : List (List Char × List Char)}

theorem agrees_template (hc : c ∈ constructs) (hcommand : command ∈ c.commands) :
    build? command = some (c.build command) ∧ (c.build command).Agrees (template command) := by
  obtain ⟨t, ht, hcommands, hagrees⟩ := exists_mem_of_forall₂ forall₂_templates hc
  have htemplate : template command = t.parts command := by
    rw [template, find?_contains disjoint_templates ht (hcommands ▸ hcommand)]
    rfl
  rw [build?, find?_contains disjoint_constructs hc hcommand, htemplate]
  exact ⟨rfl, hagrees command (hcommands ▸ hcommand)⟩

/-- The commands with arguments are words of letters, and none of them is read in another way first. -/
theorem commands_are_words : ∀ c ∈ constructs, ∀ command ∈ c.commands,
    command.toList ≠ [] ∧ command.toList.all isCommandLetter = true ∧ command ≠ "begin" ∧
      command ≠ "end" ∧ sizingCommands.contains command = false := by decide

/-! ## Reading a construct -/

/-- Arguments in braces, each behind its blanks. -/
def braced (args : List (List Char × List Char)) : List Char :=
  args.flatMap fun (blanks, a) => blanks ++ '{' :: (a ++ ['}'])

/-- Behind a backslash the text is read as one piece, up to its end and whatever follows; the piece is written
as these parts with these arguments. -/
def Expands (s : List Char) (args : List (List Char)) (parts : List Part) : Prop :=
  ∃ piece, (∀ v, readPieces '\\' (s ++ v) = ([piece], v)) ∧
    ∀ convert, PlacesAs convert piece (fill convert args parts)

/-- Blanks, and a text that its braces close. -/
def IsArgument (arg : List Char × List Char) : Prop := (∀ b ∈ arg.1, isBlank b = true) ∧ IsBalanced arg.2

instance (arg : List Char × List Char) : Decidable (IsArgument arg) :=
  decidable_of_iff (arg.1.all isBlank = true ∧ IsBalanced arg.2) (and_congr_left' List.all_eq_true)

theorem braced_cons (arg : List Char × List Char) (v : List Char) :
    braced (arg :: args) ++ v = arg.1 ++ '{' :: (arg.2 ++ '}' :: (braced args ++ v)) := by simp [braced]

/-- Behind a command name, blanks and a sign end the name. -/
theorem head?_blanks {blanks t : List Char} {d : Char} (hblanks : ∀ b ∈ blanks, isBlank b = true)
    (hd : isCommandLetter d = false) : ∀ c ∈ (blanks ++ d :: t).head?, isCommandLetter c = false := by
  intro c hc
  cases blanks with
  | nil => exact Option.some.inj hc ▸ hd
  | cons b blanks =>
    exact Option.some.inj hc ▸ isCommandLetter_eq_false_of_isBlank (hblanks b List.mem_cons_self)

theorem argument?_cons {arg : List Char × List Char} (harg : IsArgument arg) (v : List Char) :
    argument? (braced (arg :: args) ++ v) = some (arg.2, braced args ++ v) := by
  rw [braced_cons]
  exact harg.2.argument?_eq harg.1 _

/-- In front of an argument in braces there is none in square brackets. -/
theorem bracketed?_cons {arg : List Char × List Char} (harg : IsArgument arg) (v : List Char) :
    bracketed? (braced (arg :: args) ++ v) = none := by
  have htrim : trimStart (braced (arg :: args) ++ v) = '{' :: (arg.2 ++ '}' :: (braced args ++ v)) := by
    rw [braced_cons]
    exact (takeWhile_append_of_head harg.1 (by simp; decide)).2
  simp [bracketed?, htrim]

theorem bracketed?_index {gap index : List Char} (hgap : ∀ b ∈ gap, isBlank b = true) (hindex : ']' ∉ index)
    (rest : List Char) :
    bracketed? (gap ++ '[' :: (index ++ ']' :: rest)) = some (some (index, rest)) := by
  have htrim : trimStart (gap ++ '[' :: (index ++ ']' :: rest)) = '[' :: (index ++ ']' :: rest) :=
    (takeWhile_append_of_head hgap (by simp; decide)).2
  have hbreak : breakOn? [']'] (index ++ ']' :: rest) = some (index, rest) := by
    refine (breakOn?_eq_some_iff (List.cons_ne_nil _ _)).2 ⟨by simp, fun h => hindex ?_⟩
    simpa using h.subset (List.mem_singleton_self ']')
  rw [bracketed?, htrim]
  exact congrArg some hbreak

/-- A construct takes as many arguments as it needs, and what it makes of them is written as its template. -/
theorem construct?_braced {build : Build} {parts : List Part} (hagrees : build.Agrees parts)
    (hlength : args.length = build.arity) (hargs : ∀ arg ∈ args, IsArgument arg) :
    ∃ piece, (∀ v, construct? build (braced args ++ v) = some (piece, v)) ∧
      ∀ convert, PlacesAs convert piece (fill convert (args.map (·.2)) parts) := by
  cases build with
  | unary f =>
    obtain ⟨arg, rfl⟩ := List.length_eq_one_iff.1 hlength
    rw [List.forall_mem_singleton] at hargs
    refine ⟨.unary f arg.2, fun v => ?_, fun convert => hagrees convert arg.2⟩
    rw [construct?, argument?_cons hargs]
    rfl
  | plain f =>
    obtain ⟨arg, rfl⟩ := List.length_eq_one_iff.1 hlength
    rw [List.forall_mem_singleton] at hargs
    refine ⟨.plain (f arg.2), fun v => ?_, fun convert => hagrees convert arg.2⟩
    rw [construct?, argument?_cons hargs]
    rfl
  | indexed bare f =>
    obtain ⟨arg, rfl⟩ := List.length_eq_one_iff.1 hlength
    rw [List.forall_mem_singleton] at hargs
    refine ⟨.unary bare arg.2, fun v => ?_, fun convert => hagrees.1 convert arg.2⟩
    simp only [construct?, bracketed?_cons hargs, argument?_cons hargs]
    rfl
  | binary f =>
    obtain ⟨first, second, rfl⟩ := List.length_eq_two.1 hlength
    obtain ⟨hfirst, hsecond⟩ := List.forall_mem_cons.1 hargs
    rw [List.forall_mem_singleton] at hsecond
    refine ⟨.binary f first.2 second.2, fun v => ?_, fun convert => hagrees convert first.2 second.2⟩
    simp only [construct?, argument?_cons hfirst, argument?_cons hsecond, Option.bind_eq_bind, Option.bind_some]
    rfl
  | styled f =>
    obtain ⟨first, second, rfl⟩ := List.length_eq_two.1 hlength
    obtain ⟨hfirst, hsecond⟩ := List.forall_mem_cons.1 hargs
    rw [List.forall_mem_singleton] at hsecond
    refine ⟨.unary (f first.2) second.2, fun v => ?_, fun convert => hagrees convert first.2 second.2⟩
    simp only [construct?, argument?_cons hfirst, argument?_cons hsecond, Option.bind_eq_bind, Option.bind_some]
    rfl

/-- A word that names a construct is read as the construct of what follows it. -/
theorem readPieces_of_construct? (hc : c ∈ constructs) (hcommand : command ∈ c.commands) {s rest : List Char}
    {piece : Piece} (hs : ∀ d ∈ s.head?, isCommandLetter d = false)
    (hpiece : construct? (c.build command) s = some (piece, rest)) :
    readPieces '\\' (command.toList ++ s) = ([piece], rest) := by
  obtain ⟨hne, hletters, hbegin, hend, hsizing⟩ := commands_are_words c hc command hcommand
  have hbuild := (agrees_template hc hcommand).1
  rw [readPieces, if_pos rfl, readCommand_word ⟨hne, List.all_eq_true.1 hletters, hs⟩]
  simp only [readWord, String.ofList_toList, hbegin, hend, hsizing, hbuild, hpiece, if_false, Bool.false_eq_true]

/-- **Constructs are made of their arguments.** There is a template for every command with arguments. Each command,
in front of as many texts in braces as it takes and of any text `v`, is read as one piece, which ends where the last
brace does; the piece adds one plain atom, written as the template of the command with these arguments alone. A root
with an index in square brackets has a template of its own. -/
theorem readPieces_construct :
    constructs.map Construct.commands = templates.map Template.commands ∧
    (∀ c ∈ constructs, ∀ command ∈ c.commands, ∀ args : List (List Char × List Char),
      args.length = (c.build command).arity → (∀ arg ∈ args, IsArgument arg) →
      Expands (command.toList ++ braced args) (args.map (·.2)) (template command)) ∧
    ∀ gap index (radicand : List Char × List Char), (∀ b ∈ gap, isBlank b = true) → ']' ∉ index →
      IsArgument radicand →
      Expands ("sqrt".toList ++ (gap ++ '[' :: (index ++ ']' :: braced [radicand]))) [radicand.2, index]
        indexedRoot := by
  refine ⟨rfl, ?_, ?_⟩
  · intro c hc command hcommand args hlength hargs
    obtain ⟨piece, hread, hplaces⟩ := construct?_braced (agrees_template hc hcommand).2 hlength hargs
    refine ⟨piece, fun v => ?_, hplaces⟩
    rw [List.append_assoc]
    refine readPieces_of_construct? hc hcommand ?_ (hread v)
    cases args with
    | nil => cases hbuild : c.build command <;> rw [hbuild] at hlength <;> cases hlength
    | cons arg args =>
      rw [braced_cons]
      exact head?_blanks (hargs arg List.mem_cons_self).1 rfl
  · intro gap index radicand hgap hindex hradicand
    obtain ⟨c, hc, hcommand, hbuild⟩ : ∃ c ∈ constructs, "sqrt" ∈ c.commands ∧ c.build "sqrt" =
        .indexed (fun a => .node "msqrt" [.row a]) fun a index => .node "mroot" [.row a, .row index] :=
      ⟨_, List.mem_cons_of_mem _ (List.mem_cons_of_mem _ List.mem_cons_self), List.mem_cons_self, rfl⟩
    have hagrees := (agrees_template hc hcommand).2
    rw [hbuild] at hagrees
    refine ⟨_, fun v => ?_, fun convert => hagrees.2 convert radicand.2 index⟩
    rw [List.append_assoc]
    refine readPieces_of_construct? hc hcommand ?_ ?_
    · rw [List.append_assoc, List.cons_append]
      exact head?_blanks hgap rfl
    · simp only [hbuild, construct?, List.append_assoc, List.cons_append, bracketed?_index hgap hindex,
        argument?_cons hradicand]
      rfl

/-- A fraction with nested and escaped braces, a text with a sign that is escaped and a character that markup does
not carry, a color with a quote, and a root whose index has a brace too many. -/
theorem readPieces_construct_nested :
    let args := [([], "\\frac\x7b1\x7d\x7bx_\x7b2\x7d\x7d".toList), ([' ', '\n'], "\\\x7d a".toList)]
    let words := [([' '], "a<\x07b".toList)]
    let colored := [([], " \"r".toList), ([], "x".toList)]
    (∀ arg ∈ args, IsArgument arg) ∧ (∀ arg ∈ words, IsArgument arg) ∧ (∀ arg ∈ colored, IsArgument arg) ∧
    IsArgument ([' '], "\\sqrt[3]\x7bx\x7d".toList) ∧
    Expands ("dfrac".toList ++ braced args) (args.map (·.2)) (template "dfrac") ∧
    Expands ("text".toList ++ braced words) (words.map (·.2)) (template "text") ∧
    (∀ convert, fill convert (words.map (·.2)) (template "text") = some ("<mtext>a&lt;b</mtext>".toList, [])) ∧
    Expands ("color".toList ++ braced colored) (colored.map (·.2)) (template "color") ∧
    fill (Tex.convert 2) (colored.map (·.2)) (template "color") =
      some ("<mstyle mathcolor=\"&quot;r\"><mi>x</mi></mstyle>".toList, []) ∧
    Expands ("sqrt".toList ++ ([' '] ++ '[' :: ("n\x7b".toList ++ ']' ::
      braced [([' '], "\\sqrt[3]\x7bx\x7d".toList)]))) ["\\sqrt[3]\x7bx\x7d".toList, "n\x7b".toList]
      indexedRoot := by
  intro args words colored
  have hargs : ∀ arg ∈ args, IsArgument arg := by decide +kernel
  have hwords : ∀ arg ∈ words, IsArgument arg := by decide +kernel
  have hcolored : ∀ arg ∈ colored, IsArgument arg := by decide +kernel
  have hradicand : IsArgument ([' '], "\\sqrt[3]\x7bx\x7d".toList) := by decide +kernel
  obtain ⟨-, hconstruct, hroot⟩ := readPieces_construct
  refine ⟨hargs, hwords, hcolored, hradicand, ?fraction, ?text, fun _ => rfl, ?color, ?filled, ?root⟩
  case fraction => exact hconstruct constructs[0] (List.getElem_mem _) "dfrac" (by decide) args rfl hargs
  case text => exact hconstruct constructs[3] (List.getElem_mem _) "text" (by decide) words rfl hwords
  case color => exact hconstruct constructs[8] (List.getElem_mem _) "color" (by decide) colored rfl hcolored
  case filled => decide +kernel
  case root => exact hroot [' '] "n\x7b".toList _ (List.forall_mem_singleton.2 rfl) (by decide +kernel) hradicand

end MathMarkup.Tex
