import MathMarkup.Proofs.Conversion.Nesting
import MathMarkup.Proofs.Text.Groups

/-!
# The order of two scripts

Reading goes from left to right, so the place where it stands cuts the pieces of a text in two
(`ReadsTo.pieces_eq`), and what was placed before it is all that matters for what follows. At an atom
without scripts a subscript and a superscript can be written in either order
(`attachScript_comm`), whatever stands before them and in them.

Main theorem: `convert_scripts_comm`.
-/

namespace MathMarkup.Tex

open MathML Text

variable {s t u rest : List Char} {ps qs : List Piece} {p q : Progress} {atoms : List Atom}
  {f : List Char → Option Converted}

/-! ## Where reading stands -/

/-- Reading the text piece by piece, one gets to the rest with these pieces. -/
inductive ReadsTo : List Char → List Piece → List Char → Prop
  | refl (s : List Char) : ReadsTo s [] s
  | step {c : Char} {s rest : List Char} {ps : List Piece} (h : ReadsTo (readPieces c s).2 ps rest) :
    ReadsTo (c :: s) ((readPieces c s).1 ++ ps) rest

theorem ReadsTo.pieces_eq (h : ReadsTo s ps rest) : pieces s = ps ++ pieces rest := by
  induction h with
  | refl s => rfl
  | step _ ih => rw [pieces, ih, List.append_assoc]

theorem placeAll_append (p : Progress) (ps qs : List Piece) :
    placeAll f p (ps ++ qs) = (placeAll f p ps).bind fun q => placeAll f q qs := by
  induction ps generalizing p with
  | nil => rfl
  | cons piece ps ih =>
    simp only [List.cons_append, placeAll, Option.bind_eq_bind, ih, Option.bind_assoc]

/-- Converting the text from its start, one gets to the rest with these atoms, last first. -/
def StandsAt (f : List Char → Option Converted) (s rest : List Char) (atoms : List Atom) : Prop :=
  ∃ ps p, ReadsTo s ps rest ∧ placeAll f ⟨[], []⟩ ps = some p ∧ p.atoms = atoms

/-! ## Two scripts -/

/-- What stands before the last atom, and a subscript and a superscript on it; they stand on nothing when there
is no atom. -/
def withScripts (atoms : List Atom) (sub sup : List Markup) : List Markup :=
  atoms.tail.reverse.flatMap Atom.markup ++
    [.node "msubsup" [.row (atoms.head?.toList.flatMap Atom.markup), .row sub, .row sup]]

/-- **Scripts commute** on an atom without scripts. -/
theorem attachScript_comm (hatoms : ∀ a ∈ atoms.head?, ∃ m, a = .plain m) (sub sup : List Markup) :
    attachScript false sup (attachScript true sub atoms) = attachScript true sub (attachScript false sup atoms) ∧
      (attachScript false sup (attachScript true sub atoms)).reverse.flatMap Atom.markup =
        withScripts atoms sub sup := by
  cases atoms with
  | nil => exact ⟨rfl, rfl⟩
  | cons a atoms =>
    obtain ⟨m, rfl⟩ := hatoms a rfl
    refine ⟨rfl, ?_⟩
    simp [attachScript, Atom.addScript, Atom.withScript, Atom.markup, withScripts]

/-- A marker with a text in braces is a script, whatever follows. -/
theorem readPieces_script {marker : Char} (hmarker : marker = '_' ∨ marker = '^') (hs : IsBalanced s)
    (rest : List Char) :
    readPieces marker ('{' :: (s ++ '}' :: rest)) = ([.script (marker == '_') s], rest) := by
  have harg : argument? ([] ++ '{' :: (s ++ '}' :: rest)) = some (s, rest) :=
    hs.argument?_eq (List.forall_mem_nil _) rest
  rw [List.nil_append] at harg
  rcases hmarker with rfl | rfl <;> simp [readPieces, readScript, harg]

/-- A marker and its text in braces. -/
def script (marker : Char) (s : List Char) : List Char := marker :: '{' :: (s ++ ['}'])

theorem pieces_scripts {first second : Char} (hfirst : first = '_' ∨ first = '^')
    (hsecond : second = '_' ∨ second = '^') (hs : IsBalanced s) (ht : IsBalanced t) :
    pieces (script first s ++ script second t) = [.script (first == '_') s, .script (second == '_') t] := by
  have happend : script first s ++ script second t = first :: '{' :: (s ++ '}' :: second :: '{' :: (t ++ '}' :: [])) := by
    simp [script]
  rw [happend, pieces, readPieces_script hfirst hs, pieces, readPieces_script hsecond ht, pieces]
  rfl

/-- Where conversion stands, what is left is placed on the atoms so far. -/
theorem StandsAt.convert_eq {fuel : Nat} (h : StandsAt (convert fuel) s rest atoms) :
    ∃ remarks, (convert (fuel + 1) s).map (·.markup) =
      (placeAll (convert fuel) ⟨atoms, remarks⟩ (pieces rest)).map
        fun q => q.atoms.reverse.flatMap Atom.markup := by
  obtain ⟨ps, p, hreads, hplace, rfl⟩ := h
  refine ⟨p.remarks, ?_⟩
  rw [convert, hreads.pieces_eq, placeAll_append, hplace, Option.map_map]
  rfl

/-- What comes of the two scripts at the end of a text. -/
theorem placeAll_scripts (hatoms : ∀ a ∈ atoms.head?, ∃ m, a = .plain m) (remarks : List Remark) :
    let answer := do
      let sub ← f s
      let sup ← f t
      return withScripts atoms sub.markup sup.markup
    (placeAll f ⟨atoms, remarks⟩ [.script true s, .script false t]).map
        (fun q => q.atoms.reverse.flatMap Atom.markup) = answer ∧
      (placeAll f ⟨atoms, remarks⟩ [.script false t, .script true s]).map
        (fun q => q.atoms.reverse.flatMap Atom.markup) = answer := by
  cases hs : f s with
  | none => cases ht : f t <;> simp [placeAll, place, hs, ht]
  | some sub =>
    cases ht : f t with
    | none => simp [placeAll, place, hs, ht]
    | some sup =>
      obtain ⟨hcomm, hmarkup⟩ := attachScript_comm hatoms sub.markup sup.markup
      have hsub : placeAll f ⟨atoms, remarks⟩ [.script true s, .script false t] =
          some ⟨attachScript false sup.markup (attachScript true sub.markup atoms),
            remarks ++ sub.remarks ++ sup.remarks⟩ := by simp [placeAll, place, hs, ht]
      have hsup : placeAll f ⟨atoms, remarks⟩ [.script false t, .script true s] =
          some ⟨attachScript true sub.markup (attachScript false sup.markup atoms),
            remarks ++ sup.remarks ++ sub.remarks⟩ := by simp [placeAll, place, hs, ht]
      rw [hsub, hsup, ← hcomm]
      exact ⟨congrArg some hmarkup, congrArg some hmarkup⟩

/-- **A subscript and a superscript commute.** Let converting `u` and two scripts, in either order, stand behind
`u` with the same atoms, where the last one, if there is one, has no scripts. Then both texts convert to
the same markup, with both scripts on the last atom; there is an answer exactly if the texts of both scripts have
one, and with fuel for the length of the text there is, unless it holds forged placeholders. -/
theorem convert_scripts_comm {fuel : Nat} (hs : IsBalanced s) (ht : IsBalanced t)
    (hatoms : ∀ a ∈ atoms.head?, ∃ m, a = .plain m)
    (hsub : StandsAt (convert fuel) (u ++ (script '_' s ++ script '^' t)) (script '_' s ++ script '^' t) atoms)
    (hsup : StandsAt (convert fuel) (u ++ (script '^' t ++ script '_' s)) (script '^' t ++ script '_' s) atoms) :
    let answer := do
      let sub ← convert fuel s
      let sup ← convert fuel t
      return withScripts atoms sub.markup sup.markup
    (convert (fuel + 1) (u ++ (script '_' s ++ script '^' t))).map (·.markup) = answer ∧
    (convert (fuel + 1) (u ++ (script '^' t ++ script '_' s))).map (·.markup) = answer ∧
    (NoToken (u ++ (script '_' s ++ script '^' t)) → (u ++ (script '_' s ++ script '^' t)).length ≤ fuel →
      answer.isSome) := by
  intro answer
  obtain ⟨remarks, hleft⟩ := hsub.convert_eq
  obtain ⟨remarks', hright⟩ := hsup.convert_eq
  rw [pieces_scripts (Or.inl rfl) (Or.inr rfl) hs ht] at hleft
  rw [pieces_scripts (Or.inr rfl) (Or.inl rfl) ht hs] at hright
  have hanswer := hleft.trans (placeAll_scripts hatoms remarks).1
  refine ⟨hanswer, hright.trans (placeAll_scripts hatoms remarks').2, fun htoken hfuel => ?_⟩
  have hsome : (convert (fuel + 1) _).isSome := isSome_convert htoken (Nat.lt_succ_of_le hfuel)
  rwa [← Option.isSome_map (f := (·.markup)), hanswer] at hsome

/-- Scripts with scripts and fractions in them, behind a number and a letter. -/
theorem convert_scripts_comm_nested :
    let s := "a_\x7bi\x7d^\x7b2\x7d".toList
    let t := "\\frac\x7b1\x7d\x7bn\x7d".toList
    let atoms := [.plain (.identifier ['x']), .plain (.number ['2'])]
    let left := "2x".toList ++ (script '_' s ++ script '^' t)
    let right := "2x".toList ++ (script '^' t ++ script '_' s)
    IsBalanced s ∧ IsBalanced t ∧ NoToken left ∧ left.length ≤ 30 ∧
    (convert 31 left).map (·.markup) = (convert 31 right).map (·.markup) ∧
    ∃ sub ∈ convert 30 s, ∃ sup ∈ convert 30 t,
      (convert 31 left).map (·.markup) = some (withScripts atoms sub.markup sup.markup) := by
  intro s t atoms left right
  have hs : IsBalanced s := by decide +kernel
  have ht : IsBalanced t := by decide +kernel
  have hleft : NoToken left := noToken_of_hasMark_eq_false (by decide)
  have hlength : left.length ≤ 30 := by decide
  have hplain : ∀ a ∈ atoms.head?, ∃ m, a = .plain m := fun a ha => ⟨_, (Option.some.inj ha).symm⟩
  have hreads : ∀ rest, rest = script '_' s ++ script '^' t ∨ rest = script '^' t ++ script '_' s →
      StandsAt (convert 30) ("2x".toList ++ rest) rest atoms := by
    rintro rest (rfl | rfl)
    · exact ⟨_, _, .step (.step (.refl _)), rfl, rfl⟩
    · exact ⟨_, _, .step (.step (.refl _)), rfl, rfl⟩
  obtain ⟨h, h', hsome⟩ := convert_scripts_comm hs ht hplain (hreads _ (Or.inl rfl)) (hreads _ (Or.inr rfl))
  have hanswer := hsome hleft hlength
  refine ⟨hs, ht, hleft, hlength, h.trans h'.symm, ?_⟩
  cases hsub : convert 30 s with
  | none => simp [hsub] at hanswer
  | some sub =>
    cases hsup : convert 30 t with
    | none => simp [hsub, hsup] at hanswer
    | some sup =>
      rw [hsub, hsup] at h
      exact ⟨sub, rfl, sup, rfl, h⟩

end MathMarkup.Tex
