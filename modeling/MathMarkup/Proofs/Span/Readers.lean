import MathMarkup.Proofs.Conversion.Arguments
import MathMarkup.Proofs.Span.Arguments
import MathMarkup.Proofs.Span.Bytes
import MathMarkup.Proofs.Span.Environments
import MathMarkup.Tex.Check
import MathMarkup.Tex.Piece

/-!
# Readers on byte offsets

The readers of arguments, constructs, scripts and environments, and the count of arguments, written on byte offsets
into one text. Each of them cuts slices out of the text, and a slice is out of range when its ends are out of order or
one of them is no boundary (`slice?`). Such a reader agrees with a reader of texts when it cuts no slice out of range
and comes to the same, at an offset further on (`Sliced.Agrees`).

Main theorem: `argumentSpan?_safe`.
-/

namespace MathMarkup.Tex

open Text

variable {α β : Type} {s t a arg rest : List Char} {c : Char} {least least' place start stop n : Nat}

/-! ## Readers that cut slices -/

/-- What a reader that cuts slices comes to: `none` when a slice is out of range, `some none` when there is nothing to
read. -/
abbrev Sliced (α : Type) := OptionT Option α

namespace Sliced

/-- There is nothing to read when there is no `o`. -/
def ofOption (o : Option α) : Sliced α := OptionT.mk (some o)

/-- What the reader finds, if there is anything. -/
def found? (m : Sliced α) : Sliced (Option α) := OptionT.mk (m.run.map some)

/-- The reader cuts no slice out of range and comes to what a reader of texts comes to: nothing, or the same thing. The
offset that it comes to is the start of the text that is left, and it is at least `least`. -/
def Agrees (s : List Char) (least : Nat) (m : Sliced (α × Nat)) : Option (α × List Char) → Prop
  | none => m.run = some none
  | some (x, rest) => ∃ stop, m.run = some (some (x, stop)) ∧ dropBytes? s stop = some rest ∧ least ≤ stop

@[simp] theorem lift_some (x : α) : (liftM (some x) : Sliced α) = pure x := rfl

@[simp] theorem ofOption_some (x : α) : ofOption (some x) = pure x := rfl

@[simp] theorem found?_pure (x : α) : found? (pure x : Sliced α) = pure (some x) := rfl

@[simp] theorem found?_none : found? (ofOption none : Sliced α) = pure none := rfl

theorem agrees_pure (x : α) (hstop : dropBytes? s stop = some rest) (hle : least ≤ stop) :
    Agrees s least (pure (x, stop)) (some (x, rest)) := ⟨stop, rfl, hstop, hle⟩

theorem Agrees.eq_none {m : Sliced (α × Nat)} (h : m.Agrees s least none) : m = ofOption none := h

theorem Agrees.exists_pure {m : Sliced (α × Nat)} {x : α} (h : m.Agrees s least (some (x, rest))) :
    ∃ stop, m = pure (x, stop) ∧ dropBytes? s stop = some rest ∧ least ≤ stop := h

/-- One reader after the other. -/
theorem Agrees.bind {m : Sliced (α × Nat)} {o : Option (α × List Char)} {f : α × Nat → Sliced (β × Nat)}
    {g : α × List Char → Option (β × List Char)} (h : m.Agrees s least o)
    (hnext : ∀ x stop rest, o = some (x, rest) → dropBytes? s stop = some rest → least ≤ stop →
      (f (x, stop)).Agrees s least' (g (x, rest))) : (m >>= f).Agrees s least' (o >>= g) := by
  cases o with
  | none =>
    rw [h.eq_none]
    rfl
  | some p =>
    obtain ⟨stop, rfl, hstop, hle⟩ := h.exists_pure
    rw [pure_bind]
    exact hnext p.1 stop p.2 rfl hstop hle

end Sliced

/-! ## Arguments -/

/-- The byte behind the blanks in front of the text `rest`, which starts at byte `place`. -/
def behindBlanks (place : Nat) (rest : List Char) : Nat := place + (byteLength rest - byteLength (trimStart rest))

/-- The end of the argument at byte `start`, where the text `rest` starts. -/
def argumentStop? (s : List Char) (start : Nat) (rest : List Char) : Sliced Nat :=
  match rest with
  | [] => failure
  | '{' :: _ => Sliced.ofOption (groupEndBytes? (utf8 s) start)
  | '}' :: _ | '&' :: _ | '^' :: _ | '_' :: _ | '%' :: _ | '$' :: _ => failure
  | '\\' :: [] => failure
  | '\\' :: '\\' :: _ => failure
  | '\\' :: c :: _ =>
    if isCommandLetter c then do
      let name ← dropBytes? s (start + 1)
      return start + 1 + (name.takeWhile isCommandLetter).length
    else return start + 1 + c.utf8Size
  | c :: _ => return start + c.utf8Size

/-- Start and end of the argument at or after byte `place`. -/
def spanAt? (s : List Char) (place : Nat) : Sliced (Nat × Nat) := do
  let rest ← Sliced.ofOption (dropBytes? s place)
  let start := behindBlanks place rest
  let text ← dropBytes? s start
  let stop ← argumentStop? s start text
  return (start, stop)

/-- An argument without its braces. -/
def unbraceAt? (arg : List Char) : Option (List Char) :=
  if 2 ≤ byteLength arg ∧ arg.head? = some '{' ∧ arg.getLast? = some '}' then slice? arg 1 (byteLength arg - 1)
  else some arg

/-- The argument at or after byte `place` without its braces. -/
def argumentAt? (s : List Char) (place : Nat) : Sliced (List Char × Nat) := do
  let (start, stop) ← spanAt? s place
  let arg ← slice? s start stop
  let text ← unbraceAt? arg
  return (text, stop)

theorem behindBlanks_eq (place : Nat) (t : List Char) :
    behindBlanks place t = place + byteLength (t.takeWhile isBlank) := by
  have hsplit : t.takeWhile isBlank ++ trimStart t = t := List.takeWhile_append_dropWhile
  have hlength := congrArg byteLength hsplit
  rw [byteLength_append] at hlength
  rw [behindBlanks]
  omega

theorem dropBytes?_behindBlanks (hplace : dropBytes? s place = some t) :
    dropBytes? s (behindBlanks place t) = some (trimStart t) := by
  obtain ⟨a, rfl, rfl⟩ := dropBytes?_eq_some_iff.1 hplace
  have hsplit : t.takeWhile isBlank ++ trimStart t = t := List.takeWhile_append_dropWhile
  refine dropBytes?_eq_some_iff.2 ⟨a ++ t.takeWhile isBlank, by rw [List.append_assoc, hsplit], ?_⟩
  rw [behindBlanks_eq, byteLength_append]

theorem utf8Size_of_isCommandLetter (hc : isCommandLetter c = true) : c.utf8Size = 1 := by
  have hrange := toNat_of_isAlpha hc
  have hval : c.val.toNat = c.toNat := rfl
  rw [Char.utf8Size_eq_one_iff, UInt32.le_iff_toNat_le, hval]
  exact Nat.le_trans (show c.toNat ≤ 122 by omega) (by decide)

theorem byteLength_letters {name : List Char} (h : ∀ c ∈ name, isCommandLetter c = true) :
    byteLength name = name.length := by
  induction name with
  | nil => rfl
  | cons c name ih =>
    obtain ⟨hc, hname⟩ := List.forall_mem_cons.1 h
    rw [byteLength_cons, List.length_cons, ih hname, utf8Size_of_isCommandLetter hc, Nat.add_comm]

theorem argumentStop?_eq (hstart : dropBytes? s start = some t) : argumentStop? s start t =
    Sliced.ofOption ((splitArgumentHere? t).map fun p => start + byteLength p.1) := by
  have hslash : '\\'.utf8Size = 1 := rfl
  fun_cases splitArgumentHere? t with
  | case1 | case3 | case4 | case5 | case6 | case7 | case8 | case9 | case10 => rfl
  | case2 t =>
    have hopen : '{'.utf8Size = 1 := rfl
    obtain ⟨a, rfl, rfl⟩ := dropBytes?_eq_some_iff.1 hstart
    refine congrArg Sliced.ofOption ?_
    rw [groupEndBytes?_utf8, groupEnd?_open, splitGroup?, Option.map_map]
    refine congrArg (Option.map · _) (funext fun p => ?_)
    simp only [Function.comp_apply, byteLength_cons, hopen, Nat.add_assoc]
  | case11 c t hne hletter =>
    have hname : dropBytes? s (start + 1) = some (c :: t) := dropBytes?_add (m := ['\\']) hstart
    have hsize := byteLength_letters (isLongestRun_takeWhile isCommandLetter (c :: t)).all
    simp only [argumentStop?, hletter, ↓reduceIte, hname, Sliced.lift_some, pure_bind]
    rw [← hsize, Option.map_some, byteLength_cons, hslash, Nat.add_assoc]
    rfl
  | case12 c t hne hletter =>
    simp only [argumentStop?, hletter, ↓reduceIte, Bool.false_eq_true, Option.map_some, byteLength_cons, hslash,
      byteLength_nil, Nat.add_zero, ← Nat.add_assoc]
    rfl
  | case13 c t hopen hclose hand hcaret hunderscore hpercent hdollar hone hbreak hword =>
    have hplain : argumentStop? s start (c :: t) = pure (start + c.utf8Size) := by
      rw [argumentStop?] <;> assumption
    exact hplain

/-- **The offsets of an argument** are computed without a slice out of range, whatever the offset to start from. -/
theorem spanAt?_eq (s : List Char) (place : Nat) : spanAt? s place = Sliced.ofOption (argumentSpan? s place) := by
  rw [spanAt?]
  cases hplace : dropBytes? s place with
  | none =>
    rw [argumentSpan?, hplace]
    rfl
  | some t =>
    have htext := dropBytes?_behindBlanks hplace
    simp only [Sliced.ofOption_some, Sliced.lift_some, pure_bind, htext, argumentStop?_eq htext]
    rw [argumentSpan?_of_dropBytes? hplace, splitArgument?, behindBlanks_eq]
    cases splitArgumentHere? (trimStart t) with
    | none => rfl
    | some p => simp only [Option.map_some, Sliced.ofOption_some, pure_bind]

theorem byteLength_braces (inner : List Char) : byteLength ('{' :: (inner ++ ['}'])) = 1 + byteLength inner + 1 := by
  rw [byteLength_cons, byteLength_append]
  exact (Nat.add_assoc 1 (byteLength inner) 1).symm

theorem unbraceAt?_eq (arg : List Char) : unbraceAt? arg = some (unbrace arg) := by
  fun_cases unbrace arg with
  | case1 rest hlast =>
    obtain ⟨inner, rfl⟩ := List.getLast?_eq_some_iff.1 hlast
    have hbytes := byteLength_braces inner
    have hends : 2 ≤ byteLength ('{' :: (inner ++ ['}'])) ∧ ('{' :: (inner ++ ['}'])).head? = some '{' ∧
        ('{' :: (inner ++ ['}'])).getLast? = some '}' :=
      ⟨by omega, rfl, List.getLast?_concat (l := '{' :: inner)⟩
    rw [unbraceAt?, if_pos hends, hbytes, List.dropLast_concat]
    exact slice?_append ['{'] inner ['}']
  | case2 rest hlast =>
    refine if_neg fun hends => ?_
    obtain ⟨hbytes, -, hend⟩ := hends
    cases rest with
    | nil => exact absurd hbytes (by decide)
    | cons c rest =>
      rw [List.getLast?_cons_cons] at hend
      exact hlast hend
  | case3 =>
    rename_i hopen
    refine if_neg fun hends => ?_
    obtain ⟨rest, rfl⟩ := List.head?_eq_some_iff.1 hends.2.1
    exact hopen rest rfl

/-- **Reading an argument.** -/
theorem argumentAt?_agrees (hplace : dropBytes? s place = some t) :
    (argumentAt? s place).Agrees s (place + 1) (argument? t) := by
  rw [argumentAt?, spanAt?_eq, argumentSpan?_of_dropBytes? hplace, argument?]
  cases hsplit : splitArgument? t with
  | none => rfl
  | some p =>
    obtain ⟨blanks, arg, rest⟩ := p
    obtain ⟨rfl, hne⟩ := append_of_splitArgument? hsplit
    rw [List.append_assoc] at hplace
    have hstart := dropBytes?_add hplace
    have hpos := byteLength_pos hne
    simp only [Option.map_some, Sliced.ofOption_some, pure_bind, slice?_of_dropBytes? hstart, Sliced.lift_some,
      unbraceAt?_eq]
    exact Sliced.agrees_pure _ (dropBytes?_add hstart) (by omega)

/-! ## Constructs -/

/-- The arguments that come next, as many as are demanded. -/
def argumentsAt? (s : List Char) : Nat → Nat → Sliced (List (List Char) × Nat)
  | 0, place => return ([], place)
  | count + 1, place => do
    let (arg, place) ← argumentAt? s place
    let (args, place) ← argumentsAt? s count place
    return (arg :: args, place)

/-- The text in square brackets that comes next, or none when there is no opening bracket. -/
def bracketedAt? (s : List Char) (place : Nat) : Sliced (Option (List Char) × Nat) := do
  let rest ← dropBytes? s place
  if (trimStart rest).head? = some '[' then
    let start := behindBlanks place rest
    let text ← dropBytes? s start
    let (before, _) ← Sliced.ofOption (breakOn? [']'] text)
    let close := start + byteLength before
    let index ← slice? s (start + 1) close
    return (some index, close + 1)
  else return (none, place)

/-- The argument in square brackets, where a construct may have one. -/
def Build.indexAt? : Build → List Char → Nat → Sliced (Option (List Char) × Nat)
  | .indexed .., s, place => bracketedAt? s place
  | _, _, place => return (none, place)

/-- What a construct makes of its arguments; `none` when it uses one that it does not have. -/
def Build.piece? : Build → Option (List Char) → List (List Char) → Option Piece
  | .unary f, _, a :: _ => some (.unary f a)
  | .binary f, _, a :: b :: _ => some (.binary f a b)
  | .indexed bare _, none, a :: _ => some (.unary bare a)
  | .indexed _ f, some index, a :: _ => some (.binary f a index)
  | .plain f, _, a :: _ => some (.plain (f a))
  | .styled f, _, a :: b :: _ => some (.unary (f a) b)
  | _, _, _ => none

/-- A construct with its arguments. -/
def ruleAt? (build : Build) (s : List Char) (place : Nat) : Sliced (Piece × Nat) := do
  let (index, place) ← build.indexAt? s place
  let (args, place) ← argumentsAt? s build.arity place
  let piece ← build.piece? index args
  return (piece, place)

/-- The next arguments of a text. -/
def arguments? : Nat → List Char → Option (List (List Char) × List Char)
  | 0, t => some ([], t)
  | count + 1, t => do
    let (arg, t) ← argument? t
    let (args, t) ← arguments? count t
    return (arg :: args, t)

/-- The text in square brackets in front of a text, or none when there is no opening bracket. -/
def index? (t : List Char) : Option (Option (List Char) × List Char) :=
  match bracketed? t with
  | none => some (none, t)
  | some bracketed => bracketed.map fun (index, rest) => (some index, rest)

/-- The argument in square brackets in front of a text, where a construct may have one. -/
def Build.index? : Build → List Char → Option (Option (List Char) × List Char)
  | .indexed .., t => Tex.index? t
  | _, t => some (none, t)

theorem construct?_eq_arguments (build : Build) (t : List Char) : construct? build t = (do
    let (index, t) ← build.index? t
    let (args, t) ← arguments? build.arity t
    let piece ← build.piece? index args
    return (piece, t)) := by
  -- one argument, or one argument and another one behind it
  have hone : ∀ t, arguments? 1 t = (argument? t).map fun p => ([p.1], p.2) := by
    intro t
    rw [arguments?]
    cases argument? t <;> rfl
  have htwo : ∀ t, arguments? 2 t = (argument? t).bind fun p => (argument? p.2).map fun q => ([p.1, q.1], q.2) := by
    intro t
    rw [arguments?]
    cases argument? t with
    | none => rfl
    | some p => cases hnext : argument? p.2 <;> simp [hone, hnext]
  cases build with
  | unary f | plain f =>
    simp only [construct?, Build.index?, Build.arity, hone, Option.bind_eq_bind, Option.bind_some]
    cases argument? t <;> rfl
  | binary f | styled f =>
    simp only [construct?, Build.index?, Build.arity, htwo, Option.bind_eq_bind, Option.bind_some]
    cases argument? t with
    | none => rfl
    | some p => cases hnext : argument? p.2 <;> simp [hnext, Build.piece?]
  | indexed bare f =>
    simp only [construct?, Build.index?, index?, Build.arity, hone, Option.bind_eq_bind]
    rcases bracketed? t with _ | _ | p
    · cases harg : argument? t <;> simp [harg, Build.piece?]
    · rfl
    · cases hnext : argument? p.2 <;> simp [hnext, Build.piece?]

theorem length_of_arguments? {args : List (List Char)} (h : arguments? n t = some (args, rest)) : args.length = n := by
  induction n generalizing t args with
  | zero =>
    obtain ⟨rfl, -⟩ := Prod.mk.inj (Option.some.inj h)
    rfl
  | succ n ih =>
    simp only [arguments?, Option.bind_eq_bind, Option.bind_eq_some_iff, Option.pure_def, Prod.exists] at h
    obtain ⟨arg, t', -, args', rest', hargs, heq⟩ := h
    obtain ⟨rfl, rfl⟩ := Prod.mk.inj (Option.some.inj heq)
    rw [List.length_cons, ih hargs]

theorem Build.exists_piece? (build : Build) (index : Option (List Char)) {args : List (List Char)}
    (h : args.length = build.arity) : ∃ piece, build.piece? index args = some piece := by
  cases build with
  | unary f | plain f =>
    match args, h with
    | [a], _ => exact ⟨_, rfl⟩
  | indexed bare f =>
    match args, h with
    | [a], _ => cases index <;> exact ⟨_, rfl⟩
  | binary f | styled f =>
    match args, h with
    | [a, b], _ => exact ⟨_, rfl⟩

theorem argumentsAt?_agrees (count : Nat) (hplace : dropBytes? s place = some t) :
    (argumentsAt? s count place).Agrees s (place + count) (arguments? count t) := by
  induction count generalizing place t with
  | zero => exact Sliced.agrees_pure _ hplace (Nat.le_refl place)
  | succ count ih =>
    refine (argumentAt?_agrees hplace).bind fun arg stop rest _ hstop hle => ?_
    refine (ih hstop).bind fun args last rest' _ hlast hle' => ?_
    exact Sliced.agrees_pure _ hlast (by omega)

theorem breakOn?_open (inner : List Char) :
    breakOn? [']'] ('[' :: inner) = (breakOn? [']'] inner).map fun p => ('[' :: p.1, p.2) := by
  simp [breakOn?, after?]

/-- Where a text in square brackets starts and ends. -/
theorem dropBytes?_of_breakOn? {index : List Char} (htext : dropBytes? s start = some ('[' :: t))
    (hclose : breakOn? [']'] t = some (index, rest)) :
    slice? s (start + 1) (start + byteLength ('[' :: index)) = some index ∧
      dropBytes? s (start + byteLength ('[' :: index) + 1) = some rest := by
  rw [eq_append_of_breakOn? hclose, List.append_assoc] at htext
  have hindex : dropBytes? s (start + 1) = some (index ++ ([']'] ++ rest)) := dropBytes?_add (m := ['[']) htext
  have hclosing := dropBytes?_add (m := [']']) (dropBytes?_add hindex)
  have hstop : start + byteLength ('[' :: index) = start + 1 + byteLength index := (Nat.add_assoc start 1 _).symm
  rw [hstop]
  exact ⟨slice?_of_dropBytes? hindex, hclosing⟩

theorem bracketedAt?_agrees (hplace : dropBytes? s place = some t) :
    (bracketedAt? s place).Agrees s place (index? t) := by
  have htext := dropBytes?_behindBlanks hplace
  simp only [bracketedAt?, index?, hplace, Sliced.lift_some, pure_bind]
  by_cases hopen : (trimStart t).head? = some '['
  · obtain ⟨inner, hinner⟩ := List.head?_eq_some_iff.1 hopen
    have hbracketed : bracketed? t = some (breakOn? [']'] inner) := by simp only [bracketed?, hinner]
    rw [hinner] at htext
    simp only [hopen, ↓reduceIte, htext, Sliced.lift_some, pure_bind, breakOn?_open, hbracketed]
    cases hclose : breakOn? [']'] inner with
    | none => rfl
    | some p =>
      obtain ⟨hslice, hdrop⟩ := dropBytes?_of_breakOn? htext hclose
      simp only [Option.map_some, Sliced.ofOption_some, pure_bind, hslice, Sliced.lift_some]
      exact Sliced.agrees_pure _ hdrop (by rw [behindBlanks_eq]; omega)
  · simp only [hopen, ↓reduceIte, bracketed?_eq_none_iff.2 hopen]
    exact Sliced.agrees_pure none hplace (Nat.le_refl place)

theorem indexAt?_agrees (build : Build) (hplace : dropBytes? s place = some t) :
    (build.indexAt? s place).Agrees s place (build.index? t) := by
  cases build with
  | unary | binary | plain | styled => exact Sliced.agrees_pure none hplace (Nat.le_refl place)
  | indexed bare f => exact bracketedAt?_agrees hplace

/-- **Reading a construct.** -/
theorem ruleAt?_agrees (build : Build) (hplace : dropBytes? s place = some t) :
    (ruleAt? build s place).Agrees s (place + 1) (construct? build t) := by
  have harity : 1 ≤ build.arity := by cases build <;> simp [Build.arity]
  rw [construct?_eq_arguments, ruleAt?]
  refine (indexAt?_agrees build hplace).bind fun index stop rest _ hstop hle => ?_
  refine (argumentsAt?_agrees build.arity hstop).bind fun args last rest' hargs hlast hle' => ?_
  obtain ⟨piece, hpiece⟩ := build.exists_piece? index (length_of_arguments? hargs)
  simp only [hpiece]
  exact Sliced.agrees_pure piece hlast (by omega)

/-! ## Scripts -/

/-- The operand of a script marker at byte `place`. -/
def scriptAt? (marker : Char) (s : List Char) (place : Nat) : Sliced (List Piece × Nat) := do
  match ← (argumentAt? s (place + 1)).found? with
  | some (operand, stop) => return ([.script (marker == '_') operand], stop)
  | none => return ([.remark (.missingOperand marker), .script (marker == '_') []], place + 1)

/-- **Reading a script.** -/
theorem scriptAt?_agrees {marker : Char} (hmarker : marker = '^' ∨ marker = '_')
    (hplace : dropBytes? s place = some (marker :: t)) :
    (scriptAt? marker s place).Agrees s (place + 1) (some (readScript marker t)) := by
  have hsize : byteLength [marker] = 1 := by rcases hmarker with rfl | rfl <;> rfl
  have hbehind : dropBytes? s (place + 1) = some t := hsize ▸ dropBytes?_add (m := [marker]) hplace
  have harg := argumentAt?_agrees hbehind
  rw [scriptAt?, readScript]
  cases hread : argument? t with
  | none =>
    rw [hread] at harg
    simp only [harg.eq_none, Sliced.found?_none, pure_bind]
    exact Sliced.agrees_pure _ hbehind (Nat.le_refl _)
  | some p =>
    rw [hread] at harg
    obtain ⟨stop, hfound, hstop, hle⟩ := harg.exists_pure
    simp only [hfound, Sliced.found?_pure, pure_bind]
    exact Sliced.agrees_pure _ hstop (by omega)

/-! ## Environments -/

/-- Start and end of the brace group at or after byte `place`. -/
def groupAt? (s : List Char) (place : Nat) : Sliced (Nat × Nat) := do
  let (start, stop) ← spanAt? s place
  let text ← dropBytes? s start
  if text.head? = some '{' then return (start, stop) else failure

/-- The body of an array without the description of its columns. -/
def withoutColumnsAt? (body : List Char) : Sliced (List Char) := do
  match ← (groupAt? body 0).found? with
  | some (_, stop) =>
    let table ← dropBytes? body stop
    return table
  | none => return body

/-- What an environment with this body turns into. -/
def environmentPiecesAt? (name body : List Char) : Sliced (List Piece) := do
  match fences? (String.ofList name) with
  | some fences =>
    if name = "array".toList then
      let table ← withoutColumnsAt? body
      return [.table fences (tableCells table)]
    else return [.table fences (tableCells body)]
  | none => return [.remark (.unknownEnvironment name), .unary .row body]

/-- An environment behind its opening command, which ends at byte `place`. -/
def environmentAt? (s : List Char) (place : Nat) : Sliced (List Piece × Nat) := do
  match ← (groupAt? s place).found? with
  | none => return ([.remark .unnamedEnvironment], place)
  | some (start, stop) =>
    -- a difference that would be below zero is zero, which is in front of the start of its slice
    let group ← slice? s (start + 1) (stop - 1)
    let name := trim group
    match environmentEnd? s stop name with
    | none => return ([.remark (.unclosedEnvironment name)], stop)
    | some last =>
      let body ← slice? s stop (last - byteLength (endOf name))
      let pieces ← environmentPiecesAt? name body
      return (pieces, last)

/-- The group that a reader on offsets finds is the group that is next in the text. -/
theorem groupAt?_cases (hplace : dropBytes? s place = some t) :
    groupAt? s place = Sliced.ofOption none ∧ nextGroup? t = none ∨
    ∃ start inner rest, groupAt? s place = pure (start, start + byteLength ('{' :: (inner ++ ['}']))) ∧
      nextGroup? t = some ('{' :: (inner ++ ['}']), rest) ∧ place ≤ start ∧
      dropBytes? s start = some ('{' :: (inner ++ ['}']) ++ rest) := by
  rw [groupAt?, spanAt?_eq, argumentSpan?_of_dropBytes? hplace, nextGroup?]
  cases hsplit : splitArgument? t with
  | none => exact Or.inl ⟨rfl, rfl⟩
  | some p =>
    obtain ⟨blanks, arg, rest⟩ := p
    obtain ⟨rfl, -⟩ := append_of_splitArgument? hsplit
    rw [List.append_assoc] at hplace
    have hstart := dropBytes?_add hplace
    simp only [Option.map_some, Sliced.ofOption_some, pure_bind, hstart, Sliced.lift_some]
    cases isArgumentBefore_of_splitArgument? hsplit with
    | group _ => exact Or.inr ⟨_, _, rest, rfl, rfl, Nat.le_add_right _ _, hstart⟩
    | word | escaped => exact Or.inl ⟨rfl, rfl⟩
    | @char c hblank hslash hopen hstop =>
      refine Or.inl ⟨if_neg fun h => hopen (Option.some.inj h), ?_⟩
      split
      · rename_i h
        cases h
        exact absurd rfl hopen
      · rfl

theorem withoutColumnsAt?_eq (body : List Char) : withoutColumnsAt? body = pure (dropColumns body) := by
  have hzero : dropBytes? body 0 = some body := by cases body <;> rfl
  rw [withoutColumnsAt?, dropColumns]
  rcases groupAt?_cases hzero with ⟨hgroup, hnext⟩ | ⟨start, inner, rest, hgroup, hnext, -, hstart⟩
  · rw [hgroup, hnext]
    rfl
  · rw [hgroup, hnext]
    simp only [Sliced.found?_pure, pure_bind, dropBytes?_add hstart, Sliced.lift_some]
    rfl

theorem environmentPiecesAt?_eq (name body : List Char) :
    environmentPiecesAt? name body = pure (environmentPieces name body) := by
  rw [environmentPiecesAt?, environmentPieces]
  cases fences? (String.ofList name) with
  | none => rfl
  | some fences =>
    by_cases harray : name = "array".toList
    · simp only [harray, ↓reduceIte, withoutColumnsAt?_eq, pure_bind]
    · simp only [harray, ↓reduceIte]

theorem exists_of_closeEnvironments? {name body : List Char} (h : closeEnvironments? name n s = some (body, rest)) :
    ∃ inner, body = inner ++ endOf name := by
  fun_induction closeEnvironments? name n s generalizing body rest with
  | case1 => cases h
  | case2 n c s rest' hc hd =>
    obtain ⟨rfl, -⟩ := Prod.mk.inj (Option.some.inj h)
    exact ⟨[], rfl⟩
  | case3 n c s rest' hc hd ih | case4 n c s hc rest' ho ih =>
    obtain ⟨body', hbody, rfl⟩ := eq_of_map_onFound h
    obtain ⟨inner, rfl⟩ := ih hbody
    exact ⟨_, (List.append_assoc _ inner _).symm⟩
  | case5 n c s hc ho ih =>
    obtain ⟨body', hbody, rfl⟩ := eq_of_map_onFound (x := [c]) h
    obtain ⟨inner, rfl⟩ := ih hbody
    exact ⟨c :: inner, rfl⟩

theorem slice?_groupBody {inner : List Char} (hstart : dropBytes? s start = some ('{' :: (inner ++ ['}']) ++ rest)) :
    slice? s (start + 1) (start + byteLength ('{' :: (inner ++ ['}'])) - 1) =
      some (groupBody ('{' :: (inner ++ ['}']))) := by
  have hinner : dropBytes? s (start + 1) = some (inner ++ (['}'] ++ rest)) := by
    rw [← List.append_assoc]
    exact dropBytes?_add (m := ['{']) hstart
  have hbytes := byteLength_braces inner
  have hend : start + byteLength ('{' :: (inner ++ ['}'])) - 1 = start + 1 + byteLength inner := by omega
  rw [hend, groupBody, List.tail_cons, List.dropLast_concat]
  exact slice?_of_dropBytes? hinner

/-- The slice in front of the word that closes an environment is the body of the environment. -/
theorem slice?_environmentBody {name whole : List Char} (hstart : dropBytes? s start = some t)
    (hsplit : splitEnvironment? name t = some (whole, rest)) :
    slice? s start (start + byteLength whole - byteLength (endOf name)) =
      some (whole.take (whole.length - (endOf name).length)) := by
  obtain ⟨body, rfl⟩ := exists_of_closeEnvironments? hsplit
  rw [append_of_closeEnvironments? hsplit, List.append_assoc] at hstart
  rw [List.length_append, Nat.add_sub_cancel, List.take_left, byteLength_append, ← Nat.add_assoc, Nat.add_sub_cancel]
  exact slice?_of_dropBytes? hstart

/-- **Reading an environment.** Behind its opening command something is taken exactly if there is a name. -/
theorem environmentAt?_agrees (hplace : dropBytes? s place = some t) :
    (environmentAt? s place).Agrees s (if (nextGroup? t).isSome then place + 1 else place)
      (some (readEnvironment t)) := by
  rw [environmentAt?, readEnvironment]
  rcases groupAt?_cases hplace with ⟨hgroup, hnext⟩ | ⟨start, inner, rest, hgroup, hnext, hle, hstart⟩
  · rw [hgroup, hnext]
    exact Sliced.agrees_pure _ hplace (Nat.le_refl place)
  · have hstop := dropBytes?_add hstart
    have hpos : 0 < byteLength ('{' :: (inner ++ ['}'])) := byteLength_cons_pos _ _
    simp only [hgroup, hnext, Sliced.found?_pure, pure_bind, slice?_groupBody hstart, Sliced.lift_some,
      environmentEnd?_of_dropBytes? hstop, Option.isSome_some, ↓reduceIte]
    cases hsplit : splitEnvironment? (trim (groupBody ('{' :: (inner ++ ['}'])))) rest with
    | none => exact Sliced.agrees_pure _ hstop (by omega)
    | some p =>
      obtain ⟨whole, rest'⟩ := p
      have hbody := slice?_environmentBody hstop hsplit
      rw [append_of_closeEnvironments? hsplit] at hstop
      simp only [Option.map_some, hbody, Sliced.lift_some, pure_bind, environmentPiecesAt?_eq]
      exact Sliced.agrees_pure _ (dropBytes?_add hstop) (by omega)

/-! ## Counting arguments -/

/-- The byte behind the text in square brackets that comes next, and the same byte when there is none. -/
def skipOptionalAt? (s : List Char) (place : Nat) : Sliced Nat := do
  let rest ← dropBytes? s place
  if (trimStart rest).head? = some '[' then
    match breakOn? [']'] (trimStart rest) with
    | some (before, _) => return behindBlanks place rest + byteLength before + 1
    | none => return place
  else return place

/-- How many arguments stand at or after byte `place`, counted up to `limit`, and the byte behind them. -/
def countAt? (s : List Char) : Nat → Nat → Sliced (Nat × Nat)
  | 0, place => return (0, place)
  | limit + 1, place => do
    match ← (spanAt? s place).found? with
    | some (_, stop) =>
      let (count, last) ← countAt? s limit stop
      return (count + 1, last)
    | none => return (0, place)

/-- The byte from which on the arguments of a command are counted, which ends at byte `place`. -/
def countedFrom? (s name : List Char) (place : Nat) : Sliced Nat :=
  if name == "sqrt".toList then skipOptionalAt? s place else return place

/-- The arguments that a command of the text misses. -/
def missingArgumentsAt? (s : List Char) (t : Token) : Sliced (Option Finding) :=
  if t.kind != .command then return none
  else do
    let name ← dropBytes? t.text 1
    match argumentCount? (String.ofList name) with
    | none => return none
    | some expected =>
      let place ← countedFrom? s name (t.offset + byteLength t.text)
      let (actual, _) ← countAt? s expected place
      return if actual < expected then some (.missingArguments name t.offset expected actual) else none

/-- Those of the tokens of the text that are commands and miss arguments. -/
def argumentFindingsAt? (s : List Char) : List Token → Sliced (List Finding)
  | [] => return []
  | t :: ts => do
    let found ← missingArgumentsAt? s t
    let findings ← argumentFindingsAt? s ts
    return found.toList ++ findings

/-- Every argument that is counted takes a byte at least. -/
theorem countAt?_eq (limit : Nat) (hplace : dropBytes? s place = some t) :
    ∃ stop, countAt? s limit place = pure (countArguments limit t, stop) ∧ IsBoundary s stop ∧
      place + countArguments limit t ≤ stop := by
  induction limit generalizing place t with
  | zero => exact ⟨place, rfl, isBoundary_iff.2 ⟨t, hplace⟩, Nat.le_refl place⟩
  | succ limit ih =>
    rw [countAt?, countArguments, spanAt?_eq, argumentSpan?_of_dropBytes? hplace]
    cases hsplit : splitArgument? t with
    | none => exact ⟨place, rfl, isBoundary_iff.2 ⟨t, hplace⟩, Nat.le_refl place⟩
    | some p =>
      obtain ⟨blanks, arg, rest⟩ := p
      obtain ⟨rfl, hne⟩ := append_of_splitArgument? hsplit
      have hpos := byteLength_pos hne
      rw [List.append_assoc] at hplace
      obtain ⟨last, hcount, hlast, hle⟩ := ih (dropBytes?_add (dropBytes?_add hplace))
      refine ⟨last, ?_, hlast, by simp only; omega⟩
      simp only [Option.map_some, Sliced.ofOption_some, Sliced.found?_pure, pure_bind, hcount]

theorem countedFrom?_eq (name : List Char) (hplace : dropBytes? s place = some t) :
    ∃ stop, countedFrom? s name place = pure stop ∧
      dropBytes? s stop = some (if name == "sqrt".toList then skipOptional t else t) := by
  have htext := dropBytes?_behindBlanks hplace
  by_cases hname : (name == "sqrt".toList) = true
  · rw [countedFrom?, if_pos hname, if_pos hname]
    simp only [skipOptionalAt?, hplace, Sliced.lift_some, pure_bind]
    by_cases hopen : (trimStart t).head? = some '['
    · obtain ⟨inner, hinner⟩ := List.head?_eq_some_iff.1 hopen
      rw [hinner] at htext
      simp only [skipOptional, hinner, breakOn?_open]
      cases hclose : breakOn? [']'] inner with
      | none => exact ⟨place, rfl, hplace⟩
      | some p => exact ⟨_, rfl, (dropBytes?_of_breakOn? htext hclose).2⟩
    · have hskip : skipOptional t = t := by
        unfold skipOptional
        split
        · rename_i inner hinner
          exact absurd (by rw [hinner]; rfl) hopen
        · rfl
      rw [if_neg hopen, hskip]
      exact ⟨place, rfl, hplace⟩
  · rw [countedFrom?, if_neg hname, if_neg hname]
    exact ⟨place, rfl, hplace⟩

theorem missingArgumentsAt?_eq {t : Token} (hcommand : t.kind = .command → ∃ name, t.text = '\\' :: name)
    (hbehind : dropBytes? s (t.offset + byteLength t.text) = some rest) :
    missingArgumentsAt? s t = pure (missingArguments? t rest) := by
  by_cases hkind : (t.kind != .command) = true
  · rw [missingArgumentsAt?, missingArguments?, if_pos hkind, if_pos hkind]
  · obtain ⟨name, hname⟩ := hcommand (by simpa using hkind)
    have hdrop : dropBytes? t.text 1 = some name := by
      rw [hname]
      exact dropBytes?_append ['\\'] name
    have htail : t.text.tail = name := by rw [hname, List.tail_cons]
    obtain ⟨stop, hcounted, hstop⟩ := countedFrom?_eq name hbehind
    rw [missingArgumentsAt?, missingArguments?, if_neg hkind, if_neg hkind, hdrop, htail]
    simp only [Sliced.lift_some, pure_bind]
    cases argumentCount? (String.ofList name) with
    | none => rfl
    | some expected =>
      obtain ⟨last, hcount, -⟩ := countAt?_eq expected hstop
      simp only [hcounted, pure_bind, hcount, Option.bind_some]

/-- **Counting arguments** along the tokens of a text. -/
theorem argumentFindingsAt?_eq (hplace : dropBytes? s place = some t) :
    argumentFindingsAt? s (tokensFrom place t) = pure (argumentFindingsOf t (tokensFrom place t)) := by
  fun_induction tokensFrom place t with
  | case1 => rfl
  | case2 place c t kind k hm text ih =>
    have hsplit : c :: t = text ++ t.drop k := by simp [text]
    have hbehind : dropBytes? s (place + byteLength text) = some (t.drop k) := by
      rw [hsplit] at hplace
      exact dropBytes?_add hplace
    have hcommand : kind = .command → ∃ name, text = '\\' :: name := by
      rintro rfl
      rcases fits_munch hm with ⟨name, hname, -⟩ | ⟨e, he, -⟩
      · exact ⟨name, hname⟩
      · exact ⟨[e], he⟩
    have hrest : (c :: t).drop text.length = t.drop k := by rw [hsplit, List.drop_left]
    rw [argumentFindingsAt?, argumentFindingsOf, missingArgumentsAt?_eq (t := ⟨kind, text, place⟩) hcommand hbehind]
    simp only [pure_bind, hrest, ih hbehind]

/-! ## Arguments are safe -/

/-- The readers that start at byte `place`, where the text `t` starts, cut no slice out of range and come to what the
readers of texts come to. Each of them gets on by one byte at least, counting by one for each argument; a reader of an
environment, which starts behind the opening command, gets on where there is a name. -/
structure ReadersAgree (s : List Char) (place : Nat) (t : List Char) : Prop where
  span : (spanAt? s place).run = some (argumentSpan? s place)
  construct : ∀ build, (ruleAt? build s place).Agrees s (place + 1) (construct? build t)
  script : ∀ marker u, marker = '^' ∨ marker = '_' → t = marker :: u →
    (scriptAt? marker s place).Agrees s (place + 1) (some (readScript marker u))
  environment : (environmentAt? s place).Agrees s (if (nextGroup? t).isSome then place + 1 else place)
    (some (readEnvironment t))
  count : ∀ limit, ∃ stop, (countAt? s limit place).run = some (some (countArguments limit t, stop)) ∧
    IsBoundary s stop ∧ place + countArguments limit t ≤ stop

theorem readersAgree (hplace : dropBytes? s place = some t) : ReadersAgree s place t where
  span := spanAt?_eq s place
  construct build := ruleAt?_agrees build hplace
  script _ _ hmarker ht := scriptAt?_agrees hmarker (ht ▸ hplace)
  environment := environmentAt?_agrees hplace
  count limit := countAt?_eq limit hplace

/-- **Finding an argument is safe.** From a boundary on, the span that is found is an argument with only blanks in
front of it, and none is found exactly where no argument starts. So no slice is out of range that is cut with such
spans, by the readers of constructs, scripts and environments or by the check that counts arguments. -/
theorem argumentSpan?_safe (hplace : IsBoundary s place) : ∃ t, dropBytes? s place = some t ∧
    (∀ start stop, argumentSpan? s place = some (start, stop) → IsArgumentSpan s place start stop) ∧
    (argumentSpan? s place = none ↔ NoArgument (trimStart t)) ∧
    ReadersAgree s place t ∧
    (argumentFindingsAt? s (tokens s)).run = some (some (argumentFindings s)) := by
  obtain ⟨t, ht⟩ := isBoundary_iff.1 hplace
  have hwhole : dropBytes? s 0 = some s := dropBytes?_append [] s
  exact ⟨t, ht, fun start stop => isArgumentSpan_of_argumentSpan? hplace, argumentSpan?_eq_none_iff ht,
    readersAgree ht, argumentFindingsAt?_eq hwhole⟩

/-- A group behind a blank, with an escaped brace and a character of two bytes in it, and behind the group a root
without its argument. -/
theorem argumentSpan?_safe_group :
    let s := "é_ \x7b\\\x7dé\x7d\\sqrt".toList
    IsBoundary s 3 ∧ argumentSpan? s 3 = some (4, 10) ∧ IsArgumentSpan s 3 4 10 ∧
    ReadersAgree s 3 " \x7b\\\x7dé\x7d\\sqrt".toList ∧
    (spanAt? s 3).run = some (some (4, 10)) ∧
    (countAt? s 1 3).run = some (some (1, 10)) ∧
    (argumentFindingsAt? s (tokens s)).run = some (some [.missingArguments "sqrt".toList 10 1 0]) := by
  intro s
  have hplace : IsBoundary s 3 := by decide +kernel
  have hspan : argumentSpan? s 3 = some (4, 10) := by decide +kernel
  have hfindings : argumentFindings s = [.missingArguments "sqrt".toList 10 1 0] := by decide +kernel
  obtain ⟨t, ht, hsome, -, hreaders, hcheck⟩ := argumentSpan?_safe hplace
  obtain rfl : t = " \x7b\\\x7dé\x7d\\sqrt".toList := Option.some.inj (ht.symm.trans (by decide +kernel))
  refine ⟨hplace, hspan, hsome 4 10 hspan, hreaders, ?_, by decide +kernel, ?_⟩
  · rw [hreaders.span, hspan]
  · rw [hcheck, hfindings]

end MathMarkup.Tex
