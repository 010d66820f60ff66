/-!
# Shortest decimal form of a binary number

A finite positive binary number `m * 2 ^ q` stands for all reals that round to it. `Binary.shortest`
finds the decimal with the fewest digits among them, and of two with equally many digits the nearer
one; `Layout` says how digits and exponent are written. `text` puts the two together for
numbers of 64 bits.
-/

namespace MathMarkup.Decimal

/-- A positive number `m * 2 ^ q`. -/
structure Binary where
  m : Nat
  q : Int
  /-- The number below is only half as far away as the number above. -/
  closeBelow : Bool

/-- A number `digits * 10 ^ exponent`. -/
structure Scientific where
  digits : Nat
  exponent : Int
deriving DecidableEq, Repr

namespace Binary

/-- `n * 2 ^ e` over the denominator `2 ^ d`, where `e + d` is not negative. -/
def scaled (n : Nat) (e : Int) (d : Nat) : Nat := n * Nat.pow 2 (e + d).toNat

/-- Does `digits * 10 ^ exponent` round to the number? The ends of the interval belong to it when `m`
is even. -/
def isNear (x : Binary) (digits : Nat) (exponent : Int) : Bool :=
  let d := (2 - x.q).toNat
  let low := scaled (4 * x.m - if x.closeBelow then 1 else 2) (x.q - 2) d
  let high := scaled (4 * x.m + 2) (x.q - 2) d
  -- compare `digits * 10 ^ exponent * 2 ^ d` with both ends
  let (point, scale) := (digits * Nat.pow 10 exponent.toNat * Nat.pow 2 d, Nat.pow 10 (-exponent).toNat)
  if x.m % 2 = 0 then low * scale ≤ point && point ≤ high * scale
  else low * scale < point && point < high * scale

/-- The numerator of the number over `10 ^ exponent`. -/
def above (x : Binary) (exponent : Int) : Nat :=
  x.m * Nat.pow 2 x.q.toNat * Nat.pow 10 (-exponent).toNat

/-- The denominator of the number over `10 ^ exponent`. -/
def below (x : Binary) (exponent : Int) : Nat := Nat.pow 2 (-x.q).toNat * Nat.pow 10 exponent.toNat

/-- The integer part of the number over `10 ^ exponent`. -/
def floorOver (x : Binary) (exponent : Int) : Nat :=
  x.above exponent / x.below exponent

/-- Twice the distance to `digits * 10 ^ exponent` is at most one unit of that grid. -/
def isNearerBelow (x : Binary) (digits : Nat) (exponent : Int) : Bool :=
  2 * x.above exponent ≤ (2 * digits + 1) * x.below exponent

/-- The exponent of the leading digit: the last power of ten, counted down from `10 ^ top`, that does
not exceed the number. -/
def leading (x : Binary) : Nat → Int → Int
  | 0, top => top
  | fuel + 1, top => if floorOver x top = 0 then leading x fuel (top - 1) else top

/-- The first grid, from `n` digits on, that has a point in the interval. -/
def search (x : Binary) (lead : Int) : Nat → Nat → Scientific
  | 0, n => ⟨floorOver x (lead - n), lead - n⟩
  | fuel + 1, n =>
    let exponent := lead - n
    let below := floorOver x exponent
    match isNear x below exponent, isNear x (below + 1) exponent with
    | true, true => if isNearerBelow x below exponent then ⟨below, exponent⟩ else ⟨below + 1, exponent⟩
    | true, false => ⟨below, exponent⟩
    | false, true => ⟨below + 1, exponent⟩
    | false, false => search x lead fuel (n + 1)

/-- The shortest decimal that rounds to the number. -/
def shortest (x : Binary) : Scientific := search x (leading x 700 309) 20 0

end Binary

/-- Drops the zeros at the end of the digits. -/
def Scientific.trim (x : Scientific) : Nat → Scientific
  | 0 => x
  | fuel + 1 =>
    if x.digits ≠ 0 ∧ x.digits % 10 = 0 then trim ⟨x.digits / 10, x.exponent + 1⟩ fuel else x

/-- Where positional notation ends. -/
structure Layout where
  /-- Most digits before the point. -/
  whole : Int
  /-- Most zeros between the point and the first digit. -/
  leadingZeros : Int

/-- A point is always written, except in the exponent form of a single digit. -/
def Layout.render (layout : Layout) (x : Scientific) : String :=
  let x := x.trim 20
  let ds := Nat.toDigits 10 x.digits
  let point : Int := ds.length + x.exponent
  let text :=
    if 0 ≤ x.exponent ∧ point ≤ layout.whole then
      ds ++ List.replicate x.exponent.toNat '0' ++ ['.', '0']
    else if 0 < point ∧ point ≤ layout.whole then
      ds.take point.toNat ++ '.' :: ds.drop point.toNat
    else if -layout.leadingZeros ≤ point ∧ point ≤ 0 then
      ['0', '.'] ++ List.replicate (-point).toNat '0' ++ ds
    else
      let mantissa := if ds.length = 1 then ds else ds.take 1 ++ '.' :: ds.drop 1
      mantissa ++ 'e' :: (toString (point - 1)).toList
  String.ofList text

/-- Numbers are written with a point up to sixteen digits before it and four zeros after it. -/
def layout : Layout := ⟨16, 4⟩

/-- The text of a finite number. -/
def text (x : Float) : String :=
  let bits := x.toBits.toNat
  let sign := if bits / Nat.pow 2 63 = 1 then "-" else ""
  let biased := bits / Nat.pow 2 52 % 2048
  let fraction := bits % Nat.pow 2 52
  let body :=
    if biased = 0 then
      if fraction = 0 then "0.0" else layout.render (Binary.shortest ⟨fraction, -1074, false⟩)
    else
      let exponent := Int.ofNat biased - 1075
      layout.render (Binary.shortest ⟨Nat.pow 2 52 + fraction, exponent, fraction = 0 && 1 < biased⟩)
  sign ++ body

end MathMarkup.Decimal
