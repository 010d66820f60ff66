/-!
# Request identifiers

The text of a random identifier of 128 bits: 32 hexadecimal digits in five groups, of which six bits
say that it is random.
-/

namespace MathMarkup.Relay

/-- The last `count` hexadecimal digits of a number. -/
def hexDigits : Nat → Nat → List Char
  | 0, _ => []
  | count + 1, n => hexDigits count (n / 16) ++ [Nat.digitChar (n % 16)]

/-- The identifier made from 122 random bits. -/
def identifier (n : Nat) : String :=
  let groups := [
    hexDigits 8 n,
    hexDigits 4 (n / Nat.pow 2 32),
    '4' :: hexDigits 3 (n / Nat.pow 2 48),
    Nat.digitChar (8 + n / Nat.pow 2 60 % 4) :: hexDigits 3 (n / Nat.pow 2 62),
    hexDigits 12 (n / Nat.pow 2 74)]
  "-".intercalate (groups.map String.ofList)

end MathMarkup.Relay
