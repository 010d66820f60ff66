import MathMarkup.Config.Fault

/-!
# Relay settings

The pause between two steps of a request, and the settings of the engine, which stand at the same
level of a settings file. Both can be overridden from the environment.
-/

namespace MathMarkup.Relay

open Json Text

structure Settings where
  /-- Milliseconds between two steps of one request. -/
  stepDelay : Nat := 1000
  engine : Config := {}
deriving DecidableEq, Repr

namespace Settings

/-- The settings as an object. The engine reads what is left when the object has ended. -/
def decoder : Decoder Settings := fun source d =>
  match d with
  | .object _ entries ending => do
    let (delay, aside) ← Decoder.pick "step_delay_ms" (Decoder.word "u64") source none [] entries
    Document.Ending.check ending
    match Decoder.decodeAside Config.decoder (.object aside) with
    | .ok engine => return ⟨delay.getD 1000, engine⟩
    | .error fault => throw { fault with place := d.stop }
  | d => .error (d.refuse "struct RelayConfig")

def toJson (s : Settings) : Json :=
  match s.engine.toJson with
  | .object members => .object (("step_delay_ms", .ofNat s.stepDelay) :: members)
  | other => other

/-- The number of 64 bits that a text gives, perhaps after a plus sign. -/
def word? (s : List Char) : Option Nat :=
  let digits := (after? ['+'] s).getD s
  let n := digits.foldl (fun n c => 10 * n + (c.toNat - '0'.toNat)) 0
  if digits.isEmpty || !digits.all Char.isDigit || Nat.pow 2 64 ≤ n then none else some n

/-- The variable that overrides the pause. -/
def delayKey : String := "MATHBOARD_STEP_DELAY_MS"

/-- The variable that overrides what stands in for math that cannot be made valid. -/
def fallbackKey : String := "MATHBOARD_FALLBACK"

/-- The settings with the pause that a variable gives. -/
def overrideDelay (s : Settings) : Option String → Except ConfigFault Settings
  | none => .ok s
  | some value =>
    match word? (trim value.toList) with
    | some delay => .ok { s with stepDelay := delay }
    | none => .error (.invalidValue delayKey value)

/-- The settings with the policy that a variable gives. -/
def overrideFallback (s : Settings) : Option String → Except ConfigFault Settings
  | none => .ok s
  | some value =>
    (Fallback.read value).map fun policy => { s with engine := { s.engine with fallback := policy } }

/-- The settings with what the variables of the environment give. -/
def overridden (lookUp : String → Option String) (s : Settings) : Except ConfigFault Settings := do
  let s ← s.overrideDelay (lookUp delayKey)
  s.overrideFallback (lookUp fallbackKey)

end Settings

end MathMarkup.Relay
