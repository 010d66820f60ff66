import MathMarkup.Config.Reader

/-!
# Faults in settings

Why settings cannot be used: their file cannot be read, it is no JSON of the right shape, or a value
that was given elsewhere is none.
-/

namespace MathMarkup

inductive ConfigFault where
  | unreadable (path reason : String)
  | illFormed (path : String) (fault : Json.Fault)
  | invalidValue (key value : String)
deriving DecidableEq, Repr

namespace ConfigFault

def message : ConfigFault → String
  | unreadable path reason => "failed to read config " ++ path ++ ": " ++ reason
  | illFormed path fault => "failed to parse config " ++ path ++ ": " ++ fault.message
  | invalidValue key value =>
    "invalid value " ++ String.ofList (Text.quoted value.toList) ++ " for " ++ key

/-- What lies behind the fault. -/
def cause? : ConfigFault → Option String
  | unreadable _ reason => some reason
  | illFormed _ fault => some fault.message
  | invalidValue .. => none

end ConfigFault

/-- The policy that a person wrote down. -/
def Fallback.read (text : String) : Except ConfigFault Fallback :=
  match Fallback.ofText text with
  | .ok policy => .ok policy
  | .error name => .error (.invalidValue "fallback" name)

/-- Settings of some type from the content of a file, or from the reason why there is none. -/
def readSettings {α : Type} (decode : Json.Decoder α) (path : String)
    (content : Except String String) : Except ConfigFault α :=
  match content with
  | .error reason => .error (.unreadable path reason)
  | .ok text =>
    match Json.decodeText decode text.toList with
    | .ok settings => .ok settings
    | .error fault => .error (.illFormed path fault)

end MathMarkup
