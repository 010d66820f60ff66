import MathMarkup.Config
import MathMarkup.Json.Decode

/-!
# Reading engine settings

The settings as a JSON object, in which every field may be missing, or as a list of its fields.
-/

namespace MathMarkup

open Json

/-- A fallback policy by its name. -/
def Fallback.decoder : Decoder Fallback :=
  Decoder.variant [(repaired.name, repaired), (asGiven.name, asGiven), (sentinel.name, sentinel)]

namespace Config

/-- The fields, in the order in which a list gives them. -/
def fields : List (Decoder.Field Config) := [
  .of "sanitize" false Decoder.bool fun c v => { c with sanitize := v },
  .of "grammar_checks" false Decoder.bool fun c v => { c with grammarChecks := v },
  .of "fallback" false Fallback.decoder fun c v => { c with fallback := v },
  .of "max_expression_length" false (Decoder.word "usize") fun c v => { c with maxLength := v },
  .of "extra_commands" false (Decoder.list Decoder.string) fun c v => { c with extraCommands := v }]

def decoder : Decoder Config := Decoder.record "struct EngineConfig" fields {}

def toJson (c : Config) : Json :=
  .object [
    ("sanitize", .bool c.sanitize),
    ("grammar_checks", .bool c.grammarChecks),
    ("fallback", .string c.fallback.name),
    ("max_expression_length", .ofNat c.maxLength),
    ("extra_commands", .array (c.extraCommands.map .string))]

end Config

end MathMarkup
