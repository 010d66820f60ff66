import MathMarkup.Json.Decode
import MathMarkup.Record

/-!
# Reading steps

A step as a JSON object, or as a list of its fields; its math may be missing.
-/

namespace MathMarkup.Step

open Json

/-- The fields, in the order in which a list gives them. -/
def fields : List (Decoder.Field Step) := [
  .of "natural" true Decoder.string fun s v => { s with natural := v },
  .of "math" false Decoder.string fun s v => { s with math := v }]

def decoder : Decoder Step := Decoder.record "struct Step" fields ⟨"", ""⟩

end MathMarkup.Step
