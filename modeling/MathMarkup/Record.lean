import MathMarkup.Route

/-!
# Steps and display records

A step is what an explanation consists of: a sentence, and perhaps some math. Its record is what the
display is sent: the sentence, and the math in its normal form in one of the two dialects.
-/

namespace MathMarkup

structure Step where
  natural : String
  math : String
deriving DecidableEq, Repr, Inhabited

/-- What the display is sent for a step. At most one of `math` and `mathml` is there; a step without
math has neither. -/
structure Record where
  natural : String
  math : Option (List Char)
  mathml : Option (List Char)
  number : Nat
  total : Nat
  requestId : String
deriving DecidableEq, Repr

namespace Record

/-- The record of one step. -/
def ofStep (config : Config) (requestId : String) (step : Step) (number total : Nat) : Record :=
  let s := step.math.toList
  if s.all Text.isBlank then ⟨step.natural, none, none, number, total, requestId⟩
  else
    let blob := route config s
    match blob.dialect with
    | .latex => ⟨step.natural, some blob.normalized, none, number, total, requestId⟩
    | .mathml => ⟨step.natural, none, some blob.normalized, number, total, requestId⟩

/-- The records of all steps of a request, which are numbered from 1. -/
def ofSteps (config : Config) (requestId : String) (steps : List Step) : List Record :=
  (steps.zipIdx 1).map fun (step, number) => ofStep config requestId step number steps.length

/-- The only record of a request without steps. -/
def failure (requestId : String) : Record :=
  ⟨"Error processing math request", some Tex.sentinel, none, 1, 1, requestId⟩

/-- The members of a record as an object. -/
def members (r : Record) : List (String × Json) :=
  let text (s : Option (List Char)) : Json := .ofString? (s.map String.ofList)
  [("natural", .string r.natural), ("math", text r.math), ("mathml", text r.mathml),
    ("stepNumber", .ofNat r.number), ("totalSteps", .ofNat r.total),
    ("requestId", .string r.requestId)]

def toJson (r : Record) : Json := .object r.members

end Record

end MathMarkup
