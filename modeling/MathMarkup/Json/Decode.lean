import MathMarkup.Json.Document
import MathMarkup.Text.Quoted

/-!
# Typed reading of JSON

Decoders walk a `Document` from the front and stop at the first thing that does not fit. A record is
read from an object, or from a list of its fields in order; fields without a value keep their
default. How a refusal is worded and placed depends on whether the value stands in a text, was read
before, or was set aside while the rest of its object was read (`Source`).
-/

namespace MathMarkup.Json

/-- Where a value comes from. -/
inductive Source where
  | text
  | value
  /-- Set aside until its object was read to the end. -/
  | setAside
deriving DecidableEq, Repr

namespace Document

/-- What stands here, as messages name it. -/
def described : Document → String
  | .null _ => "null"
  | .bool _ b => "boolean `" ++ (if b then "true" else "false") ++ "`"
  | .int _ n => "integer `" ++ toString n ++ "`"
  | .real _ digits => "floating point `" ++ digits ++ "`"
  | .string _ s => "string " ++ String.ofList (Text.quoted s.toList)
  | .array .. => "sequence"
  | .object .. => "map"
  | .tooLarge _ | .broken .. => ""

/-- The value is none of the wanted kind. A scalar is consumed before that is noticed, a list or an
object is not. -/
def refuse (d : Document) (wanted : String) : Fault :=
  match d with
  | .broken _ fault => fault
  | .tooLarge _ => ⟨.outOfRange, d.stop⟩
  | .array .. | .object .. => ⟨.wrongType d.described wanted, d.start⟩
  | _ => ⟨.wrongType d.described wanted, d.stop⟩

end Document

/-- Reads a value of some type. -/
abbrev Decoder (α : Type) := Source → Document → Except Fault α

namespace Decoder

def bool : Decoder Bool := fun _ d =>
  match d with
  | .bool _ b => .ok b
  | d => .error (d.refuse "a boolean")

def string : Decoder String := fun _ d =>
  match d with
  | .string _ s => .ok s
  | d => .error (d.refuse "a string")

/-- A natural number of 64 bits. -/
def word (wanted : String) : Decoder Nat := fun _ d =>
  match d with
  | .int _ n => if 0 ≤ n then .ok n.toNat else .error ⟨.wrongNumber n wanted, d.stop⟩
  | d => .error (d.refuse wanted)

/-- A value or null. -/
def optional {α : Type} (decode : Decoder α) : Decoder (Option α) := fun source d =>
  match d with
  | .null _ => .ok none
  | d => (decode source d).map some

def list {α : Type} (decode : Decoder α) : Decoder (List α) := fun source d =>
  match d with
  | .array _ items ending => do
    let values ← items.mapM (decode source)
    Document.Ending.check ending
    return values
  | d => .error (d.refuse "a sequence")

/-- The payload of a name that takes none: null, and among what was set aside also an object without
members. -/
def noPayload (source : Source) (d : Document) : Except Fault Unit :=
  match source, d with
  | _, .null _ => .ok ()
  | .setAside, .object _ [] _ => .ok ()
  | _, d => .error (d.refuse "unit")

/-- An object in a text must be closed behind its first member, which ends at `stop`. -/
def closedBehind {β : Type} (stop : Option Place) (others : List β) (ending : Ending) :
    Except Fault Unit :=
  match others, ending with
  | [], .closed => .ok ()
  | [], .broken ⟨.endOfObject, place⟩ _ => .error ⟨.endOfObject, place⟩
  | _, _ => .error ⟨.expectedValue, stop⟩

/-- Where a name should stand in an object of a text, and none does. -/
def noName (stop : Option Place) : Ending → Fault
  | .broken ⟨.endOfObject, place⟩ _ => ⟨.endOfValue, place⟩
  | .broken ⟨_, place⟩ _ => ⟨.expectedValue, place⟩
  | _ => ⟨.expectedValue, stop⟩

/-- One of several values, by its name. An object whose only member is the name, with null for its
value, stands for it too. -/
def variant {α : Type} (known : List (String × α)) : Decoder α := fun source d =>
  let lookUp (name : String) (place : Option Place) : Except Fault α :=
    match known.lookup name with
    | some value => .ok value
    | none => .error ⟨.unknownVariant name (known.map (·.1)), place⟩
  match source, d with
  | _, .string _ s => lookUp s d.stop
  | _, .broken _ fault => .error fault
  | .text, .object _ [] ending => .error (noName d.stop ending)
  | .text, .object _ ((name, place, payload) :: others) ending => do
    let value ← lookUp name place
    noPayload source payload
    closedBehind payload.stop others ending
    return value
  | .text, _ => .error ⟨.expectedValue, d.firstByte⟩
  | _, .object _ [(name, place, payload)] _ => do
    let value ← lookUp name place
    noPayload source payload
    return value
  | _, .object .. => .error ⟨.wrongValue "map" "map with a single key", none⟩
  | _, d => .error (d.refuse "string or map")

/-! ## Records -/

/-- A field of a record: how it is read into the record, and whether it must be there. -/
structure Field (ρ : Type) where
  name : String
  required : Bool
  read : ρ → Source → Document → Except Fault ρ

/-- The value of a field put into the record. -/
def Field.of {ρ α : Type} (name : String) (required : Bool) (decode : Decoder α) (set : ρ → α → ρ) :
    Field ρ :=
  ⟨name, required, fun r source d => (decode source d).map (set r)⟩

/-- What happens to the members of an object that are no fields. -/
def skipOther (source : Source) (d : Document) : Except Fault Unit :=
  match source with
  | .text => d.skip
  | _ => .ok ()

/-- Reads members one after the other; `seen` lists the fields that were there. -/
def members {ρ : Type} (fields : List (Field ρ)) (source : Source) :
    List String → ρ → List (String × Option Place × Document) → Except Fault (List String × ρ)
  | seen, r, [] => .ok (seen, r)
  | seen, r, (key, place, d) :: rest =>
    match fields.find? fun f => f.name == key with
    | none => do
      skipOther source d
      members fields source seen r rest
    | some f =>
      if seen.contains key then .error ⟨.duplicateField key, place⟩
      else do
        let r ← f.read r source d
        members fields source (key :: seen) r rest

/-- Reads the items of a list into the fields, in order, and returns the items left over. -/
def positional {ρ : Type} (wanted : String) (source : Source) (ending : Ending) (stop : Option Place) :
    Nat → List (Field ρ) → ρ → List Document → Except Fault (ρ × List Document)
  | _, [], r, items => .ok (r, items)
  | index, f :: fields, r, item :: items => do
    let r ← f.read r source item
    positional wanted source ending stop (index + 1) fields r items
  | index, f :: fields, r, [] => do
    Document.Ending.check ending
    if f.required then throw ⟨.wrongLength index wanted, stop⟩
    positional wanted source ending stop (index + 1) fields r []

/-- A list must end where the fields of a record end. -/
def endOfFields (source : Source) (count total : Nat) (ending : Ending) :
    List Document → Except Fault Unit
  | [] =>
    match ending with
    | .broken ⟨.expectedListEnd, place⟩ _ | .broken ⟨.endOfValue, place⟩ _ =>
      .error ⟨.trailingCharacters, place⟩
    | ending => Document.Ending.check ending
  | extra :: _ =>
    match source with
    | .text => .error ⟨.trailingCharacters, extra.firstByte⟩
    | .value => .error ⟨.wrongLength total "fewer elements in array", none⟩
    | .setAside =>
      .error ⟨.wrongLength total
        (if count = 1 then "1 element in sequence" else toString count ++ " elements in sequence"),
        none⟩

/-- A record and the number of its fields. -/
def countedFields (name : String) (count : Nat) : String :=
  name ++ " with " ++ if count = 1 then "1 element" else toString count ++ " elements"

/-- A record with the given fields, in their order, that starts from its defaults. `name` is what
messages call it. -/
def record {ρ : Type} (name : String) (fields : List (Field ρ)) (default : ρ) : Decoder ρ :=
  fun source d =>
  match d with
  | .object _ entries ending => do
    let (seen, r) ← members fields source [] default entries
    Document.Ending.check ending
    match fields.find? fun f => f.required && !seen.contains f.name with
    | some f => throw ⟨.missingField f.name, d.stop⟩
    | none => return r
  | .array _ items ending => do
    let wanted := countedFields name fields.length
    let (r, extra) ← positional wanted source ending d.stop 0 fields default items
    endOfFields source fields.length items.length ending extra
    return r
  | d => .error (d.refuse name)

/-! ## Members read apart -/

/-- Reads the member `key` where it stands; the values of the others are set aside. -/
def pick {α : Type} (key : String) (decode : Decoder α) (source : Source) :
    Option α → List (String × Json) → List (String × Option Place × Document) →
      Except Fault (Option α × List (String × Json))
  | own, aside, [] => .ok (own, aside.reverse)
  | own, aside, (name, place, d) :: rest =>
    if name = key then
      if own.isSome then .error ⟨.duplicateField key, place⟩
      else do
        let v ← decode source d
        pick key decode source (some v) aside rest
    else do
      let v ← d.value
      pick key decode source own ((name, v) :: aside) rest

/-- Decodes a value that was set aside. -/
def decodeAside {α : Type} (decode : Decoder α) (v : Json) : Except Fault α :=
  decode .setAside (Document.ofJson v)

/-- One of several names. -/
def nameOf {α : Type} (known : List (String × α)) : Decoder α := fun _ d =>
  match d with
  | .string _ s =>
    match known.lookup s with
    | some value => .ok value
    | none => .error ⟨.unknownVariant s (known.map (·.1)), d.stop⟩
  | d => .error (d.refuse "variant identifier")

/-- A value of one of several shapes; the member `key`, or the first item of a list, names the shape,
and the other members or items make the value. `name` is what messages call it. -/
def tagged {α : Type} (name key : String) (shapes : List (String × Decoder α)) : Decoder α :=
  fun source d =>
  match d with
  | .object _ entries ending => do
    let (shape, aside) ← pick key (nameOf shapes) source none [] entries
    Document.Ending.check ending
    match shape with
    | some shape => decodeAside shape (.object aside)
    | none => throw ⟨.missingField key, d.stop⟩
  | .array _ [] ending => do
    Document.Ending.check ending
    throw ⟨.missingField key, d.stop⟩
  | .array _ (first :: rest) ending => do
    let shape ← nameOf shapes source first
    let values ← rest.mapM Document.value
    Document.Ending.check ending
    decodeAside shape (.array values)
  | d => .error (d.refuse name)

end Decoder

/-- Reads a text that holds one value. -/
def decodeText {α : Type} (decode : Decoder α) (s : List Char) : Except Fault α := do
  let (document, behind) := Document.read s
  let value ← decode .text document
  match behind with
  | none => return value
  | some fault => throw fault

/-- Reads a value that was read before. The members of its objects come in the order of their keys. -/
def decodeValue {α : Type} (decode : Decoder α) (v : Json) : Except Fault α :=
  decode .value (Document.ofJson v.sortKeys)

end MathMarkup.Json
