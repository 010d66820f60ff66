import MathMarkup.Json.Basic
import MathMarkup.Decimal.Shortest

/-!
# Reading JSON

`Document.read` turns a text into a `Document`: a value that knows where its parts stand, and that
ends early at the first fault. A typed reader walks it from the front, so a wrong value before the
fault is reported first. The same walk serves a value that was read before (`Document.ofJson`), which
has no places. Lines and bytes within a line are counted; the cause of a fault has one wording,
`Cause.message`.
-/

namespace MathMarkup.Json

/-- A place in a text: its line, from 1, and the number of bytes of that line before it. -/
structure Place where
  line : Nat
  column : Nat
deriving DecidableEq, Repr

/-- Why a text or a value was refused. -/
inductive Cause where
  | endOfList | endOfObject | endOfString | endOfValue
  | expectedColon | expectedListEnd | expectedObjectEnd | expectedIdent | expectedValue
  | badEscape | badNumber | outOfRange | controlCharacter | keyNotString
  | loneSurrogate | endOfEscape | trailingComma | trailingCharacters | tooDeep
  | wrongType (got wanted : String)
  | wrongNumber (got : Int) (wanted : String)
  | wrongValue (got wanted : String)
  | wrongLength (length : Nat) (wanted : String)
  | missingField (name : String)
  | duplicateField (name : String)
  | unknownVariant (name : String) (known : List String)
deriving DecidableEq, Repr

/-- The names a variant may have, as a message lists them. -/
def Cause.variants : List String → String
  | [a, b] => "`" ++ a ++ "` or `" ++ b ++ "`"
  | names => "one of " ++ ", ".intercalate (names.map fun n => "`" ++ n ++ "`")

def Cause.message : Cause → String
  | endOfList => "EOF while parsing a list"
  | endOfObject => "EOF while parsing an object"
  | endOfString => "EOF while parsing a string"
  | endOfValue => "EOF while parsing a value"
  | expectedColon => "expected `:`"
  | expectedListEnd => "expected `,` or `]`"
  | expectedObjectEnd => "expected `,` or `\x7d`"
  | expectedIdent => "expected ident"
  | expectedValue => "expected value"
  | badEscape => "invalid escape"
  | badNumber => "invalid number"
  | outOfRange => "number out of range"
  | controlCharacter => "control character (\\u0000-\\u001F) found while parsing a string"
  | keyNotString => "key must be a string"
  | loneSurrogate => "lone leading surrogate in hex escape"
  | endOfEscape => "unexpected end of hex escape"
  | trailingComma => "trailing comma"
  | trailingCharacters => "trailing characters"
  | tooDeep => "recursion limit exceeded"
  | wrongType got wanted => "invalid type: " ++ got ++ ", expected " ++ wanted
  | wrongNumber got wanted =>
    "invalid value: integer `" ++ toString got ++ "`, expected " ++ wanted
  | wrongValue got wanted => "invalid value: " ++ got ++ ", expected " ++ wanted
  | wrongLength length wanted =>
    "invalid length " ++ toString length ++ ", expected " ++ wanted
  | missingField name => "missing field `" ++ name ++ "`"
  | duplicateField name => "duplicate field `" ++ name ++ "`"
  | unknownVariant name known =>
    "unknown variant `" ++ name ++ "`, expected " ++ variants known

/-- A cause, and the place where it was noticed when it stands in a text. -/
structure Fault where
  cause : Cause
  place : Option Place
deriving DecidableEq, Repr

def Fault.message (f : Fault) : String :=
  match f.place with
  | none => f.cause.message
  | some p =>
    f.cause.message ++ " at line " ++ toString p.line ++ " column " ++ toString p.column

/-- How the reading of a list or an object went on after its last item. -/
inductive Ending where
  /-- It was closed. -/
  | closed
  /-- Its last item holds a fault. -/
  | cut
  /-- It was not closed; what a reader who skips the value notices is `skipped`. -/
  | broken (fault skipped : Fault)
deriving Repr

/-- Where a value stands: the places before it and behind it. -/
structure Extent where
  start : Place
  stop : Place
deriving DecidableEq, Repr

/-- A value as it stands in a text; the extent is missing when it comes from elsewhere. With each
member of an object goes the place behind its key. -/
inductive Document where
  | null (extent : Option Extent)
  | bool (extent : Option Extent) (b : Bool)
  | int (extent : Option Extent) (n : Int)
  | real (extent : Option Extent) (digits : String)
  /-- A number whose size exceeds all numbers of 64 bits. -/
  | tooLarge (extent : Option Extent)
  | string (extent : Option Extent) (s : String)
  | array (extent : Option Extent) (items : List Document) (ending : Ending)
  | object (extent : Option Extent) (members : List (String × Option Place × Document))
      (ending : Ending)
  /-- No value can be read here. -/
  | broken (extent : Option Extent) (fault : Fault)
deriving Inhabited, Repr

namespace Document

def extent : Document → Option Extent
  | .null e | .bool e _ | .int e _ | .real e _ | .tooLarge e | .string e _ | .array e _ _
  | .object e _ _ | .broken e _ => e

/-- The place before the value. -/
def start (d : Document) : Option Place := d.extent.map Extent.start

/-- The place behind the value. -/
def stop (d : Document) : Option Place := d.extent.map Extent.stop

/-- The place behind the first byte of the value. -/
def firstByte (d : Document) : Option Place := d.start.map fun p => ⟨p.line, p.column + 1⟩

/-! ## Cursors -/

/-- The rest of a text and the place where it starts. -/
structure Cursor where
  rest : List Char
  place : Place

namespace Cursor

/-- The place behind one more character. -/
def step (p : Place) (c : Char) : Place :=
  if c = '\n' then ⟨p.line + 1, 0⟩ else ⟨p.line, p.column + c.utf8Size⟩

/-- Consumes the characters in front that satisfy `p`. -/
def skipWhile (p : Char → Bool) (at' : Cursor) : Cursor :=
  go at'.rest at'.place
where
  go : List Char → Place → Cursor
    | [], place => ⟨[], place⟩
    | c :: s, place => if p c then go s (step place c) else ⟨c :: s, place⟩

/-- The blanks between the parts of a value. -/
def isSpace (c : Char) : Bool := c == ' ' || c == '\n' || c == '\t' || c == '\r'

def skipSpace : Cursor → Cursor := skipWhile isSpace

/-- The cursor behind the first character. -/
def advance (at' : Cursor) : Cursor :=
  match at'.rest with
  | [] => at'
  | c :: s => ⟨s, step at'.place c⟩

/-- The place behind the next byte, or here at the end of the text. -/
def peekPlace (at' : Cursor) : Place :=
  match at'.rest with
  | [] => at'.place
  | c :: _ => if c = '\n' then ⟨at'.place.line + 1, 0⟩ else ⟨at'.place.line, at'.place.column + 1⟩

/-- A fault noticed behind what was consumed. -/
def fault (at' : Cursor) (cause : Cause) : Fault := ⟨cause, some at'.place⟩

/-- A fault noticed at the next byte. -/
def peekFault (at' : Cursor) (cause : Cause) : Fault := ⟨cause, some at'.peekPlace⟩

end Cursor

open Cursor

/-! ## Scalars -/

/-- Reads the rest of `null`, `true` or `false`. -/
def readIdent : List Char → Cursor → Except Fault Cursor
  | [], at' => .ok at'
  | c :: word, at' =>
    match at'.rest with
    | [] => .error (at'.fault .endOfValue)
    | d :: _ =>
      if c = d then readIdent word at'.advance else .error (at'.advance.fault .expectedIdent)

/-- The value of a hexadecimal digit. -/
def hexDigit? (c : Char) : Option Nat :=
  if c.isDigit then some (c.toNat - '0'.toNat)
  else if 'a' ≤ c ∧ c ≤ 'f' then some (c.toNat - 'a'.toNat + 10)
  else if 'A' ≤ c ∧ c ≤ 'F' then some (c.toNat - 'A'.toNat + 10)
  else none

/-- Four hexadecimal digits. -/
def readHex (at' : Cursor) : Except Fault (Nat × Cursor) :=
  match at'.rest with
  | a :: b :: c :: d :: _ =>
    let behind := at'.advance.advance.advance.advance
    match hexDigit? a, hexDigit? b, hexDigit? c, hexDigit? d with
    | some a, some b, some c, some d => .ok (((a * 16 + b) * 16 + c) * 16 + d, behind)
    | _, _, _, _ => .error (behind.fault .badEscape)
  | _ => .error ((at'.skipWhile fun _ => true).fault .endOfString)

/-- The escape behind a backslash and the letter `u`: one code unit, or two that make a pair. -/
def readUnicode (at' : Cursor) : Except Fault (Char × Cursor) := do
  let (high, at') ← readHex at'
  if 0xDC00 ≤ high ∧ high ≤ 0xDFFF then
    throw (at'.fault .loneSurrogate)
  else if 0xD800 ≤ high ∧ high ≤ 0xDBFF then
    match at'.rest with
    | '\\' :: 'u' :: _ =>
      let (low, at') ← readHex at'.advance.advance
      if 0xDC00 ≤ low ∧ low ≤ 0xDFFF then
        return (Char.ofNat (0x10000 + (high - 0xD800) * 0x400 + (low - 0xDC00)), at')
      else throw (at'.fault .loneSurrogate)
    | '\\' :: _ => throw (at'.advance.advance.fault .endOfEscape)
    | _ => throw (at'.advance.fault .endOfEscape)
  else return (Char.ofNat high, at')

/-- The characters of a string up to its closing quote; `fuel` bounds their number. -/
def readString : Nat → List Char → Cursor → Except Fault (String × Cursor)
  | 0, _, at' => .error (at'.fault .endOfString)
  | fuel + 1, done, at' =>
    match at'.rest with
    | [] => .error (at'.fault .endOfString)
    | '"' :: _ => .ok (String.ofList done.reverse, at'.advance)
    | '\\' :: e :: _ =>
      let behind := at'.advance.advance
      match e with
      | '"' | '\\' | '/' => readString fuel (e :: done) behind
      | 'b' => readString fuel ('\x08' :: done) behind
      | 'f' => readString fuel ('\x0c' :: done) behind
      | 'n' => readString fuel ('\n' :: done) behind
      | 'r' => readString fuel ('\r' :: done) behind
      | 't' => readString fuel ('\t' :: done) behind
      | 'u' =>
        match readUnicode behind with
        | .ok (c, behind) => readString fuel (c :: done) behind
        | .error fault => .error fault
      | _ => .error (behind.fault .badEscape)
    | '\\' :: [] => .error (at'.advance.fault .endOfString)
    | c :: _ =>
      if c.toNat < 0x20 then .error (at'.advance.fault .controlCharacter)
      else readString fuel (c :: done) at'.advance

/-! ## Numbers -/

/-- The digits in front, the number they make, and how many of them fit into 64 bits: the rest is
only counted. -/
structure Digits where
  value : Nat
  used : Nat
  dropped : Nat

/-- Appends digits to a number while it fits into 64 bits. -/
def appendDigits (start : Nat) : List Char → Digits
  | [] => ⟨start, 0, 0⟩
  | c :: s =>
    let next := start * 10 + (c.toNat - '0'.toNat)
    if next < Nat.pow 2 64 then
      let d := appendDigits next s
      ⟨d.value, d.used + 1, d.dropped⟩
    else ⟨start, 0, (c :: s).length⟩

/-- `significand * 10 ^ exponent` as a number of 64 bits; `none` when it is too large. Each scaling
step rounds, the first one below 10^-308 included. -/
def scaleFloat : Nat → Float → Int → Option Float
  | 0, x, _ => some x
  | fuel + 1, x, exponent =>
    if exponent.natAbs ≤ 308 then
      let power := Float.ofScientific 1 false exponent.natAbs
      if 0 ≤ exponent then
        let y := x * power
        if y.isInf then none else some y
      else some (x / power)
    else if x == 0.0 then some x
    else if 0 ≤ exponent then none
    else scaleFloat fuel (x / 1e308) (exponent + 308)

/-- A value that starts here and cannot be read. -/
def brokenAt (start : Place) (fault : Fault) : Document := .broken (some ⟨start, start⟩) fault

/-- The number with this sign, significand and exponent. -/
def realOf (start : Place) (negative : Bool) (significand : Nat) (exponent : Int) (stop : Place) :
    Document :=
  match scaleFloat 16 significand.toUInt64.toFloat exponent with
  | none => .tooLarge (some ⟨start, stop⟩)
  | some x => .real (some ⟨start, stop⟩) (Decimal.text (if negative then -x else x))

/-- The exponent behind its letter. -/
def readExponent (start : Place) (negative : Bool) (significand : Nat) (shift : Int) (at' : Cursor) :
    Document × Cursor :=
  let (down, at') :=
    match at'.rest with
    | '+' :: _ => (false, at'.advance)
    | '-' :: _ => (true, at'.advance)
    | _ => (false, at')
  match at'.rest with
  | [] => (brokenAt start (at'.fault .endOfValue), at')
  | c :: _ =>
    if c.isDigit then
      let behind := at'.skipWhile Char.isDigit
      let size := (at'.rest.takeWhile Char.isDigit).foldl (fun n d => n * 10 + (d.toNat - 48)) 0
      let exponent := if down then shift - Int.ofNat size else shift + Int.ofNat size
      if Nat.pow 2 31 ≤ size then
        if significand ≠ 0 ∧ ¬ down then (.tooLarge (some ⟨start, behind.place⟩), behind)
        else (.real (some ⟨start, behind.place⟩) (if negative then "-0.0" else "0.0"), behind)
      else (realOf start negative significand exponent behind.place, behind)
    else (brokenAt start (at'.advance.fault .badNumber), at'.advance)

/-- What follows the digits of a number that is no integer. -/
def readScale (start : Place) (negative : Bool) (significand : Nat) (shift : Int) (at' : Cursor) :
    Document × Cursor :=
  match at'.rest with
  | 'e' :: _ | 'E' :: _ => readExponent start negative significand shift at'.advance
  | _ => (realOf start negative significand shift at'.place, at')

/-- The fraction behind its point. Digits that no longer fit are dropped. -/
def readFraction (start : Place) (negative : Bool) (significand : Nat) (shift : Int) (at' : Cursor) :
    Document × Cursor :=
  let digits := at'.rest.takeWhile Char.isDigit
  let behind := at'.skipWhile Char.isDigit
  match digits, at'.rest with
  | [], [] => (brokenAt start (at'.peekFault .endOfValue), at')
  | [], _ => (brokenAt start (at'.peekFault .badNumber), at')
  | _, _ =>
    let d := appendDigits significand digits
    readScale start negative d.value (shift - d.used) behind

/-- A number that starts at `start`, behind its sign. -/
def readNumber (start : Place) (negative : Bool) (at' : Cursor) : Document × Cursor :=
  match at'.rest with
  | [] => (brokenAt start (at'.fault .endOfValue), at')
  | c :: s =>
    if ¬ c.isDigit then (brokenAt start (at'.advance.fault .badNumber), at'.advance)
    else if c = '0' ∧ (s.head?.map Char.isDigit).getD false then
      (brokenAt start (at'.advance.peekFault .badNumber), at'.advance)
    else
      let d := appendDigits 0 (at'.rest.takeWhile Char.isDigit)
      let behind := at'.skipWhile Char.isDigit
      match behind.rest with
      | '.' :: _ => readFraction start negative d.value d.dropped behind.advance
      | 'e' :: _ | 'E' :: _ => readExponent start negative d.value d.dropped behind.advance
      | _ =>
        let extent := some ⟨start, behind.place⟩
        if d.dropped ≠ 0 then (realOf start negative d.value d.dropped behind.place, behind)
        else if ¬ negative then (.int extent d.value, behind)
        else if d.value = 0 ∨ Nat.pow 2 63 < d.value then
          (realOf start true d.value 0 behind.place, behind)
        else (.int extent (-d.value), behind)

/-! ## Values -/

/-- Is a fault inside it the last thing that can be read? -/
def isBroken : Document → Bool
  | .broken .. => true
  | .array _ _ .closed | .object _ _ .closed => false
  | .array .. | .object .. => true
  | _ => false

mutual

/-- One value. `fuel` bounds the parts that are read, `depth` the open lists and objects. -/
def readValue : Nat → Nat → Cursor → Document × Cursor
  | 0, _, at' => (brokenAt at'.place (at'.fault .tooDeep), at')
  | fuel + 1, depth, at' =>
    let at' := at'.skipSpace
    let start := at'.place
    let ident (word : List Char) (value : Option Extent → Document) :=
      match readIdent word at'.advance with
      | .ok behind => (value (some ⟨start, behind.place⟩), behind)
      | .error fault => (brokenAt start fault, at')
    match at'.rest with
    | [] => (brokenAt start (at'.peekFault .endOfValue), at')
    | 'n' :: _ => ident ['u', 'l', 'l'] .null
    | 't' :: _ => ident ['r', 'u', 'e'] (.bool · true)
    | 'f' :: _ => ident ['a', 'l', 's', 'e'] (.bool · false)
    | '-' :: _ => readNumber start true at'.advance
    | '"' :: s =>
      match readString (s.length + 1) [] at'.advance with
      | .ok (text, behind) => (.string (some ⟨start, behind.place⟩) text, behind)
      | .error fault => (brokenAt start fault, at')
    | '[' :: _ =>
      if depth ≤ 1 then (brokenAt start (at'.peekFault .tooDeep), at')
      else
        let (items, ending, behind) := readItems fuel (depth - 1) true at'.advance
        (.array (some ⟨start, behind.place⟩) items ending, behind)
    | '{' :: _ =>
      if depth ≤ 1 then (brokenAt start (at'.peekFault .tooDeep), at')
      else
        let (members, ending, behind) := readMembers fuel (depth - 1) true at'.advance
        (.object (some ⟨start, behind.place⟩) members ending, behind)
    | c :: _ =>
      if c.isDigit then readNumber start false at'
      else (brokenAt start (at'.peekFault .expectedValue), at')

/-- The items of a list, up to and with its closing bracket. -/
def readItems : Nat → Nat → Bool → Cursor → List Document × Ending × Cursor
  | 0, _, _, at' => ([], .broken (at'.fault .tooDeep) (at'.fault .tooDeep), at')
  | fuel + 1, depth, first, at' =>
    let at' := at'.skipSpace
    let broken (at' : Cursor) (cause skipped : Cause) : List Document × Ending × Cursor :=
      ([], .broken (at'.peekFault cause) (at'.peekFault skipped), at')
    let item (at' : Cursor) : List Document × Ending × Cursor :=
      let (value, behind) := readValue fuel depth at'
      if value.isBroken then ([value], .cut, behind)
      else
        let (items, ending, behind) := readItems fuel depth false behind
        (value :: items, ending, behind)
    match at'.rest, first with
    | [], _ => broken at' .endOfList .endOfList
    | ']' :: _, _ => ([], .closed, at'.advance)
    | _, true => item at'
    | ',' :: _, false =>
      let at' := at'.advance.skipSpace
      match at'.rest with
      | [] => broken at' .endOfValue .endOfValue
      | ']' :: _ => broken at' .trailingComma .expectedValue
      | _ => item at'
    | _, false => broken at' .expectedListEnd .expectedListEnd

/-- The members of an object, up to and with its closing brace. -/
def readMembers : Nat → Nat → Bool → Cursor →
    List (String × Option Place × Document) × Ending × Cursor
  | 0, _, _, at' => ([], .broken (at'.fault .tooDeep) (at'.fault .tooDeep), at')
  | fuel + 1, depth, first, at' =>
    let at' := at'.skipSpace
    let broken (at' : Cursor) (cause skipped : Cause) :
        List (String × Option Place × Document) × Ending × Cursor :=
      ([], .broken (at'.peekFault cause) (at'.peekFault skipped), at')
    let member (at' : Cursor) : List (String × Option Place × Document) × Ending × Cursor :=
      match readString (at'.rest.length + 1) [] at'.advance with
      | .error fault => ([], .broken fault fault, at')
      | .ok (key, behind) =>
        let behind := behind.skipSpace
        let broken (place : Place) (cause : Cause) :=
          ([(key, some place, brokenAt behind.place (behind.peekFault cause))], .cut, behind)
        match behind.rest with
        | ':' :: _ =>
          let (value, after) := readValue fuel depth behind.advance
          if value.isBroken then ([(key, some behind.place, value)], .cut, after)
          else
            let (members, ending, after) := readMembers fuel depth false after
            ((key, some behind.place, value) :: members, ending, after)
        | [] => broken behind.place .endOfObject
        | c :: _ =>
          broken (if c = '}' then behind.advance.place else behind.place) .expectedColon
    match at'.rest, first with
    | [], _ => broken at' .endOfObject .endOfObject
    | '}' :: _, _ => ([], .closed, at'.advance)
    | '"' :: _, true => member at'
    | _, true => broken at' .keyNotString .keyNotString
    | ',' :: _, false =>
      let at' := at'.advance.skipSpace
      match at'.rest with
      | [] => broken at' .endOfValue .endOfObject
      | '"' :: _ => member at'
      | '}' :: _ => broken at' .trailingComma .keyNotString
      | _ => broken at' .keyNotString .keyNotString
    | _, false => broken at' .expectedObjectEnd .expectedObjectEnd

end

/-- Lists and objects may be open at most this deep, one less than this. -/
def depthLimit : Nat := 128

/-- The value at the start of a text, and the fault of what follows it, if anything does. -/
def read (s : List Char) : Document × Option Fault :=
  let (value, behind) := readValue (2 * s.length + 2) depthLimit ⟨s, ⟨1, 0⟩⟩
  let behind := behind.skipSpace
  (value, if behind.rest.isEmpty then none else some (behind.peekFault .trailingCharacters))

/-- A fault of the ending, for a reader who looks at the whole value. -/
def Ending.check : Ending → Except Fault Unit
  | .broken fault _ => .error fault
  | _ => .ok ()

/-- A fault of the ending, for a reader who skips the value. -/
def Ending.checkSkipped : Ending → Except Fault Unit
  | .broken _ fault => .error fault
  | _ => .ok ()

mutual

/-- The whole value, or its first fault. -/
def value : Document → Except Fault Json
  | .null _ => .ok .null
  | .bool _ b => .ok (.bool b)
  | .int _ n => .ok (.int n)
  | .real _ digits => .ok (.real digits)
  | .tooLarge extent => .error ⟨.outOfRange, extent.map Extent.stop⟩
  | .string _ s => .ok (.string s)
  | .array _ items ending => do
    let items ← itemValues items
    Ending.check ending
    return .array items
  | .object _ members ending => do
    let members ← memberValues members
    Ending.check ending
    return .object members
  | .broken _ fault => .error fault

def itemValues : List Document → Except Fault (List Json)
  | [] => .ok []
  | d :: rest => do
    let v ← value d
    let vs ← itemValues rest
    return v :: vs

def memberValues : List (String × Option Place × Document) → Except Fault (List (String × Json))
  | [] => .ok []
  | (key, _, d) :: rest => do
    let v ← value d
    let vs ← memberValues rest
    return (key, v) :: vs

end

mutual

/-- The first fault that a reader who skips the value notices. -/
def skip : Document → Except Fault Unit
  | .array _ items ending => do
    skipItems items
    Ending.checkSkipped ending
  | .object _ members ending => do
    skipMembers members
    Ending.checkSkipped ending
  | .broken _ fault => .error fault
  | _ => .ok ()

def skipItems : List Document → Except Fault Unit
  | [] => .ok ()
  | d :: rest => do
    skip d
    skipItems rest

def skipMembers : List (String × Option Place × Document) → Except Fault Unit
  | [] => .ok ()
  | (_, _, d) :: rest => do
    skip d
    skipMembers rest

end

mutual

/-- A value that was read before, without places. -/
def ofJson : Json → Document
  | .null => .null none
  | .bool b => .bool none b
  | .int n => .int none n
  | .real digits => .real none digits
  | .string s => .string none s
  | .array items => .array none (ofItems items) .closed
  | .object members => .object none (ofMembers members) .closed

def ofItems : List Json → List Document
  | [] => []
  | v :: rest => ofJson v :: ofItems rest

def ofMembers : List (String × Json) → List (String × Option Place × Document)
  | [] => []
  | (key, v) :: rest => (key, none, ofJson v) :: ofMembers rest

end

end Document

/-- Reads a text that holds one value. -/
def parse? (s : String) : Except Fault Json := do
  let (document, behind) := Document.read s.toList
  let v ← document.value
  match behind with
  | none => return v
  | some fault => throw fault

end MathMarkup.Json
