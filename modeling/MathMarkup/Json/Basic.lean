/-!
# JSON values

The value type, and two ways to write it: `render` on one line without blanks, and `renderPretty`
with two spaces of indent per level. Strings are escaped where JSON demands it and nowhere else;
members are written in the order they are held, which `sortKeys` makes the order of their keys.
-/

namespace MathMarkup

inductive Json where
  | null
  | bool (b : Bool)
  | int (n : Int)
  /-- A number that is no integer, by its shortest decimal form that reads back. -/
  | real (digits : String)
  | string (s : String)
  | array (items : List Json)
  | object (members : List (String × Json))
deriving Inhabited, Repr

namespace Json

/-- A text or null. -/
def ofString? (s : Option String) : Json := s.elim null string

/-- A natural number or null. -/
def ofNat? (n : Option Nat) : Json := n.elim null fun n => int n

def ofNat (n : Nat) : Json := int n

/-- The value of a member of an object. -/
def get? (key : String) : Json → Option Json
  | object members => members.lookup key
  | _ => none

/-! ## Writing -/

/-- Two hexadecimal digits. -/
def hexPair (n : Nat) : List Char := [Nat.digitChar (n / 16), Nat.digitChar (n % 16)]

/-- One character of a written string. -/
def escapeChar (c : Char) : List Char :=
  match c with
  | '"' => ['\\', '"']
  | '\\' => ['\\', '\\']
  | '\n' => ['\\', 'n']
  | '\r' => ['\\', 'r']
  | '\t' => ['\\', 't']
  | '\x08' => ['\\', 'b']
  | '\x0c' => ['\\', 'f']
  | c => if c.toNat < 0x20 then ['\\', 'u', '0', '0'] ++ hexPair c.toNat else [c]

/-- A string between its quotes. -/
def renderString (s : String) : String :=
  String.ofList ('"' :: s.toList.flatMap escapeChar ++ ['"'])

mutual

/-- The value on one line. -/
def render : Json → String
  | null => "null"
  | bool true => "true"
  | bool false => "false"
  | int n => toString n
  | real digits => digits
  | string s => renderString s
  | array items => "[" ++ ",".intercalate (renderItems items) ++ "]"
  | object members => "\x7b" ++ ",".intercalate (renderMembers members) ++ "\x7d"

def renderItems : List Json → List String
  | [] => []
  | v :: rest => render v :: renderItems rest

def renderMembers : List (String × Json) → List String
  | [] => []
  | (key, v) :: rest => (renderString key ++ ":" ++ render v) :: renderMembers rest

end

/-- A line break and the indent of a level. -/
def newline (level : Nat) : String := "\n" ++ String.ofList (List.replicate (2 * level) ' ')

/-- Written items between their brackets, each on a line of its own one level further in. -/
def bracket (level : Nat) (opening closing : String) (items : List String) : String :=
  if items.isEmpty then opening ++ closing
  else opening ++ newline (level + 1) ++ ("," ++ newline (level + 1)).intercalate items ++
    newline level ++ closing

mutual

/-- The value over several lines, when it starts at the given level of indent. -/
def renderPrettyAt (level : Nat) : Json → String
  | array items => bracket level "[" "]" (renderPrettyItems (level + 1) items)
  | object members => bracket level "\x7b" "\x7d" (renderPrettyMembers (level + 1) members)
  | null => "null"
  | bool true => "true"
  | bool false => "false"
  | int n => toString n
  | real digits => digits
  | string s => renderString s

def renderPrettyItems (level : Nat) : List Json → List String
  | [] => []
  | v :: rest => renderPrettyAt level v :: renderPrettyItems level rest

def renderPrettyMembers (level : Nat) : List (String × Json) → List String
  | [] => []
  | (key, v) :: rest =>
    (renderString key ++ ": " ++ renderPrettyAt level v) :: renderPrettyMembers level rest

end

/-- The value over several lines. -/
def renderPretty (v : Json) : String := renderPrettyAt 0 v

mutual

/-- The same value with the members of every object in the order of their keys. -/
def sortKeys : Json → Json
  | array items => array (sortKeysItems items)
  | object members => object ((sortKeysMembers members).mergeSort fun a b => a.1 ≤ b.1)
  | v => v

def sortKeysItems : List Json → List Json
  | [] => []
  | v :: rest => sortKeys v :: sortKeysItems rest

def sortKeysMembers : List (String × Json) → List (String × Json)
  | [] => []
  | (key, v) :: rest => (key, sortKeys v) :: sortKeysMembers rest

end

end Json

end MathMarkup
