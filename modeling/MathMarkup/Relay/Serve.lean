import MathMarkup.Relay.Basic

/-!
# Serving lines

Messages come one per line, with blanks around them; blank lines do not count. `serve` takes in all
lines before any emitter runs, and then lets the emitters run to their end.
-/

namespace MathMarkup.Relay

open Text

/-- What a line says, unless it is blank. -/
def readLine? (line : String) : Option (Except Json.Fault Inbound) :=
  match trim line.toList with
  | [] => none
  | s => some (Json.decodeText Inbound.decoder s)

/-- The names that are drawn for requests without an identifier, line by line. -/
def Names := Nat → String

/-- The same name is drawn all the time. -/
instance : Coe String Names := ⟨fun name _ => name⟩

/-- The lines, each behind the name that is drawn for it. -/
def Names.along (names : Names) (lines : List String) : List (String × String) :=
  lines.mapIdx fun k line => (names k, line)

/-- Takes a line in; one that cannot be read is answered at once. -/
def State.handleLine (s : State) (fresh line : String) : List Outbound × State :=
  match readLine? line with
  | none => ([], s)
  | some (.ok message) => ([], s.handle fresh message)
  | some (.error fault) => ([.refused fault], s)

/-- Takes lines in, one after the other, each with a name. -/
def State.handleLines : State → List (String × String) → List Outbound × State
  | s, [] => ([], s)
  | s, (fresh, line) :: lines =>
    let (sent, s) := s.handleLine fresh line
    let (later, s) := handleLines s lines
    (sent ++ later, s)

/-- All that is sent when these lines are the whole input. -/
def serve (settings : Settings) (names : Names) (lines : List String) : List Outbound :=
  let (refused, s) := State.handleLines ⟨settings, 0, 0, [], []⟩ (names.along lines)
  refused ++ s.finish.1

end MathMarkup.Relay
