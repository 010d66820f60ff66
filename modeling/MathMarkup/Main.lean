import MathMarkup.Cli.RelayProgram
import MathMarkup.Cli.Tool
import MathMarkup.Relay.Identifier

/-!
# The program

The first argument `relay` starts the relay, which serves its input as the lines come and keeps the
pauses between steps; all other arguments are those of the tool. Only reading, printing and the clock
are here.
-/

namespace MathMarkup.Program

open Cli Relay

/-- Why something cannot be read. -/
def reasonOf : IO.Error → String
  | .noFileOrDirectory .. => "No such file or directory (os error 2)"
  | .permissionDenied .. => "Permission denied (os error 13)"
  | .inappropriateType .. => "Is a directory (os error 21)"
  | error => toString error

/-- The result of reading, or the reason why there is none. -/
def attempt (read : IO String) : IO (Except String String) := do
  try
    return .ok (← read)
  catch error =>
    return .error (reasonOf error)

/-- All lines up to the end of the input. -/
partial def readAll (stream : IO.FS.Stream) (read : String) : IO String := do
  let line ← stream.getLine
  if line.isEmpty then return read
  readAll stream (read ++ line)

def means : Means IO where
  file path := attempt (IO.FS.readFile path)
  input := attempt do readAll (← IO.getStdin) ""

/-- Shows how a run ended. -/
def conclude (outcome : Outcome) : IO UInt32 := do
  match outcome with
  | .printed text => IO.print text
  | .failed failure => IO.eprint failure.report
  | .misused => IO.eprintln "error: the arguments name nothing to do"
  | .helped =>
    IO.println "usage: [--config FILE] [--fallback POLICY] COMMAND [FILE], or: relay [--config FILE]"
    IO.println ("commands: " ++ ", ".intercalate (commands.map (·.1)))
  return outcome.exitCode.toUInt32

def sendAll (messages : List Outbound) : IO Unit := do
  let output ← IO.getStdout
  output.putStr (renderMessages messages)
  output.flush

def freshIdentifier : IO String := return identifier (← IO.rand 0 (Nat.pow 2 122 - 1))

/-- The task that reads the next line. -/
def nextLine : IO (Task (Except IO.Error String)) := do
  let input ← IO.getStdin
  IO.asTask input.getLine .dedicated

/-- Serves lines as they come; `started` is the time at which the clock of `s` stood at zero, and there
is no task when the input has ended. -/
partial def serveLines (started : Nat) (s : State) (line : Option (Task (Except IO.Error String))) :
    IO Unit := do
  let elapsed := (← IO.monoMsNow) - started
  let (sent, s) := s.advance (elapsed - s.now)
  sendAll sent
  match line with
  | none =>
    if s.emitters.isEmpty then return
    IO.sleep 1
    serveLines started s none
  | some task =>
    if ← IO.hasFinished task then
      let text ← IO.ofExcept task.get
      if text.isEmpty then serveLines started s none
      else
        let (refused, s) := s.handleLine (← freshIdentifier) text
        sendAll refused
        serveLines started s (some (← nextLine))
    else
      IO.sleep 1
      serveLines started s (some task)

def relay (args : List String) : IO UInt32 := do
  let delay ← IO.getEnv Settings.delayKey
  let fallback ← IO.getEnv Settings.fallbackKey
  let lookUp (key : String) : Option String := if key = Settings.delayKey then delay else fallback
  match ← relaySettings means lookUp args with
  | .error outcome => conclude outcome
  | .ok settings =>
    serveLines (← IO.monoMsNow) ⟨settings, 0, 0, [], []⟩ (some (← nextLine))
    return 0

end MathMarkup.Program

def main (args : List String) : IO UInt32 := do
  match args with
  | "relay" :: args => MathMarkup.Program.relay args
  | args => MathMarkup.Program.conclude (← MathMarkup.Cli.runTool MathMarkup.Program.means args)
