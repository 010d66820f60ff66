import MathMarkup.Cli.Outcome
import MathMarkup.Relay.Serve

/-!
# The relay as a program

It takes its settings from a file and from the environment, and then serves the lines of its input:
every message it sends is a line of its own.
-/

namespace MathMarkup.Cli

variable {m : Type → Type} [Monad m]

/-- The settings that the arguments and the environment give; otherwise, how the run ends. -/
def relaySettings (means : Means m) (lookUp : String → Option String) (args : List String) :
    m (Except Outcome Relay.Settings) := do
  match relayConfig? args with
  | .error unmet => return .error unmet.outcome
  | .ok path? =>
    let settings : Except ConfigFault Relay.Settings ←
      match path? with
      | none => pure (.ok {})
      | some path => readSettings Relay.Settings.decoder path <$> means.file path
    return match settings.bind (Relay.Settings.overridden lookUp) with
      | .ok settings => .ok settings
      | .error fault => .error (.failed (.config fault))

/-- Messages as lines. -/
def renderMessages (messages : List Relay.Outbound) : String :=
  String.join (messages.map fun message => message.toJson.render ++ "\n")

/-- Runs the relay on an input that is there from the start; `names` are drawn for requests that come
without an identifier. -/
def runRelay (means : Means m) (lookUp : String → Option String) (names : Relay.Names)
    (args : List String) : m Outcome := do
  match ← relaySettings means lookUp args with
  | .error outcome => return outcome
  | .ok settings =>
    return match ← means.input with
      | .ok text => .printed (renderMessages (Relay.serve settings names (text.splitOn "\n")))
      | .error reason => .failed (.unreadableInput "stdin" reason)

end MathMarkup.Cli
