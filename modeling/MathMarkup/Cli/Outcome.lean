import MathMarkup.Cli.Arguments
import MathMarkup.Config.Fault

/-!
# Runs of a program

What a program is given to read with, and how a run of it ends: with something printed, with a failure
and its report, or with arguments that name nothing to do.
-/

namespace MathMarkup.Cli

open Text

/-- The means of a program to read; a reason comes back where there is nothing to read. -/
structure Means (m : Type → Type) where
  file : String → m (Except String String)
  input : m (Except String String)

/-- Why a program that was called correctly ends without an answer. -/
inductive Failure where
  | config (fault : ConfigFault)
  /-- The input cannot be read; `source` names it. -/
  | unreadableInput (source reason : String)
  | notSteps (fault : Json.Fault)
  | noRemote
deriving DecidableEq, Repr

namespace Failure

def message : Failure → String
  | config fault => fault.message
  | unreadableInput source _ => "failed to read " ++ source
  | notSteps _ => "expected a JSON array of \x7bnatural, math\x7d steps"
  | noRemote => "this build does not include the remote-validator feature"

/-- What lies behind the failure. -/
def cause? : Failure → Option String
  | config fault => fault.cause?
  | unreadableInput _ reason => some reason
  | notSteps fault => some fault.message
  | noRemote => none

/-- The report of a failure: its message, and under it the indented cause. -/
def report (f : Failure) : String :=
  let cause :=
    match f.cause? with
    | none => ""
    | some cause =>
      "\nCaused by:\n    " ++ String.ofList (replaceAll ['\n'] "\n    ".toList cause.toList) ++ "\n"
  "Error: " ++ f.message ++ "\n" ++ cause

end Failure

/-- How a run of a program ends. -/
inductive Outcome where
  | printed (text : String)
  | failed (failure : Failure)
  /-- The arguments are wrong. -/
  | misused
  /-- The arguments ask for help. -/
  | helped
deriving DecidableEq, Repr

/-- What arguments come to that name nothing to do. -/
def Unmet.outcome : Unmet → Outcome
  | wrong => .misused
  | help => .helped

/-- The code that a program exits with. -/
def Outcome.exitCode : Outcome → Nat
  | printed _ | helped => 0
  | failed _ => 1
  | misused => 2

end MathMarkup.Cli
