import MathMarkup.Cli.Outcome
import MathMarkup.Phrase
import MathMarkup.Record.Reader

/-!
# The tool

One run reads its input from a file or from the standard input, does one thing with it, and prints
the answer as JSON over several lines with the keys in order. `run` is given the means to read, so
that it says all there is to say about a run but where its input comes from.
-/

namespace MathMarkup.Cli

open Text

/-! ## Commands -/

def Tool.repair (config : Config) (s : List Char) : Json :=
  let r := MathML.repair s (MathML.validate config s)
  let after := MathML.validate config r.text
  .object [
    ("text", .string (String.ofList r.text)),
    ("actions", .array (r.actions.map fun a => .string a.message)),
    ("is_valid", .bool after.isValid),
    ("diagnostics", .array (after.diagnostics.map Diagnostic.toJson))]

def Tool.phrase (s : List Char) : Json :=
  let latex := Phrase.toLatex s
  let t := Tex.transliterate latex
  .object [
    ("latex", .string (String.ofList latex)),
    ("mathml", .string (String.ofList t.mathml)),
    ("diagnostics", .array (t.diagnostics.map Diagnostic.toJson))]

/-- The records of the steps that a text lists. -/
def Tool.render (config : Config) (requestId : String) (s : List Char) : Except Failure Json :=
  match Json.decodeText (Json.Decoder.list Step.decoder) s with
  | .ok steps => .ok (.array ((Record.ofSteps config requestId steps).map Record.toJson))
  | .error fault => .error (.notSteps fault)

/-- What a command answers on its input. -/
def Command.answer (config : Config) (s : List Char) : Command → Except Failure Json
  | normalize => .ok (Tex.normalize config s).toJson
  | toMathml => .ok (Tex.transliterate s).toJson
  | validate remote =>
    if remote then .error .noRemote else .ok (MathML.validate config (trim s)).toJson
  | repair => .ok (Tool.repair config (trim s))
  | route => .ok (MathMarkup.route config s).toJson
  | checkLatex => .ok (.array ((Tex.check config s).map Diagnostic.toJson))
  | phrase => .ok (Tool.phrase (trim s))
  | render requestId => Tool.render config requestId s

/-! ## Runs -/

variable {m : Type → Type} [Monad m]

/-- The settings that the options name. -/
def Options.load (means : Means m) (o : Options) : m (Except Failure Config) := do
  let config : Except ConfigFault Config ←
    match o.config with
    | none => pure (.ok {})
    | some path => readSettings Config.decoder path <$> means.file path
  return match config with
    | .error fault => .error (.config fault)
    | .ok config => .ok { config with fallback := o.fallback.getD config.fallback }

/-- The input: the file that is named, or the standard input, which a hyphen names too. -/
def Invocation.input (means : Means m) (i : Invocation) : m (Except Failure String) := do
  let (source, content) ←
    match i.path with
    | none | some "-" => Prod.mk "stdin" <$> means.input
    | some path => Prod.mk path <$> means.file path
  return match content with
    | .ok text => .ok text
    | .error reason => .error (.unreadableInput source reason)

/-- Does what is asked for. -/
def Invocation.run (means : Means m) (i : Invocation) : m Outcome := do
  match ← i.options.load means with
  | .error failure => return .failed failure
  | .ok config =>
    match ← i.input means with
    | .error failure => return .failed failure
    | .ok text =>
      return match i.command.answer config text.toList with
        | .ok answer => .printed (answer.sortKeys.renderPretty ++ "\n")
        | .error failure => .failed failure

/-- Runs the tool. -/
def runTool (means : Means m) (args : List String) : m Outcome :=
  match Invocation.ofArguments args with
  | .ok invocation => invocation.run means
  | .error unmet => pure unmet.outcome

end MathMarkup.Cli
