import MathMarkup.Config

/-!
# Command lines

Arguments are words, and options in front of, between and behind them. An option is long (`--name`),
and its value follows it as the next argument or behind an equals sign; it is given at most once.
Behind two hyphens everything is a word. `Grammar.read` reads arguments by a grammar;
`Invocation.ofArguments` and `relayConfig?` know those of the two programs.
-/

namespace MathMarkup.Cli

/-- Why arguments name nothing to do. -/
inductive Unmet where
  /-- They are wrong. -/
  | wrong
  /-- They ask for help. -/
  | help
deriving DecidableEq, Repr

/-! ## Arguments -/

/-- What an argument is. -/
inductive Argument where
  /-- Two hyphens. -/
  | divider
  | long (name : String) (value : Option String)
  | short (letters : List Char)
  | word (s : String)
deriving DecidableEq, Repr

/-- What an argument is, before the divider. A single hyphen is a word. -/
def Argument.ofString (arg : String) : Argument :=
  match arg.toList with
  | ['-', '-'] => .divider
  | '-' :: '-' :: s =>
    let name := String.ofList (s.takeWhile (· != '='))
    match s.dropWhile (· != '=') with
    | _ :: value => .long name (some (String.ofList value))
    | [] => .long name none
  | '-' :: c :: s => .short (c :: s)
  | _ => .word arg

/-- Can the argument be the value of the option before it? -/
def isValue (arg : String) : Bool :=
  match Argument.ofString arg with
  | .word _ => true
  | _ => false

/-- The options and words of a program, and what each one does to what was read so far; nothing comes
of one that must not stand there. -/
structure Grammar (σ : Type) where
  valued : List (String × (σ → String → Option σ))
  switches : List (String × (σ → Option σ))
  /-- Nothing when the first word ends the arguments that are read here. -/
  word? : Option (σ → String → Option σ)

namespace Grammar

variable {σ : Type}

/-- Reads words only. -/
def readWords (g : Grammar σ) : σ → List String → Except Unmet σ
  | s, [] => .ok s
  | s, arg :: rest =>
    match g.word?.bind fun set => set s arg with
    | some s => readWords g s rest
    | none => .error .wrong

/-- Reads arguments up to their end, or to the first word if the grammar says so; that word and the
arguments behind it are left over. -/
def read (g : Grammar σ) : σ → List String → Except Unmet (σ × List String)
  | s, [] => .ok (s, [])
  | s, arg :: rest =>
    match Argument.ofString arg with
    | .divider => (g.readWords s rest).map (·, [])
    | .short letters => .error (if letters.head? = some 'h' then .help else .wrong)
    | .word text =>
      match g.word? with
      | none => .ok (s, text :: rest)
      | some set =>
        match set s text with
        | some s => read g s rest
        | none => .error .wrong
    | .long name attached =>
      match g.valued.lookup name, g.switches.lookup name, attached, rest with
      | some set, _, some value, rest =>
        match set s value with
        | some s => read g s rest
        | none => .error .wrong
      | some set, _, none, value :: rest =>
        match if isValue value then set s value else none with
        | some s => read g s rest
        | none => .error .wrong
      | none, some set, none, rest =>
        match set s with
        | some s => read g s rest
        | none => .error .wrong
      | none, none, none, _ => .error (if name = "help" then .help else .wrong)
      | _, _, _, _ => .error .wrong

end Grammar

/-- A value for what has none yet. -/
def once {α : Type} (old : Option α) (new : α) : Option α := if old.isSome then none else some new

/-- A path that is not empty, for what has none yet. -/
def pathOnce (old : Option String) (new : String) : Option String :=
  if new.isEmpty then none else once old new

/-! ## The tool -/

/-- What the tool does with its input. -/
inductive Command where
  | normalize
  | toMathml
  | validate (remote : Bool)
  | repair
  | route
  | checkLatex
  | phrase
  | render (requestId : String)
deriving DecidableEq, Repr

/-- Options of all commands. -/
structure Options where
  /-- The path of a settings file. -/
  config : Option String := none
  fallback : Option Fallback := none
deriving DecidableEq, Repr

/-- The policy of this name, for options that have none yet. -/
def Options.setFallback (o : Options) (name : String) : Option Options := do
  let policy ← (Fallback.ofText name).toOption
  let policy ← once o.fallback policy
  return { o with fallback := some policy }

def Options.setConfig (o : Options) (path : String) : Option Options :=
  (pathOnce o.config path).map fun path => { o with config := some path }

/-- The options in front of a command. -/
def Options.grammar : Grammar Options :=
  ⟨[("config", setConfig), ("fallback", setFallback)], [], none⟩

/-- What was read behind the name of a command. -/
structure Details where
  options : Options := {}
  path : Option String := none
  remote : Option Unit := none
  requestId : Option String := none

/-- The arguments behind the name of a command, which may have options of its own. -/
def Details.grammar (valued : List (String × (Details → String → Option Details)))
    (switches : List (String × (Details → Option Details))) : Grammar Details where
  valued :=
    [("config", fun d v => (d.options.setConfig v).map fun o => { d with options := o }),
      ("fallback", fun d v => (d.options.setFallback v).map fun o => { d with options := o })] ++ valued
  switches := switches
  word? := some fun d v => (pathOnce d.path v).map fun path => { d with path := some path }

/-- The grammar of most commands. -/
def plainGrammar : Grammar Details := Details.grammar [] []

def validateGrammar : Grammar Details :=
  Details.grammar [] [("remote", fun d => (once d.remote ()).map fun u => { d with remote := some u })]

def renderGrammar : Grammar Details :=
  Details.grammar
    [("request-id", fun d v => (once d.requestId v).map fun v => { d with requestId := some v })] []

/-- The commands by their names. -/
def commands : List (String × Grammar Details × (Details → Command)) := [
  ("normalize", plainGrammar, fun _ => .normalize),
  ("to-mathml", plainGrammar, fun _ => .toMathml),
  ("validate", validateGrammar, fun d => .validate d.remote.isSome),
  ("repair", plainGrammar, fun _ => .repair),
  ("route", plainGrammar, fun _ => .route),
  ("check-latex", plainGrammar, fun _ => .checkLatex),
  ("phrase", plainGrammar, fun _ => .phrase),
  ("render", renderGrammar, fun d => .render (d.requestId.getD "cli"))]

/-- What the tool is asked to do. -/
structure Invocation where
  options : Options
  command : Command
  /-- The path of the input, if it is given. -/
  path : Option String
deriving DecidableEq, Repr

/-- The answer to a request for help with some command. -/
def helpWith (names : List String) : Unmet :=
  match names with
  | [] => .help
  | [name] => if name = "help" || (commands.lookup name).isSome then .help else .wrong
  | _ => .wrong

/-- What the arguments ask the tool to do. An option behind the command wins over the same one in
front of it. -/
def Invocation.ofArguments (args : List String) : Except Unmet Invocation := do
  match ← Options.grammar.read {} args with
  | (_, []) => throw .wrong
  | (outer, name :: rest) =>
    match commands.lookup name with
    | none => throw (if name = "help" then helpWith rest else .wrong)
    | some (grammar, command) =>
      let (d, _) ← grammar.read {} rest
      let options : Options :=
        ⟨d.options.config <|> outer.config, d.options.fallback <|> outer.fallback⟩
      return ⟨options, command d, d.path⟩

/-! ## The relay -/

/-- The path of a settings file is all the relay takes. -/
def relayGrammar : Grammar (Option String) :=
  ⟨[("config", fun old path => (pathOnce old path).map some)], [], none⟩

/-- The path of the settings file of the relay, if one is given. -/
def relayConfig? (args : List String) : Except Unmet (Option String) := do
  match ← relayGrammar.read none args with
  | (path, []) => return path
  | _ => throw .wrong

end MathMarkup.Cli
