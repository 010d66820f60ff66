import MathMarkup.MathML.Markup

/-!
# Symbols

The LaTeX commands without arguments that have a MathML counterpart, and what they turn into.
-/

namespace MathMarkup.Tex

open MathML

/-- What a command without arguments stands for. -/
inductive Symbol where
  | identifier (s : String)
  | operator (s : String)
  /-- A named function, set upright by its own name. -/
  | function
  | space (width : String)
  /-- A hint about layout, without counterpart. -/
  | silent
deriving DecidableEq, Repr

/-- The element of a symbol whose command has this name. -/
def Symbol.markup? (name : List Char) : Symbol → Option Markup
  | identifier s => some (.identifier s.toList)
  | operator s => some (.operator s.toList)
  | function => some (.identifier name)
  | space width => some (.space width)
  | silent => none

def identifierSymbols : List (String × String) := [
  ("alpha", "α"), ("beta", "β"), ("gamma", "γ"), ("delta", "δ"), ("epsilon", "ϵ"),
  ("varepsilon", "ε"), ("zeta", "ζ"), ("eta", "η"), ("theta", "θ"), ("vartheta", "ϑ"),
  ("iota", "ι"), ("kappa", "κ"), ("lambda", "λ"), ("mu", "μ"), ("nu", "ν"), ("xi", "ξ"),
  ("pi", "π"), ("varpi", "ϖ"), ("rho", "ρ"), ("varrho", "ϱ"), ("sigma", "σ"), ("varsigma", "ς"),
  ("tau", "τ"), ("upsilon", "υ"), ("phi", "ϕ"), ("varphi", "φ"), ("chi", "χ"), ("psi", "ψ"),
  ("omega", "ω"), ("Gamma", "Γ"), ("Delta", "Δ"), ("Theta", "Θ"), ("Lambda", "Λ"), ("Xi", "Ξ"),
  ("Pi", "Π"), ("Sigma", "Σ"), ("Upsilon", "Υ"), ("Phi", "Φ"), ("Psi", "Ψ"), ("Omega", "Ω"),
  ("infty", "∞"), ("partial", "∂"), ("nabla", "∇"), ("hbar", "ℏ"), ("ell", "ℓ"),
  ("emptyset", "∅"), ("varnothing", "∅"), ("aleph", "ℵ"), ("Re", "ℜ"), ("Im", "ℑ")]

def operatorSymbols : List (String × String) := [
  ("sum", "∑"), ("prod", "∏"), ("coprod", "∐"), ("int", "∫"), ("iint", "∬"), ("iiint", "∭"),
  ("oint", "∮"), ("bigcup", "⋃"), ("bigcap", "⋂"), ("bigoplus", "⨁"), ("bigotimes", "⨂"),
  ("cdot", "⋅"), ("times", "×"), ("div", "÷"), ("pm", "±"), ("mp", "∓"), ("ast", "∗"),
  ("star", "⋆"), ("circ", "∘"), ("bullet", "∙"), ("oplus", "⊕"), ("otimes", "⊗"), ("cup", "∪"),
  ("cap", "∩"), ("setminus", "∖"), ("leq", "≤"), ("le", "≤"), ("geq", "≥"), ("ge", "≥"),
  ("neq", "≠"), ("ne", "≠"), ("approx", "≈"), ("equiv", "≡"), ("sim", "∼"), ("simeq", "≃"),
  ("cong", "≅"), ("propto", "∝"), ("ll", "≪"), ("gg", "≫"), ("in", "∈"), ("notin", "∉"),
  ("ni", "∋"), ("subset", "⊂"), ("subseteq", "⊆"), ("supset", "⊃"), ("supseteq", "⊇"),
  ("mid", "∣"), ("parallel", "∥"), ("perp", "⊥"), ("to", "→"), ("rightarrow", "→"), ("gets", "←"),
  ("leftarrow", "←"), ("Rightarrow", "⇒"), ("Leftarrow", "⇐"), ("leftrightarrow", "↔"),
  ("Leftrightarrow", "⇔"), ("implies", "⟹"), ("iff", "⟺"), ("mapsto", "↦"),
  ("longrightarrow", "⟶"), ("Longrightarrow", "⟹"), ("forall", "∀"), ("exists", "∃"),
  ("neg", "¬"), ("lnot", "¬"), ("land", "∧"), ("wedge", "∧"), ("lor", "∨"), ("vee", "∨"),
  ("angle", "∠"), ("triangle", "△"), ("prime", "′"), ("ldots", "…"), ("dots", "…"),
  ("cdots", "⋯"), ("vdots", "⋮"), ("ddots", "⋱"), ("therefore", "∴"), ("because", "∵"),
  ("langle", "⟨"), ("rangle", "⟩"), ("lfloor", "⌊"), ("rfloor", "⌋"), ("lceil", "⌈"),
  ("rceil", "⌉"), ("vert", "|"), ("lvert", "|"), ("rvert", "|"), ("Vert", "‖"), ("degree", "°")]

def functionNames : List String := [
  "sin", "cos", "tan", "cot", "sec", "csc", "arcsin", "arccos", "arctan", "sinh", "cosh", "tanh",
  "log", "ln", "lg", "exp", "lim", "max", "min", "sup", "inf", "det", "dim", "gcd", "deg", "arg",
  "mod", "bmod"]

def silentCommands : List String := [
  "displaystyle", "textstyle", "scriptstyle", "limits", "nolimits", "nonumber", "notag"]

/-- The symbol of a command. -/
def symbol? (name : String) : Option Symbol :=
  (identifierSymbols.lookup name).map .identifier <|>
  (operatorSymbols.lookup name).map .operator <|>
  (if functionNames.contains name then some .function else none) <|>
  (if silentCommands.contains name then some .silent else none) <|>
  ([("quad", "1em"), ("qquad", "2em")].lookup name).map .space

/-- Commands that give a size to the delimiter after them. -/
def sizingCommands : List String := [
  "left", "right", "middle", "big", "Big", "bigg", "Bigg", "bigl", "bigr", "Bigl", "Bigr"]

/-- Characters that markup carries: no control characters but tab, line feed and carriage return, and
neither of the two characters that XML excludes. -/
def isCarried (c : Char) : Bool :=
  let n := c.toNat
  if n < 0x20 then n == 0x9 || n == 0xA || n == 0xD
  else !(0x7F ≤ n && n ≤ 0x9F) && n != 0xFFFE && n != 0xFFFF

/-- What a backslash and a character that is no letter turn into. -/
def escapedSymbol? (c : Char) : Option Markup :=
  if c = ',' then some (.space "0.167em")
  else if c = ':' || c = '>' then some (.space "0.222em")
  else if c = ';' then some (.space "0.278em")
  else if c = ' ' then some (.space "0.25em")
  else if c = '!' then none
  else if !isCarried c then none
  else if c = '|' then some (.operator ['‖'])
  else some (.operator [c])

end MathMarkup.Tex
