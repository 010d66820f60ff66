/-!
# The vocabulary of LaTeX math

The commands that are known without configuration, by topic, and how many arguments a command demands.
-/

namespace MathMarkup.Tex

def greekCommands : List String := [
  "alpha", "beta", "gamma", "delta", "epsilon", "varepsilon", "zeta", "eta", "theta", "vartheta",
  "iota", "kappa", "lambda", "mu", "nu", "xi", "pi", "varpi", "rho", "varrho", "sigma",
  "varsigma", "tau", "upsilon", "phi", "varphi", "chi", "psi", "omega", "Gamma", "Delta", "Theta",
  "Lambda", "Xi", "Pi", "Sigma", "Upsilon", "Phi", "Psi", "Omega"]

def operatorCommands : List String := [
  "sum", "prod", "coprod", "int", "iint", "iiint", "oint", "lim", "limsup", "liminf", "sup",
  "inf", "max", "min", "arg", "det", "dim", "gcd", "deg", "exp", "log", "ln", "lg", "sin", "cos",
  "tan", "cot", "sec", "csc", "arcsin", "arccos", "arctan", "sinh", "cosh", "tanh", "bigcup",
  "bigcap", "bigoplus", "bigotimes"]

def relationCommands : List String := [
  "leq", "le", "geq", "ge", "neq", "ne", "approx", "equiv", "sim", "simeq", "cong", "propto",
  "ll", "gg", "in", "notin", "ni", "subset", "subseteq", "supset", "supseteq", "mid", "parallel",
  "perp", "to", "gets", "rightarrow", "leftarrow", "Rightarrow", "Leftarrow", "leftrightarrow",
  "Leftrightarrow", "implies", "iff", "mapsto", "longrightarrow", "Longrightarrow"]

def symbolCommands : List String := [
  "infty", "partial", "nabla", "cdot", "cdots", "ldots", "dots", "vdots", "ddots", "times", "div",
  "pm", "mp", "ast", "star", "circ", "bullet", "oplus", "otimes", "cup", "cap", "setminus",
  "emptyset", "varnothing", "forall", "exists", "neg", "lnot", "land", "lor", "wedge", "vee",
  "angle", "triangle", "prime", "degree", "hbar", "ell", "Re", "Im", "aleph", "mathbb",
  "checkmark", "therefore", "because"]

def structureCommands : List String := [
  "frac", "dfrac", "tfrac", "cfrac", "binom", "dbinom", "tbinom", "sqrt", "text", "textbf",
  "textit", "mathrm", "mathbf", "mathit", "mathsf", "mathtt", "mathcal", "mathfrak",
  "operatorname", "boldsymbol", "overline", "underline", "hat", "widehat", "tilde", "widetilde",
  "bar", "vec", "dot", "ddot", "overbrace", "underbrace", "boxed", "cancel", "color", "textcolor",
  "begin", "end", "left", "right", "big", "Big", "bigg", "Bigg", "bigl", "bigr", "Bigl", "Bigr",
  "langle", "rangle", "lfloor", "rfloor", "lceil", "rceil", "lvert", "rvert", "vert", "Vert",
  "displaystyle", "textstyle", "scriptstyle", "limits", "nolimits", "quad", "qquad", "hspace",
  "vspace", "phantom", "tag", "label", "nonumber", "notag", "newline", "substack", "stackrel",
  "overset", "underset", "pmod", "bmod", "mod"]

/-- Is the command known without configuration? -/
def isKnownCommand (name : String) : Bool :=
  greekCommands.contains name || operatorCommands.contains name || relationCommands.contains name ||
    symbolCommands.contains name || structureCommands.contains name

/-- Commands that demand one argument. -/
def unaryCommands : List String := [
  "sqrt", "text", "mathrm", "mathbf", "mathit", "mathsf", "mathtt", "mathcal", "mathbb",
  "mathfrak", "operatorname", "boldsymbol", "overline", "underline", "hat", "widehat", "tilde",
  "widetilde", "bar", "vec", "dot", "ddot", "overbrace", "underbrace", "boxed", "cancel", "color",
  "begin", "end"]

/-- Commands that demand two arguments. -/
def binaryCommands : List String := [
  "frac", "dfrac", "tfrac", "cfrac", "binom", "dbinom", "tbinom", "textcolor"]

/-- How many arguments the command demands. -/
def argumentCount? (name : String) : Option Nat :=
  if unaryCommands.contains name then some 1
  else if binaryCommands.contains name then some 2
  else none

end MathMarkup.Tex
