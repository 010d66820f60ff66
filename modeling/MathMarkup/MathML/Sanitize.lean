import MathMarkup.Xml.Reader

/-!
# Safe MathML

`sanitized` takes what can run code or hide other content out of a tree: annotations go, `semantics`
and `maction` make room for their first child that is shown, and so do event handlers and addresses
that are scripts. `isSuspect` tells whether there is anything to take out.
-/

namespace MathMarkup.MathML

open Text Xml

/-! ## Attributes -/

/-- Is it the name of an event handler? -/
def isHandler (name : String) : Bool :=
  (after? "on".toList (name.toList.map Char.toLower)).isSome

/-- Is the value an address that is a script? -/
def isScript (value : List Char) : Bool :=
  (after? "javascript:".toList ((trimStart value).map Char.toLower)).isSome

/-- May the attribute stay? -/
def isSafe (a : String × List Char) : Bool := !isHandler a.1 && !isScript a.2

/-- The tag with its safe attributes only. -/
def safeTag (tag : Tag) : Tag := { tag with attributes := tag.attributes.filter isSafe }

/-! ## Trees -/

def isAnnotation (name : String) : Bool := name == "annotation" || name == "annotation-xml"

/-- Is it an element that makes room for its first child that is shown? -/
def isChoice (name : String) : Bool := name == "semantics" || name == "maction"

mutual

/-- What is left of a child. -/
def sanitizedChild : Node → List Node
  | .text s => [.text s]
  | .element tag children =>
    if isAnnotation tag.name then []
    else if isChoice tag.name then firstShown children
    else [.element (safeTag tag) (sanitizedChildren children)]

def sanitizedChildren : List Node → List Node
  | [] => []
  | n :: rest => sanitizedChild n ++ sanitizedChildren rest

/-- The first element that is no annotation, sanitized as a root is. -/
def firstShown : List Node → List Node
  | [] => []
  | .text _ :: rest => firstShown rest
  | .element tag children :: rest =>
    if isAnnotation tag.name then firstShown rest
    else [.element (safeTag tag) (sanitizedChildren children)]

end

/-- The tree below a root, which itself always stays, without what is not safe. -/
def sanitized (root : Element) : Element := ⟨safeTag root.tag, sanitizedChildren root.children⟩

mutual

/-- Is there anything to take out of a child? -/
def isSuspectChild : Node → Bool
  | .text _ => false
  | .element tag children =>
    isAnnotation tag.name || isChoice tag.name || !tag.attributes.all isSafe ||
      hasSuspect children

def hasSuspect : List Node → Bool
  | [] => false
  | n :: rest => isSuspectChild n || hasSuspect rest

end

/-- Is there anything to take out? -/
def isSuspect (root : Element) : Bool :=
  !root.tag.attributes.all isSafe || hasSuspect root.children

/-- The fragment without what is not safe; nothing when it is safe as it is or cannot be read. -/
def sanitize? (s : List Char) : Option (List Char) :=
  match parse s with
  | .ok root => if isSuspect root then some (sanitized root).toXml else none
  | .error _ => none

end MathMarkup.MathML
