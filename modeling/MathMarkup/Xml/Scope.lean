import MathMarkup.Xml.Name

/-!
# Namespaces in scope

The declarations that hold inside an element, its own ones first. `Scope.declarePrefix` and
`Scope.declareDefault` check a declaration, `Scope.spaceOf?` resolves a prefix, and
`Scope.prefixOf?` finds the prefix that an attribute in some namespace is written with.
-/

namespace MathMarkup.Xml

/-- The namespace of the prefix `xml`. -/
def xmlSpace : String := "http://www.w3.org/XML/1998/namespace"

/-- The namespace of declarations. -/
def xmlnsSpace : String := "http://www.w3.org/2000/xmlns/"

/-- Prefixes with their namespaces; the default namespace has no prefix. -/
abbrev Scope := List (Option String × String)

namespace Scope

/-- The namespace of a prefix, or the default one. -/
def spaceOf? (scope : Scope) (pre : Option String) : Option String := scope.lookup pre

/-- What holds inside an element with its own declarations: those, and from its parent what they do
not replace. -/
def extend (own parent : Scope) : Scope :=
  if own.isEmpty then parent
  else parent.foldl (fun scope d => if scope.any (·.1 == d.1) then scope else scope ++ [d]) own

/-- The first prefix in scope that has this namespace. It may be the default one, and then there is
none to write. -/
def prefixOf? (scope : Scope) (space : String) : Option String :=
  if space = xmlSpace then some "xml" else (List.find? (fun d => d.2 == space) scope).bind (·.1)

/-- Adds the declaration of a prefix. That of `xml` may be repeated, and adds nothing. -/
def declarePrefix (own : Scope) (pre space : String) : Except Mistake Scope :=
  if space = xmlnsSpace then .error .xmlnsDeclared
  else if pre = "xml" ∧ space ≠ xmlSpace then .error .wrongXmlSpace
  else if pre ≠ "xml" ∧ space = xmlSpace then .error .xmlSpaceTaken
  else if own.any (·.1 == some pre) then .error (.duplicatePrefix pre)
  else .ok (if space = xmlSpace then own else own ++ [(some pre, space)])

/-- Adds the declaration of a default namespace. -/
def declareDefault (own : Scope) (space : String) : Except Mistake Scope :=
  if space = xmlSpace then .error .xmlSpaceTaken
  else if space = xmlnsSpace then .error .xmlnsDeclared
  else .ok (own ++ [(none, space)])

end Scope

end MathMarkup.Xml
