import MathMarkup.Text.Basic

/-!
# Escaping in XML

Character data and attribute values as they are written, and the way back as reports of checkers are
read.
-/

namespace MathMarkup.Xml

open Text

/-- One character of character data. -/
def escapeTextChar : Char → List Char
  | '&' => "&amp;".toList
  | '<' => "&lt;".toList
  | '>' => "&gt;".toList
  | c => [c]

/-- Character data. -/
def escapeText (s : List Char) : List Char := s.flatMap escapeTextChar

/-- One character of an attribute value. -/
def escapeAttributeChar (c : Char) : List Char :=
  if c = '"' then "&quot;".toList else escapeTextChar c

/-- An attribute value, without its quotes. -/
def escapeAttribute (s : List Char) : List Char := s.flatMap escapeAttributeChar

/-- The text that references to the predefined characters stand for; ampersands come last. -/
def unescape (s : List Char) : List Char :=
  replaceAll "&amp;".toList ['&'] <|
    replaceAll "&#34;".toList ['"'] <|
      replaceAll "&quot;".toList ['"'] <|
        replaceAll "&gt;".toList ['>'] <|
          replaceAll "&lt;".toList ['<'] s

@[simp] theorem escapeText_append (s t : List Char) :
    escapeText (s ++ t) = escapeText s ++ escapeText t := by simp [escapeText]

@[simp] theorem escapeAttribute_append (s t : List Char) :
    escapeAttribute (s ++ t) = escapeAttribute s ++ escapeAttribute t := by simp [escapeAttribute]

end MathMarkup.Xml
