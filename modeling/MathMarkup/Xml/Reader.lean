import MathMarkup.Xml.StartTag

/-!
# Reading XML

`parse` reads a document into an element tree. The elements that are open are kept on a stack. Texts
of blanks only are dropped; other text is kept as it is. The prefixes that attributes use anywhere are
declared on the root.
-/

namespace MathMarkup.Xml

open Text

/-! ## Comments, instructions and sections -/

/-- Consumes a comment; it must not hold two hyphens in a row. -/
def readComment (c : Cursor) : Except Fault Cursor := do
  let (text, rest) ← (c.advance 4).admitted (Cursor.starts "-->")
  let rest ← rest.expectWord "-->"
  if contains ['-', '-'] text || text.getLast? = some '-' then throw (c.fault .comment)
  return rest

/-- Consumes a processing instruction; an XML declaration is none. -/
def readInstruction (c : Cursor) : Except Fault Cursor := do
  if c.sees "<?xml " then throw (c.fault .declaration)
  let (_, c) ← (c.advance 2).name
  let (_, c) ← c.skipSpace.admitted (Cursor.starts "?>")
  c.expectWord "?>"

/-- Consumes a section of plain text. -/
def readSection (c : Cursor) : Except Fault (List Char × Cursor) := do
  let (text, c) ← (c.advance 9).admitted (Cursor.starts "]]>")
  let c ← c.expectWord "]]>"
  return (sectionText text, c)

/-- Consumes the text up to the next tag. -/
def readText (c : Cursor) : Except Fault (List Char × Cursor) := do
  let (raw, rest) ← c.admitted fun s => s.head? = some '<'
  if contains "]]>".toList raw then throw (rest.fault .characterData)
  let text ← characterData c.position raw
  return (text, rest)

/-- Consumes the end tag of the element that was opened with this name. -/
def readEndTag (opened : QName) (c : Cursor) : Except Fault Cursor := do
  let (name, rest) ← (c.advance 2).qname
  let rest ← rest.skipSpace.expect '>'
  if name ≠ opened then throw (c.fault (.closeTag opened.render name.render))
  return rest

/-! ## Content -/

/-- An open element: its start tag, and its children so far, last first. -/
structure Frame where
  start : StartTag
  children : List Node

/-- Adds a text; right behind another one it continues that. -/
def Frame.addText (f : Frame) (merge : Bool) (s : List Char) : Frame :=
  match merge, f.children with
  | true, .text before :: rest => { f with children := .text (before ++ s) :: rest }
  | _, children => { f with children := .text s :: children }

def Frame.addNode (f : Frame) (n : Node) : Frame := { f with children := n :: f.children }

/-- The element, once it is closed. -/
def Frame.close (f : Frame) : Element :=
  ⟨f.start.tag, f.children.reverse.filter fun n => !n.isBlankText⟩

/-- What was read of a document. -/
structure Progress where
  cursor : Cursor
  /-- The open elements, the innermost first. -/
  opened : List Frame
  /-- Was a text the last thing that was read? -/
  inText : Bool
  /-- Prefixes in use, in the order of their first use. -/
  prefixes : List (String × String)
  root : Option Element

namespace Progress

/-- An element is complete. -/
def finish (p : Progress) (e : Element) (outer : List Frame) (c : Cursor) : Progress :=
  match outer with
  | [] => { p with cursor := c, opened := [], inText := false, root := some e }
  | f :: outer => { p with cursor := c, opened := f.addNode e.toNode :: outer, inText := false }

/-- The namespaces in scope. -/
def scope (p : Progress) : Scope := (p.opened.head?.map fun f => f.start.scope).getD []

/-- Reads a start tag. -/
def start (p : Progress) : Except Fault Progress := do
  let (tag, tagEnd, c) ← readStartTag p.scope p.cursor
  match tag with
  | none => return { p with cursor := c, inText := false }
  | some tag =>
    let known := tag.prefixes.foldl (fun known d =>
      if known.any (·.1 == d.1) then known else known ++ [d]) p.prefixes
    let p := { p with prefixes := known, inText := false }
    if tagEnd = .empty then return p.finish ⟨tag.tag, []⟩ p.opened c
    else return { p with cursor := c, opened := ⟨tag, []⟩ :: p.opened }

/-- Adds a text to the innermost element. -/
def addText (p : Progress) (s : List Char) (f : Frame) (outer : List Frame) (c : Cursor) : Progress :=
  { p with cursor := c, opened := f.addText p.inText s :: outer, inText := true }

/-- Reads the next part of the content of the innermost element `f`. -/
def step (p : Progress) (f : Frame) (outer : List Frame) : Except Fault Progress :=
  let c := p.cursor
  let skip (r : Except Fault Cursor) : Except Fault Progress :=
    r.map fun c => { p with cursor := c, inText := false }
  match c.rest with
  | '<' :: '!' :: _ =>
    if c.sees "<!--" then skip (readComment c)
    else if c.sees "<![CDATA[" then (readSection c).map fun (s, c) => p.addText s f outer c
    else .error (c.fault .unknownToken)
  | '<' :: '?' :: _ => skip (readInstruction c)
  | '<' :: '/' :: _ => (readEndTag f.start.name c).map fun c => p.finish f.close outer c
  | ['<'] => .error (c.fault .unknownToken)
  | '<' :: _ => p.start
  | _ => (readText c).map fun (s, c) => p.addText s f outer c

/-- Reads content until no element is open or the text ends. -/
def run (p : Progress) : Except Fault Progress :=
  match p.opened with
  | [] => .ok p
  | f :: outer =>
    if p.cursor.rest.isEmpty then .ok p
    else
      match p.step f outer with
      | .error fault => .error fault
      | .ok next =>
        if next.cursor.rest.length < p.cursor.rest.length then run next else .error .unexpectedEnd
termination_by p.cursor.rest.length

end Progress

/-! ## Documents -/

/-- Consumes comments and instructions and the blanks around them. -/
def skipMisc (c : Cursor) : Except Fault Cursor :=
  let here := c.skipSpace
  let more (r : Except Fault Cursor) : Except Fault Cursor :=
    match r with
    | .error fault => .error fault
    | .ok next =>
      if next.rest.length < c.rest.length then skipMisc next else .error .unexpectedEnd
  if here.sees "<!--" then more (readComment here)
  else if here.sees "<?" then more (readInstruction here)
  else .ok here
termination_by c.rest.length

/-- Consumes the blanks between the parts of a declaration; its end needs none. -/
def declarationSpace (c : Cursor) : Except Fault Cursor :=
  match c.rest with
  | [] => .ok c
  | next :: _ =>
    if c.atSpace then .ok c.skipSpace
    else if c.sees "?>" then .ok c
    else .error (c.fault (.expectedKind "a whitespace" (Cursor.leadByte next)))

/-- Consumes a part of a declaration that starts with this word. -/
def declarationPart (word : String) (c : Cursor) : Except Fault Cursor := do
  if !c.sees word then return c
  let (_, _, _, c) ← readAttribute c
  return c

/-- Consumes an XML declaration: a version, and then perhaps an encoding and a mention of
independence. -/
def readDeclaration (c : Cursor) : Except Fault Cursor := do
  let c ← declarationSpace (c.advance 5)
  if !c.sees "version" then throw (c.fault (.expectedWord "version"))
  let c ← declarationSpace (← declarationPart "version" c)
  let c ←
    if c.sees "encoding" then declarationSpace (← declarationPart "encoding" c) else pure c
  let c ← declarationPart "standalone" c
  c.skipSpace.expectWord "?>"

/-- Consumes what stands before the root element. -/
def readProlog (c : Cursor) : Except Fault Cursor := do
  let c := if c.sees "\ufeff" then c.advance 1 else c
  let c ← if c.sees "<?xml " then readDeclaration c else pure c
  let c ← skipMisc c
  if c.sees "<!DOCTYPE" then throw .doctype
  return c

/-- Reads a document into its root element, without prefixes, and the prefixes in use. -/
def readRoot (s : List Char) : Except Fault (Element × List (String × String)) := do
  let c ← readProlog (Cursor.start s)
  let before : Progress := ⟨c, [], false, [], none⟩
  let p ← if c.rest.head? = some '<' then (← before.start).run else pure before
  let behind ← skipMisc p.cursor
  if !behind.rest.isEmpty then throw (behind.fault .unknownToken)
  if !p.opened.isEmpty then throw .unclosedRoot
  match p.root with
  | some root => return (root, p.prefixes)
  | none => throw .noRoot

/-- Reads a document into an element tree. -/
def parse (s : List Char) : Except Fault Element := do
  let (root, prefixes) ← readRoot s
  return { root with tag := { root.tag with prefixes := prefixes } }

end MathMarkup.Xml
