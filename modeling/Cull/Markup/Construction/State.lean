import Cull.Markup.Construction.Names
import Cull.Markup.Document
import Cull.Markup.Lexer.RawText

/-!
# The state of construction

A page is put together token by token. The state holds the document so far,
the elements that are still open, innermost first, the formatting elements that
are to be opened again where they were cut off, latest first, and the mode,
which says which rules apply to the next token.
-/

namespace Cull.Markup

/-- Which rules apply. -/
inductive Mode where
  /-- Before everything. -/
  | initial
  /-- Before the root element. -/
  | beforeHtml
  /-- Before the head. -/
  | beforeHead
  /-- In the head. -/
  | inHead
  /-- Between head and body. -/
  | afterHead
  /-- In the body. -/
  | inBody
  /-- In an element that holds no tags. -/
  | text
  /-- In a table. -/
  | inTable
  /-- In a run of text in a table. -/
  | inTableText
  /-- In the caption of a table. -/
  | inCaption
  /-- In a group of columns. -/
  | inColumnGroup
  /-- In a group of rows. -/
  | inTableBody
  /-- In a row. -/
  | inRow
  /-- In a cell. -/
  | inCell
  /-- In a selection. -/
  | inSelect
  /-- In a selection that stands in a table. -/
  | inSelectInTable
  /-- In a template. -/
  | inTemplate
  /-- After the body. -/
  | afterBody
  /-- In a set of frames. -/
  | inFrameset
  /-- After the set of frames. -/
  | afterFrameset
  /-- After the root element. -/
  | afterAfterBody
  /-- After the root element of a page of frames. -/
  | afterAfterFrameset
  deriving DecidableEq

/-- An element of the document, with its name at hand. -/
structure Opened where
  /-- The node. -/
  id : NodeId
  /-- The name of the element. -/
  name : ElementName
  deriving DecidableEq

/-- An entry of the list of formatting elements. -/
inductive Format where
  /-- Entries before this one are out of sight. -/
  | marker
  /-- A formatting element, with the tag that opened it. -/
  | element (e : Opened) (tag : Tag)

/-- The state of construction. -/
structure State where
  /-- The document so far. -/
  doc : Document
  /-- Which rules apply. -/
  mode : Mode
  /-- The mode to return to after text. -/
  returnMode : Mode
  /-- The modes of the templates that have been entered and not left, innermost first. -/
  templateModes : List Mode
  /-- The runs of text in a table that have not been placed. -/
  pending : List Text
  /-- The page has no proper doctype. -/
  legacy : Bool
  /-- The open elements, innermost first. -/
  stack : List Opened
  /-- The formatting elements, latest first. -/
  formatting : List Format
  /-- The head. -/
  head : Option NodeId
  /-- The form that is being filled. -/
  form : Option NodeId
  /-- A set of frames may still take the place of the body. -/
  framesetOk : Bool
  /-- A line feed at the front of the next text does not count. -/
  skipNewline : Bool
  /-- What is misplaced in a table goes before it. -/
  fostering : Bool

/-- The state before the first token. -/
def State.start : State :=
  { doc := .empty, mode := .initial, returnMode := .initial, templateModes := [], pending := [], legacy := false,
    stack := [], formatting := [], head := none, form := none, framesetOk := true, skipNewline := false,
    fostering := false }

/-- A step of construction. -/
abbrev Build := StateM State

/-- What is left to do with a token after a rule has seen it. -/
inductive Outcome where
  /-- Nothing. -/
  | done
  /-- The token is to be seen again, in the given mode. -/
  | again (mode : Mode)
  /-- The token is a text in which blanks and other characters are to be seen separately. -/
  | split
  /-- What follows up to the end tag is text. -/
  | raw (content : Lexer.Content)
  /-- A script has ended. -/
  | scriptEnd

namespace Build

/-! ### The open elements -/

/-- The innermost open element is of ordinary markup and has one of the names. -/
def currentIsOneOf (tags : List String) : Build Bool :=
  return match (← get).stack with
    | e :: _ => e.name.isOneOf tags
    | [] => false

/-- The innermost open element satisfies a condition. -/
def currentIs (p : ElementName → Bool) : Build Bool :=
  return match (← get).stack with
    | e :: _ => p e.name
    | [] => false

/-- Opens an element. -/
def push (e : Opened) : Build Unit := modify fun s => { s with stack := e :: s.stack }

/-- Closes the innermost open element. -/
def pop : Build Unit := modify fun s => { s with stack := s.stack.tail }

/-- Closes an element, wherever it stands in the stack. -/
def close (id : NodeId) : Build Unit :=
  modify fun s => { s with stack := s.stack.eraseP (·.id = id) }

/-- Closes elements as long as the innermost one satisfies the condition. -/
def popWhile (p : ElementName → Bool) : Build Unit :=
  modify fun s => { s with stack := s.stack.dropWhile (p ·.name) }

/-- Closes elements up to and including the first that satisfies the condition. -/
def popThrough (p : ElementName → Bool) : Build Unit :=
  modify fun s => { s with stack := (s.stack.dropWhile (!p ·.name)).tail }

/-- Closes elements up to and including the first of the given name. -/
def popThroughTag (tag : String) : Build Unit := popThrough (·.isOneOf [tag])

/-- An element for which `target` holds is open, and no element for which `stop` holds is open
inside it. -/
def reaches (stack : List Opened) (target : Opened → Bool) (stop : ElementName → Bool) : Bool :=
  match stack with
  | [] => false
  | e :: rest => target e || (!stop e.name && reaches rest target stop)

/-- An element of one of the names is open within the given bounds. -/
def hasInScope (stop : ElementName → Bool) (tags : List String) : Build Bool :=
  return reaches (← get).stack (·.name.isOneOf tags) stop

/-- An element of the given name is open somewhere. -/
def isOpen (tag : String) : Build Bool := return (← get).stack.any (·.name.isOneOf [tag])

/-! ### Modes -/

/-- Changes the mode. -/
def setMode (m : Mode) : Build Unit := modify fun s => { s with mode := m }

/-- A set of frames can no longer take the place of the body. -/
def forbidFrameset : Build Unit := modify fun s => { s with framesetOk := false }

/-- The mode that fits the open elements. -/
def fittingMode (s : State) : List Opened → Mode
  | [] => .inBody
  | e :: below =>
    let outermost := below.isEmpty
    if e.name.ns ≠ .html then fittingMode s below
    else
      let tag := e.name.tag
      if tag = "select" then
        match below.find? (·.name.isOneOf ["template", "table"]) with
        | some o => if o.name.tag = "table" then .inSelectInTable else .inSelect
        | none => .inSelect
      else if (tag = "td" || tag = "th") && !outermost then .inCell
      else if tag = "tr" then .inRow
      else if tag = "tbody" || tag = "thead" || tag = "tfoot" then .inTableBody
      else if tag = "caption" then .inCaption
      else if tag = "colgroup" then .inColumnGroup
      else if tag = "table" then .inTable
      else if tag = "template" then s.templateModes.headD .inTemplate
      else if tag = "head" && !outermost then .inHead
      else if tag = "body" then .inBody
      else if tag = "frameset" then .inFrameset
      else if tag = "html" then if s.head.isNone then .beforeHead else .afterHead
      else fittingMode s below

/-- The mode that fits the elements that are open now. -/
def fitting : Build Mode := return fittingMode (← get) (← get).stack

/-- Changes to the mode that fits the open elements. -/
def resetMode : Build Unit := do setMode (← fitting)

/-! ### Placing nodes -/

/-- A place in the document. -/
inductive Place where
  /-- Last under a node. -/
  | last (parent : NodeId)
  /-- Before a table, or last under the element that is open around it if the table stands
  nowhere. -/
  | beforeTable (table around : NodeId)

/-- The place before the innermost open table, unless a template is open inside it. -/
def fosterPlace : List Opened → Place
  | [] => .last Document.root
  | [e] => .last e.id
  | e :: around :: rest =>
    if e.name.isOneOf ["template"] then .last e.id
    else if e.name.isOneOf ["table"] then .beforeTable e.id around.id
    else fosterPlace (around :: rest)

/-- The place for new content under the given element. -/
def placeUnder (s : State) (target : Opened) : Place :=
  if s.fostering && target.name.isTablePart then fosterPlace s.stack else .last target.id

/-- The document with a node or text put at a place. -/
def Place.insert (d : Document) (child : Child) : Place → Document
  | .last parent => d.append parent child
  | .beforeTable table around => d.appendBasedOnParent table around child

/-- Puts a node or text at a place. -/
def putAt (place : Place) (child : Child) : Build Unit :=
  modify fun s => { s with doc := place.insert s.doc child }

/-- Puts a node or text at the place for new content under the innermost of the given elements, if
there is one. -/
def putUnder (targets : List Opened) (child : Child) : Build Unit := do
  match targets with
  | target :: _ => putAt (placeUnder (← get) target) child
  | [] => pure ()

/-- Puts a node or text where new content goes. -/
def put (child : Child) : Build Unit := do putUnder (← get).stack child

/-- Creates a node. -/
def create (kind : NodeKind) : Build NodeId :=
  modifyGet fun s =>
    let (id, doc) := s.doc.create kind
    (id, { s with doc := doc })

/-- Puts text where new content goes. -/
def putText (t : Text) : Build Outcome := do
  put (.text t)
  return .done

/-- Puts a comment where new content goes. -/
def putComment : Build Outcome := do
  put (.node (← create .comment))
  return .done

/-- Puts a comment last under a node. -/
def putCommentUnder (parent : NodeId) : Build Outcome := do
  let id ← create .comment
  putAt (.last parent) (.node id)
  return .done

/-- Creates an element and puts it where new content goes. -/
def insert (name : ElementName) (attributes : List Attribute) : Build Opened := do
  let id ← create (.element ⟨name, attributes⟩)
  put (.node id)
  return ⟨id, name⟩

/-- Creates the element of a tag, puts it where new content goes and opens it. -/
def openTag (tag : Tag) : Build Opened := do
  let e ← insert (.html tag.name) tag.attributes
  push e
  return e

/-- Creates the element of a tag, which holds nothing. -/
def voidTag (tag : Tag) : Build Outcome := do
  let _ ← insert (.html tag.name) tag.attributes
  return .done

/-- Opens an element for which there is no tag. -/
def openImplied (tag : String) : Build Opened := openTag ⟨tag, [], false⟩

/-- Opens the element of a tag that holds no tags. -/
def openRaw (tag : Tag) (content : Lexer.Content) : Build Outcome := do
  let _ ← openTag tag
  modify fun s => { s with returnMode := s.mode, mode := .text }
  return .raw content

/-! ### Implied end tags -/

/-- Closes elements whose end tag may be left out, except the given one. -/
def implyEndsExcept (tag : String) : Build Unit :=
  popWhile fun n => n.endIsImplied && !n.isOneOf [tag]

/-- Closes elements whose end tag may be left out. -/
def implyEnds : Build Unit := popWhile (·.endIsImplied)

/-- Closes the open paragraph. -/
def closeParagraph : Build Unit := do
  implyEndsExcept "p"
  popThroughTag "p"

/-- Closes the open paragraph, if there is one. -/
def closeParagraphIfOpen : Build Unit := do
  if ← hasInScope (·.boundsButtonScope) ["p"] then closeParagraph

/-! ### Texts -/

/-- How a text is made up. -/
inductive Blankness where
  /-- Blanks only. -/
  | blank
  /-- No blanks. -/
  | solid
  /-- Blanks and other characters. -/
  | mixed

/-- How a text is made up. -/
def blankness (t : Text) : Blankness :=
  if t.all Text.isAsciiBlank then .blank
  else if t.any Text.isAsciiBlank then .mixed
  else .solid

end Build

end Cull.Markup
