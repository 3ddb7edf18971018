import Cull.Markup.Construction.Foreign
import Cull.Markup.Construction.Head

/-!
# In the body

The rules for the content of a page. They come as one function for start tags,
one for end tags and one for the rest, each a list of cases by the name of the
tag.
-/

namespace Cull.Markup.Build

/-- The blocks, which end an open paragraph. -/
def blockTags : List String :=
  ["address", "article", "aside", "blockquote", "center", "details", "dialog", "dir", "div", "dl", "fieldset",
    "figcaption", "figure", "footer", "header", "hgroup", "main", "menu", "nav", "ol", "p", "search", "section",
    "summary", "ul"]

/-- The end tags of blocks. -/
def blockEndTags : List String :=
  ["address", "article", "aside", "blockquote", "button", "center", "details", "dialog", "dir", "div", "dl",
    "fieldset", "figcaption", "figure", "footer", "header", "hgroup", "listing", "main", "menu", "nav", "ol",
    "pre", "search", "section", "summary", "ul"]

/-- The headings. -/
def headingTags : List String := ["h1", "h2", "h3", "h4", "h5", "h6"]

/-- The formatting elements that need no further care. -/
def formattingTags : List String :=
  ["b", "big", "code", "em", "font", "i", "s", "small", "strike", "strong", "tt", "u"]

/-- The elements that hide the formatting elements around them. -/
def enclosedTags : List String := ["applet", "marquee", "object"]

/-- The start tags that mean nothing in the body. -/
def strayTags : List String :=
  ["caption", "col", "colgroup", "frame", "head", "tbody", "td", "tfoot", "th", "thead", "tr"]

/-- The tag is for a field that is not shown. -/
def isHidden (tag : Tag) : Bool :=
  (tag.attributes.find? (·.name = "type")).any (Text.sameIgnoringCase ·.value "hidden".toList)

/-- The body, if it is open directly under the root element. -/
def bodyElement (stack : List Opened) : Option NodeId :=
  match stack.reverse with
  | _ :: e :: _ => if e.name.isOneOf ["body"] then some e.id else none
  | _ => none

/-- The name of the open list item that a new one ends. -/
def openItem (items : List String) : List Opened → Option String
  | [] => none
  | e :: rest =>
    if e.name.isOneOf items then some e.name.tag
    else if e.name.isSpecial && !e.name.isOneOf ["address", "div", "p"] then none
    else openItem items rest

/-- Opens a list item after closing the one before. -/
def openListItem (tag : Tag) (items : List String) : Build Outcome := do
  forbidFrameset
  match openItem items (← get).stack with
  | some name =>
    implyEndsExcept name
    popThroughTag name
  | none => pure ()
  closeParagraphIfOpen
  let _ ← openTag tag
  return .done

/-- Ends an open `a` before a new one. -/
def closeAnchor : Build Unit := do
  match Format.find? (← get).formatting "a" with
  | none => pure ()
  | some (e, _) =>
    closeFormatting "a"
    modifyFormatting (Format.remove e.id)
    close e.id

/-- Inserts an element that holds nothing. -/
def insertVoid (tag : Tag) : Build Outcome := do
  reconstruct
  if !(tag.name = "input" && isHidden tag) then forbidFrameset
  voidTag tag

/-- Opens an element at the innermost formatting. -/
def openInline (tag : Tag) : Build Outcome := do
  reconstruct
  let _ ← openTag tag
  return .done

/-- Opens a block. -/
def openBlock (tag : Tag) : Build Outcome := do
  closeParagraphIfOpen
  let _ ← openTag tag
  return .done

/-- The rules for start tags in the body. -/
def startInBody (tag : Tag) : Build Outcome := do
  let name := tag.name
  if name = "html" then addRootAttributes tag
  else if headTags.contains name then inHead (.startTag tag)
  else if name = "body" then
    let s ← get
    match bodyElement s.stack with
    | some body =>
      if !s.stack.any (·.name.isOneOf ["template"]) then
        forbidFrameset
        modify fun s => { s with doc := s.doc.addMissingAttributes body tag.attributes }
    | none => pure ()
    return .done
  else if name = "frameset" then
    let s ← get
    match bodyElement s.stack with
    | some body =>
      if s.framesetOk then
        modify fun s => { s with doc := s.doc.detach body, stack := s.stack.getLast?.toList }
        let _ ← openTag tag
        setMode .inFrameset
    | none => pure ()
    return .done
  else if blockTags.contains name then openBlock tag
  else if headingTags.contains name then
    closeParagraphIfOpen
    if ← currentIs (·.isHeading) then pop
    let _ ← openTag tag
    return .done
  else if name = "pre" || name = "listing" then
    closeParagraphIfOpen
    let _ ← openTag tag
    modify fun s => { s with skipNewline := true, framesetOk := false }
    return .done
  else if name = "form" then
    let inTemplate ← isOpen "template"
    if (← get).form.isNone || inTemplate then
      closeParagraphIfOpen
      let e ← openTag tag
      if !inTemplate then modify fun s => { s with form := some e.id }
    return .done
  else if name = "li" then openListItem tag ["li"]
  else if name = "dd" || name = "dt" then openListItem tag ["dd", "dt"]
  else if name = "plaintext" then
    closeParagraphIfOpen
    let _ ← openTag tag
    return .raw .plain
  else if name = "button" then
    if ← hasInScope (·.boundsScope) ["button"] then
      implyEnds
      popThroughTag "button"
    reconstruct
    let _ ← openTag tag
    forbidFrameset
    return .done
  else if name = "a" then
    closeAnchor
    reconstruct
    openFormatting tag
  else if formattingTags.contains name then
    reconstruct
    openFormatting tag
  else if name = "nobr" then
    reconstruct
    if ← hasInScope (·.boundsScope) ["nobr"] then
      closeFormatting "nobr"
      reconstruct
    openFormatting tag
  else if enclosedTags.contains name then
    reconstruct
    let _ ← openTag tag
    pushMarker
    forbidFrameset
    return .done
  else if name = "table" then
    if !(← get).legacy then closeParagraphIfOpen
    let _ ← openTag tag
    forbidFrameset
    setMode .inTable
    return .done
  else if ["area", "br", "embed", "img", "keygen", "wbr", "input"].contains name then insertVoid tag
  else if ["param", "source", "track"].contains name then voidTag tag
  else if name = "hr" then
    closeParagraphIfOpen
    forbidFrameset
    voidTag tag
  else if name = "image" then insertVoid { tag with name := "img" }
  else if name = "textarea" then
    modify fun s => { s with skipNewline := true, framesetOk := false }
    openRaw tag .escapable
  else if name = "xmp" then
    closeParagraphIfOpen
    reconstruct
    forbidFrameset
    openRaw tag .verbatim
  else if name = "iframe" then
    forbidFrameset
    openRaw tag .verbatim
  else if name = "noembed" || name = "noscript" then openRaw tag .verbatim
  else if name = "select" then
    reconstruct
    let _ ← openTag tag
    forbidFrameset
    let mode := (← get).mode
    setMode (if mode ∈ [.inTable, .inCaption, .inTableBody, .inRow, .inCell] then .inSelectInTable else .inSelect)
    return .done
  else if name = "optgroup" || name = "option" then
    if ← currentIsOneOf ["option"] then pop
    openInline tag
  else if name = "rb" || name = "rtc" then
    if ← hasInScope (·.boundsScope) ["ruby"] then implyEnds
    let _ ← openTag tag
    return .done
  else if name = "rp" || name = "rt" then
    if ← hasInScope (·.boundsScope) ["ruby"] then implyEndsExcept "rtc"
    let _ ← openTag tag
    return .done
  else if name = "math" then openForeign .math name tag
  else if name = "svg" then openForeign .svg name tag
  else if strayTags.contains name then return .done
  else openInline tag

/-- Ends the current form. -/
def endForm : Build Unit := do
  if ← isOpen "template" then
    if ← hasInScope (·.boundsScope) ["form"] then
      implyEnds
      popThroughTag "form"
  else
    let s ← get
    match s.form with
    | none => pure ()
    | some form =>
      modify fun s => { s with form := none }
      if reaches s.stack (·.id = form) (·.boundsScope) then
        implyEnds
        close form

/-- The rules for end tags in the body. -/
def endInBody (name : String) : Build Outcome := do
  if name = "template" then inHead (.endTag name)
  else if name = "body" then
    if ← hasInScope (·.boundsScope) ["body"] then setMode .afterBody
    return .done
  else if name = "html" then
    if ← hasInScope (·.boundsScope) ["body"] then return .again .afterBody
    else return .done
  else if blockEndTags.contains name then
    if ← hasInScope (·.boundsScope) [name] then
      implyEnds
      popThroughTag name
    return .done
  else if name = "form" then
    endForm
    return .done
  else if name = "p" then
    if !(← hasInScope (·.boundsButtonScope) ["p"]) then
      let _ ← openImplied "p"
    closeParagraph
    return .done
  else if name = "li" || name = "dd" || name = "dt" then
    if ← hasInScope (if name = "li" then (·.boundsItemScope) else (·.boundsScope)) [name] then
      implyEndsExcept name
      popThroughTag name
    return .done
  else if headingTags.contains name then
    if ← hasInScope (·.boundsScope) headingTags then
      implyEnds
      popThrough (·.isHeading)
    return .done
  else if name = "a" || name = "nobr" || formattingTags.contains name then
    closeFormatting name
    return .done
  else if enclosedTags.contains name then
    if ← hasInScope (·.boundsScope) [name] then
      implyEnds
      popThroughTag name
      clearToMarker
    return .done
  else if name = "br" then insertVoid ⟨"br", [], false⟩
  else
    closeOrdinary name
    return .done

/-- The end of the page while a template is open. -/
def endInTemplate : Build Outcome := do
  if ← isOpen "template" then
    leaveTemplate
    return .again (← fitting)
  else return .done

/-- The rules in the body. -/
def inBody (token : Token) : Build Outcome := do
  match token with
  | .nul | .doctype _ | .fault => return .done
  | .text t =>
    reconstruct
    if t.any (!Text.isAsciiBlank ·) then forbidFrameset
    putText t
  | .comment => putComment
  | .startTag tag => startInBody tag
  | .endTag name => endInBody name
  | .eof => if (← get).templateModes.isEmpty then return .done else endInTemplate

/-- The rules in the body, with what is misplaced in a table going before it. -/
def fosterInBody (token : Token) : Build Outcome := do
  modify fun s => { s with fostering := true }
  let outcome ← inBody token
  modify fun s => { s with fostering := false }
  return outcome

end Cull.Markup.Build
