import Cull.Markup.Construction.Formatting

/-!
# Up to the body

The rules before the root element, before the head, in the head and between
head and body. What a page leaves out is put in: the root element, the head and
the body exist in every document.
-/

namespace Cull.Markup.Build

/-- The start tags that belong into the head. -/
def headTags : List String :=
  ["base", "basefont", "bgsound", "link", "meta", "noframes", "script", "style", "template", "title"]

/-- The end tags that do not go without effect before the body. -/
def earlyEndTags : List String := ["head", "body", "html", "br"]

/-- A further start tag of the root element gives it the attributes that it does not have. -/
def addRootAttributes (tag : Tag) : Build Outcome := do
  let s ← get
  if !s.stack.any (·.name.isOneOf ["template"]) then
    match s.stack.getLast? with
    | some e => modify fun s => { s with doc := s.doc.addMissingAttributes e.id tag.attributes }
    | none => pure ()
  return .done

/-- Creates the root element. -/
def createRoot (attributes : List Attribute) : Build Unit := do
  let name := ElementName.html "html"
  let id ← create (.element ⟨name, attributes⟩)
  push ⟨id, name⟩
  putAt (.last Document.root) (.node id)

/-- The rules before everything. -/
def initial (token : Token) : Build Outcome := do
  let start : Build Outcome := do
    modify fun s => { s with legacy := true }
    return .again .beforeHtml
  match token with
  | .text t =>
    match blankness t with
    | .mixed => return .split
    | .blank => return .done
    | .solid => start
  | .comment => putCommentUnder Document.root
  | _ => start

/-- The rules before the root element. -/
def beforeHtml (token : Token) : Build Outcome := do
  let start : Build Outcome := do
    createRoot []
    return .again .beforeHead
  match token with
  | .text t =>
    match blankness t with
    | .mixed => return .split
    | .blank => return .done
    | .solid => start
  | .comment => putCommentUnder Document.root
  | .startTag tag =>
    if tag.name = "html" then
      createRoot tag.attributes
      setMode .beforeHead
      return .done
    else start
  | .endTag name => if earlyEndTags.contains name then start else return .done
  | _ => start

/-- Opens the head. -/
def openHead (tag : Tag) : Build Unit := do
  let e ← openTag tag
  modify fun s => { s with head := some e.id }

/-- The rules before the head. -/
def beforeHead (token : Token) : Build Outcome := do
  let start : Build Outcome := do
    openHead ⟨"head", [], false⟩
    return .again .inHead
  match token with
  | .text t =>
    match blankness t with
    | .mixed => return .split
    | .blank => return .done
    | .solid => start
  | .comment => putComment
  | .startTag tag =>
    if tag.name = "html" then addRootAttributes tag
    else if tag.name = "head" then
      openHead tag
      setMode .inHead
      return .done
    else start
  | .endTag name => if earlyEndTags.contains name then start else return .done
  | _ => start

/-- Leaves the innermost template. -/
def leaveTemplate : Build Unit := do
  popThroughTag "template"
  clearToMarker
  modify fun s => { s with templateModes := s.templateModes.tail }
  resetMode

/-- The template holds the shadow tree of the element around it. -/
def isShadowRoot (tag : Tag) : Bool :=
  tag.attributes.any fun a => a.name = "shadowrootmode" && (a.value = "open".toList || a.value = "close".toList)

/-- Enters a template. Shadow trees are not kept apart: what stands in the template of one becomes
content of the element around it, unless that is the root element, and the template itself leaves
no trace but its mode and its marker. -/
def enterTemplate (tag : Tag) : Build Unit := do
  if !isShadowRoot tag || (← get).stack.length = 1 then
    let _ ← openTag tag
  pushMarker
  forbidFrameset
  modify fun s => { s with mode := .inTemplate, templateModes := .inTemplate :: s.templateModes }

/-- The rules in the head. -/
def inHead (token : Token) : Build Outcome := do
  let leave : Build Outcome := do
    pop
    return .again .afterHead
  match token with
  | .text t =>
    match blankness t with
    | .mixed => return .split
    | .blank => putText t
    | .solid => leave
  | .comment => putComment
  | .startTag tag =>
    let name := tag.name
    if name = "html" then addRootAttributes tag
    else if ["base", "basefont", "bgsound", "link", "meta"].contains name then voidTag tag
    else if name = "title" then openRaw tag .escapable
    else if ["noframes", "style", "noscript"].contains name then openRaw tag .verbatim
    else if name = "script" then openRaw tag .script
    else if name = "template" then
      enterTemplate tag
      return .done
    else if name = "head" then return .done
    else leave
  | .endTag name =>
    if name = "head" then
      pop
      setMode .afterHead
      return .done
    else if name = "template" then
      if ← isOpen "template" then
        popWhile (·.endIsImpliedThoroughly)
        leaveTemplate
      return .done
    else if earlyEndTags.contains name then leave
    else return .done
  | _ => leave

/-- The rules between head and body. -/
def afterHead (token : Token) : Build Outcome := do
  let start : Build Outcome := do
    let _ ← openImplied "body"
    return .again .inBody
  match token with
  | .text t =>
    match blankness t with
    | .mixed => return .split
    | .blank => putText t
    | .solid => start
  | .comment => putComment
  | .startTag tag =>
    let name := tag.name
    if name = "html" then addRootAttributes tag
    else if name = "body" then
      let _ ← openTag tag
      forbidFrameset
      setMode .inBody
      return .done
    else if name = "frameset" then
      let _ ← openTag tag
      setMode .inFrameset
      return .done
    else if headTags.contains name then
      match (← get).head with
      | none => return .done
      | some head =>
        push ⟨head, .html "head"⟩
        let outcome ← inHead token
        close head
        return outcome
    else if name = "head" then return .done
    else start
  | .endTag name =>
    if name = "template" then inHead token
    else if earlyEndTags.contains name && name ≠ "head" then start
    else return .done
  | _ => start

end Cull.Markup.Build
