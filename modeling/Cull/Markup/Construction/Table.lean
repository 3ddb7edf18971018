import Cull.Markup.Construction.Body

/-!
# In a table

The rules in a table, its caption, its groups of columns and rows, its rows and
its cells. Text that stands directly in a table is collected run by run, and is
moved before the table if it is more than blanks.
-/

namespace Cull.Markup.Build

/-- The parts of a table. -/
def tablePartTags : List String :=
  ["caption", "col", "colgroup", "tbody", "td", "tfoot", "th", "thead", "tr"]

/-- Closes what is open inside a table. -/
def clearToTable : Build Unit := popWhile (!·.boundsTableScope)

/-- Closes what is open inside a group of rows. -/
def clearToRowContext : Build Unit := popWhile (!·.isRowContext)

/-- Closes what is open inside a row. -/
def clearToCellContext : Build Unit := popWhile (!·.isCellContext)

/-- An element of one of the names is open in the current table. -/
def hasInTable (tags : List String) : Build Bool := hasInScope (·.boundsTableScope) tags

/-- The rules for text in a table. -/
def textInTable (token : Token) : Build Outcome := do
  if ← currentIs (·.isTablePart) then
    modify fun s => { s with returnMode := s.mode }
    return .again .inTableText
  else fosterInBody token

/-- The rules for start tags in a table. -/
def startInTable (tag : Tag) : Build Outcome := do
  let name := tag.name
  if name = "caption" then
    clearToTable
    pushMarker
    let _ ← openTag tag
    setMode .inCaption
    return .done
  else if name = "colgroup" then
    clearToTable
    let _ ← openTag tag
    setMode .inColumnGroup
    return .done
  else if name = "col" then
    clearToTable
    let _ ← openImplied "colgroup"
    return .again .inColumnGroup
  else if name = "tbody" || name = "tfoot" || name = "thead" then
    clearToTable
    let _ ← openTag tag
    setMode .inTableBody
    return .done
  else if name = "td" || name = "th" || name = "tr" then
    clearToTable
    let _ ← openImplied "tbody"
    return .again .inTableBody
  else if name = "table" then
    if ← hasInTable ["table"] then
      popThroughTag "table"
      return .again (← fitting)
    else return .done
  else if name = "style" || name = "script" || name = "template" then inHead (.startTag tag)
  else if name = "input" && isHidden tag then voidTag tag
  else if name = "form" then
    if !(← isOpen "template") && (← get).form.isNone then
      let e ← insert (.html name) tag.attributes
      modify fun s => { s with form := some e.id }
    return .done
  else fosterInBody (.startTag tag)

/-- The rules in a table. -/
def inTable (token : Token) : Build Outcome := do
  match token with
  | .text _ | .nul => textInTable token
  | .comment => putComment
  | .startTag tag => startInTable tag
  | .endTag name =>
    if name = "table" then
      if ← hasInTable ["table"] then
        popThroughTag "table"
        resetMode
      return .done
    else if name = "body" || name = "html" || tablePartTags.contains name then return .done
    else if name = "template" then inHead token
    else fosterInBody token
  | .eof => inBody token
  | .doctype _ | .fault => return .done

/-- Places runs of text, before the table if they are more than blanks. -/
def placeTexts (texts : List Text) : Build Unit := do
  if texts.all (·.all Text.isAsciiBlank) then
    for t in texts do put (.text t)
  else
    for t in texts do
      let _ ← fosterInBody (.text t)

/-- Places the runs of text that have been collected. -/
def placePending : Build Unit := do
  let texts := (← get).pending
  modify fun s => { s with pending := [] }
  placeTexts texts

/-- The rules in a run of text in a table, which other tokens end before they are seen. -/
def inTableText (token : Token) : Build Outcome := do
  match token with
  | .text t =>
    modify fun s => { s with pending := s.pending ++ [t] }
    return .done
  | _ => return .done

/-- Closes the caption. -/
def closeCaption : Build Unit := do
  implyEnds
  popThroughTag "caption"
  clearToMarker

/-- The rules in the caption of a table. -/
def inCaption (token : Token) : Build Outcome := do
  let leave : Build Outcome := do
    if ← hasInTable ["caption"] then
      closeCaption
      return .again .inTable
    else return .done
  match token with
  | .startTag tag => if tablePartTags.contains tag.name then leave else inBody token
  | .endTag name =>
    if name = "caption" then
      if ← hasInTable ["caption"] then
        closeCaption
        setMode .inTable
      return .done
    else if name = "table" then leave
    else if name = "body" || name = "html" || tablePartTags.contains name then return .done
    else inBody token
  | _ => inBody token

/-- The rules in a group of columns. -/
def inColumnGroup (token : Token) : Build Outcome := do
  let leave : Build Outcome := do
    if ← currentIsOneOf ["colgroup"] then
      pop
      return .again .inTable
    else return .done
  match token with
  | .text t =>
    match blankness t with
    | .mixed => return .split
    | .blank => putText t
    | .solid => leave
  | .comment => putComment
  | .startTag tag =>
    if tag.name = "html" then addRootAttributes tag
    else if tag.name = "col" then voidTag tag
    else if tag.name = "template" then inHead token
    else leave
  | .endTag name =>
    if name = "colgroup" then
      if ← currentIsOneOf ["colgroup"] then
        pop
        setMode .inTable
      return .done
    else if name = "col" then return .done
    else if name = "template" then inHead token
    else leave
  | .eof => inBody token
  | _ => leave

/-- The rules in a group of rows. -/
def inTableBody (token : Token) : Build Outcome := do
  let leave : Build Outcome := do
    if ← hasInTable ["table", "tbody", "tfoot"] then
      clearToRowContext
      pop
      return .again .inTable
    else return .done
  match token with
  | .startTag tag =>
    let name := tag.name
    if name = "tr" then
      clearToRowContext
      let _ ← openTag tag
      setMode .inRow
      return .done
    else if name = "th" || name = "td" then
      clearToRowContext
      let _ ← openImplied "tr"
      return .again .inRow
    else if tablePartTags.contains name then leave
    else inTable token
  | .endTag name =>
    if name = "tbody" || name = "tfoot" || name = "thead" then
      if ← hasInTable [name] then
        clearToRowContext
        pop
        setMode .inTable
      return .done
    else if name = "table" then leave
    else if name = "body" || name = "html" || tablePartTags.contains name then return .done
    else inTable token
  | _ => inTable token

/-- The rules in a row. -/
def inRow (token : Token) : Build Outcome := do
  let leave : Build Outcome := do
    if ← hasInTable ["tr"] then
      clearToCellContext
      pop
      return .again .inTableBody
    else return .done
  match token with
  | .startTag tag =>
    let name := tag.name
    if name = "th" || name = "td" then
      clearToCellContext
      let _ ← openTag tag
      setMode .inCell
      pushMarker
      return .done
    else if tablePartTags.contains name then leave
    else inTable token
  | .endTag name =>
    if name = "tr" then
      if ← hasInTable ["tr"] then
        clearToCellContext
        pop
        setMode .inTableBody
      return .done
    else if name = "table" then leave
    else if name = "tbody" || name = "tfoot" || name = "thead" then
      if ← hasInTable [name] then leave else return .done
    else if name = "body" || name = "html" || tablePartTags.contains name then return .done
    else inTable token
  | _ => inTable token

/-- The rules in a cell. -/
def inCell (token : Token) : Build Outcome := do
  let leave : Build Outcome := do
    implyEnds
    popThrough (·.isCell)
    clearToMarker
    return .again .inRow
  match token with
  | .startTag tag =>
    if tablePartTags.contains tag.name then
      if ← hasInTable ["td", "th"] then leave else return .done
    else inBody token
  | .endTag name =>
    if name = "td" || name = "th" then
      if ← hasInTable [name] then
        implyEnds
        popThroughTag name
        clearToMarker
        setMode .inRow
      return .done
    else if ["table", "tbody", "tfoot", "thead", "tr"].contains name then
      if ← hasInTable [name] then leave else return .done
    else if ["body", "caption", "col", "colgroup", "html"].contains name then return .done
    else inBody token
  | _ => inBody token

end Cull.Markup.Build
