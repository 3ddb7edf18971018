import Cull.Markup.Construction.Doctype
import Cull.Markup.Construction.Table

/-!
# The remaining rules

The rules in a selection, in a template, in a set of frames and at the end of a
page, and the choice of the rules that apply to a token.
-/

namespace Cull.Markup.Build

/-- Closes the open selection. -/
def closeSelect : Build Unit := popThroughTag "select"

/-- Closes an open option and an open group of options. -/
def closeOptions : Build Unit := do
  if ← currentIsOneOf ["option"] then pop
  if ← currentIsOneOf ["optgroup"] then pop

/-- The rules in a selection. -/
def inSelect (token : Token) : Build Outcome := do
  let inScope := hasInScope (·.boundsSelectScope) ["select"]
  match token with
  | .nul | .doctype _ | .fault => return .done
  | .text t => putText t
  | .comment => putComment
  | .startTag tag =>
    let name := tag.name
    if name = "html" then addRootAttributes tag
    else if name = "option" then
      if ← currentIsOneOf ["option"] then pop
      let _ ← openTag tag
      return .done
    else if name = "optgroup" then
      closeOptions
      let _ ← openTag tag
      return .done
    else if name = "hr" then
      closeOptions
      voidTag tag
    else if name = "select" then
      if ← inScope then
        closeSelect
        resetMode
      return .done
    else if ["input", "keygen", "textarea"].contains name then
      if ← inScope then
        closeSelect
        return .again (← fitting)
      else return .done
    else if name = "script" || name = "template" then inHead token
    else return .done
  | .endTag name =>
    if name = "optgroup" then
      match (← get).stack with
      | e :: o :: _ => if e.name.isOneOf ["option"] && o.name.isOneOf ["optgroup"] then pop
      | _ => pure ()
      if ← currentIsOneOf ["optgroup"] then pop
      return .done
    else if name = "option" then
      if ← currentIsOneOf ["option"] then pop
      return .done
    else if name = "select" then
      if ← inScope then
        closeSelect
        resetMode
      return .done
    else if name = "template" then inHead token
    else return .done
  | .eof => inBody token

/-- The rules in a selection that stands in a table. -/
def inSelectInTable (token : Token) : Build Outcome := do
  let parts := ["caption", "table", "tbody", "tfoot", "thead", "tr", "td", "th"]
  match token with
  | .startTag tag =>
    if parts.contains tag.name then
      closeSelect
      return .again (← fitting)
    else inSelect token
  | .endTag name =>
    if parts.contains name then
      if ← hasInTable [name] then
        closeSelect
        return .again (← fitting)
      else return .done
    else inSelect token
  | _ => inSelect token

/-- The rules in a template. -/
def inTemplate (token : Token) : Build Outcome := do
  let become (mode : Mode) : Build Outcome := do
    modify fun s => { s with templateModes := mode :: s.templateModes.tail }
    return .again mode
  match token with
  | .text _ | .comment => inBody token
  | .startTag tag =>
    let name := tag.name
    if headTags.contains name then inHead token
    else if ["caption", "colgroup", "tbody", "tfoot", "thead"].contains name then become .inTable
    else if name = "col" then become .inColumnGroup
    else if name = "tr" then become .inTableBody
    else if name = "td" || name = "th" then become .inRow
    else become .inBody
  | .endTag name => if name = "template" then inHead token else return .done
  | .eof => endInTemplate
  | .nul | .doctype _ | .fault => return .done

/-- Puts a comment last under the root element. -/
def putCommentUnderRoot : Build Outcome := do
  match (← get).stack.getLast? with
  | some e => putCommentUnder e.id
  | none => return .done

/-- The rules after the body. -/
def afterBody (token : Token) : Build Outcome := do
  match token with
  | .text t =>
    match blankness t with
    | .mixed => return .split
    | .blank => inBody token
    | .solid => return .again .inBody
  | .comment => putCommentUnderRoot
  | .startTag tag => if tag.name = "html" then inBody token else return .again .inBody
  | .endTag name =>
    if name = "html" then
      setMode .afterAfterBody
      return .done
    else return .again .inBody
  | .eof => return .done
  | _ => return .again .inBody

/-- The rules in a set of frames. -/
def inFrameset (token : Token) : Build Outcome := do
  match token with
  | .text t =>
    match blankness t with
    | .mixed => return .split
    | .blank => putText t
    | .solid => return .done
  | .comment => putComment
  | .startTag tag =>
    if tag.name = "html" then inBody token
    else if tag.name = "frameset" then
      let _ ← openTag tag
      return .done
    else if tag.name = "frame" then voidTag tag
    else if tag.name = "noframes" then inHead token
    else return .done
  | .endTag name =>
    if name = "frameset" && (← get).stack.length ≠ 1 then
      pop
      if !(← currentIsOneOf ["frameset"]) then setMode .afterFrameset
    return .done
  | _ => return .done

/-- The rules after the set of frames. -/
def afterFrameset (token : Token) : Build Outcome := do
  match token with
  | .text t =>
    match blankness t with
    | .mixed => return .split
    | .blank => putText t
    | .solid => return .done
  | .comment => putComment
  | .startTag tag =>
    if tag.name = "html" then inBody token
    else if tag.name = "noframes" then inHead token
    else return .done
  | .endTag name =>
    if name = "html" then setMode .afterAfterFrameset
    return .done
  | _ => return .done

/-- The rules after the root element. -/
def afterAfterBody (token : Token) : Build Outcome := do
  match token with
  | .text t =>
    match blankness t with
    | .mixed => return .split
    | .blank => inBody token
    | .solid => return .again .inBody
  | .comment => putCommentUnder Document.root
  | .startTag tag => if tag.name = "html" then inBody token else return .again .inBody
  | .eof => return .done
  | _ => return .again .inBody

/-- The rules after the root element of a page of frames. -/
def afterAfterFrameset (token : Token) : Build Outcome := do
  match token with
  | .text t =>
    match blankness t with
    | .mixed => return .split
    | .blank => inBody token
    | .solid => return .done
  | .comment => putCommentUnder Document.root
  | .startTag tag =>
    if tag.name = "html" then inBody token
    else if tag.name = "noframes" then inHead token
    else return .done
  | _ => return .done

/-- The rules in an element that holds no tags, which the end of the page closes before it is
seen. -/
def inText (token : Token) : Build Outcome := do
  let s ← get
  match token with
  | .text t => putText t
  | .endTag name =>
    pop
    setMode s.returnMode
    return if name = "script" then .scriptEnd else .done
  | _ => return .done

/-- Leaves the text that a token ends: a run of text in a table, or an element that holds no tags at
the end of the page. -/
def leaveText (token : Token) : Build Unit := do
  let s ← get
  match s.mode, token with
  | .inTableText, .text _ | .inTableText, .nul => pure ()
  | .inTableText, _ =>
    placePending
    setMode s.returnMode
  | .text, .eof =>
    pop
    setMode s.returnMode
  | _, _ => pure ()

/-- The rules of a mode. -/
def rules : Mode → Token → Build Outcome
  | .initial => initial
  | .beforeHtml => beforeHtml
  | .beforeHead => beforeHead
  | .inHead => inHead
  | .afterHead => afterHead
  | .inBody => inBody
  | .text => inText
  | .inTable => inTable
  | .inTableText => inTableText
  | .inCaption => inCaption
  | .inColumnGroup => inColumnGroup
  | .inTableBody => inTableBody
  | .inRow => inRow
  | .inCell => inCell
  | .inSelect => inSelect
  | .inSelectInTable => inSelectInTable
  | .inTemplate => inTemplate
  | .afterBody => afterBody
  | .inFrameset => inFrameset
  | .afterFrameset => afterFrameset
  | .afterAfterBody => afterAfterBody
  | .afterAfterFrameset => afterAfterFrameset

/-- Applies the rules for the current state once. -/
def applyRules (token : Token) : Build Outcome := do
  let s ← get
  if isForeignToken s token then foreign (rules s.mode) token
  else rules s.mode token

/-- What a token leads to beyond the document. -/
inductive Effect where
  /-- Nothing. -/
  | none
  /-- What follows up to the end tag is text. -/
  | raw (content : Lexer.Content)
  /-- A script has ended. -/
  | scriptEnd

/-- The longest start of a text in which either all or no characters are blanks, and the rest. -/
def firstRun : Text → Text × Text
  | [] => ([], [])
  | c :: t => ((c :: t).span (Text.isAsciiBlank · = Text.isAsciiBlank c))

/-- Applies rules until a token is used up; `fuel` bounds the number of applications. -/
def exhaust (token : Token) (later : Text) : Nat → Build Effect
  | 0 => return .none
  | fuel + 1 => do
    match ← applyRules token with
    | .again mode =>
      setMode mode
      exhaust token later fuel
    | .split =>
      match token with
      | .text t =>
        let (run, rest) := firstRun t
        exhaust (.text run) (rest ++ later) fuel
      | _ => return .none
    | .done => if later.isEmpty then return .none else exhaust (.text later) [] fuel
    | .raw content => return .raw content
    | .scriptEnd => return .scriptEnd

/-- A number of applications of rules after which any token is used up. -/
def enough (s : State) (token : Token) : Nat :=
  let size := match token with
    | .text t => t.length
    | _ => 0
  32 * (s.stack.length + size + 2)

/-- Feeds a token into the construction. A line feed at the front of a text is left out only if no
other token, not even a mistake, has come after the tag that asked for that. -/
def feed (token : Token) : Build Effect := do
  let s ← get
  modify fun s => { s with skipNewline := false }
  match token with
  | .doctype d =>
    if s.mode = .initial then
      modify fun s => { s with legacy := d.isLegacy, mode := .beforeHtml }
    return .none
  | .fault => return .none
  | .text t =>
    let t := match s.skipNewline, t with
      | true, '\n' :: rest => rest
      | _, _ => t
    if t.isEmpty then return .none else exhaust (.text t) [] (enough s (.text t))
  | _ =>
    leaveText token
    exhaust token [] (enough (← get) token)

end Cull.Markup.Build
