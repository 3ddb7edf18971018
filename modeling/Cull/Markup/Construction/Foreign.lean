import Cull.Markup.Construction.State

/-!
# Formulas and graphics

Inside `math` and `svg` elements names are taken from other vocabularies, in
which case matters, so that the names of graphics get their capitals back. A
tag of ordinary markup ends the foreign part, and some foreign elements hold
ordinary markup.
-/

namespace Cull.Markup

/-- The names of elements of graphics that have capitals. -/
def graphicsTags : List String :=
  ["altGlyph", "altGlyphDef", "altGlyphItem", "animateColor", "animateMotion", "animateTransform", "clipPath",
    "feBlend", "feColorMatrix", "feComponentTransfer", "feComposite", "feConvolveMatrix", "feDiffuseLighting",
    "feDisplacementMap", "feDistantLight", "feDropShadow", "feFlood", "feFuncA", "feFuncB", "feFuncG", "feFuncR",
    "feGaussianBlur", "feImage", "feMerge", "feMergeNode", "feMorphology", "feOffset", "fePointLight",
    "feSpecularLighting", "feSpotLight", "feTile", "feTurbulence", "foreignObject", "glyphRef", "linearGradient",
    "radialGradient", "textPath"]

/-- The names of attributes of graphics that have capitals. -/
def graphicsAttributes : List String :=
  ["attributeName", "attributeType", "baseFrequency", "baseProfile", "calcMode", "clipPathUnits",
    "diffuseConstant", "edgeMode", "filterUnits", "glyphRef", "gradientTransform", "gradientUnits",
    "kernelMatrix", "kernelUnitLength", "keyPoints", "keySplines", "keyTimes", "lengthAdjust",
    "limitingConeAngle", "markerHeight", "markerUnits", "markerWidth", "maskContentUnits", "maskUnits",
    "numOctaves", "pathLength", "patternContentUnits", "patternTransform", "patternUnits", "pointsAtX",
    "pointsAtY", "pointsAtZ", "preserveAlpha", "preserveAspectRatio", "primitiveUnits", "refX", "refY",
    "repeatCount", "repeatDur", "requiredExtensions", "requiredFeatures", "specularConstant",
    "specularExponent", "spreadMethod", "startOffset", "stdDeviation", "stitchTiles", "surfaceScale",
    "systemLanguage", "tableValues", "targetX", "targetY", "textLength", "viewBox", "viewTarget",
    "xChannelSelector", "yChannelSelector", "zoomAndPan"]

/-- The attributes with a namespace of their own, which is not part of the name that is kept. -/
def qualifiedAttributes : List (String × String) :=
  [("xlink:actuate", "actuate"), ("xlink:arcrole", "arcrole"), ("xlink:href", "href"), ("xlink:role", "role"),
    ("xlink:show", "show"), ("xlink:title", "title"), ("xlink:type", "type"), ("xml:lang", "lang"),
    ("xml:space", "space"), ("xmlns:xlink", "xlink")]

/-- The name of the table that is `name` up to case, or `name` itself. -/
def withCapitals (table : List String) (name : String) : String :=
  (table.find? fun t => t.toList.map Char.toLower = name.toList).getD name

/-- The name that is kept of an attribute of a foreign element. -/
def unqualified (name : String) : String := (qualifiedAttributes.lookup name).getD name

namespace Attribute

/-- Renames an attribute. -/
def rename (f : String → String) (a : Attribute) : Attribute := { a with name := f a.name }

/-- An attribute of an element of the given vocabulary, with the name that it has there. -/
def inForeign (ns : Namespace) (a : Attribute) : Attribute :=
  let own := match ns with
    | .svg => a.rename (withCapitals graphicsAttributes)
    | .math => a.rename fun n => if n = "definitionurl" then "definitionURL" else n
    | .html => a
  own.rename unqualified

end Attribute

/-- The start tags of ordinary markup that end a foreign part. -/
def breakoutTags : List String :=
  ["b", "big", "blockquote", "body", "br", "center", "code", "dd", "div", "dl", "dt", "em", "embed", "h1", "h2",
    "h3", "h4", "h5", "h6", "head", "hr", "i", "img", "li", "listing", "menu", "meta", "nobr", "ol", "p", "pre",
    "ruby", "s", "small", "span", "strong", "strike", "sub", "sup", "table", "tt", "u", "ul", "var"]

/-- The start tag ends a foreign part. -/
def Tag.breaksOut (tag : Tag) : Bool :=
  breakoutTags.contains tag.name ||
    (tag.name = "font" && tag.attributes.any fun a => ["color", "face", "size"].contains a.name)

namespace Build

/-- The token is seen by the rules for foreign elements. -/
def isForeignToken (s : State) (token : Token) : Bool :=
  match s.stack with
  | [] => false
  | e :: _ =>
    if e.name.ns = .html then false
    else if e.name.isFormulaText then
      match token with
      | .text _ | .nul | .eof => false
      | .startTag tag => tag.name = "mglyph" || tag.name = "malignmark"
      | _ => true
    else if e.name.isGraphicsText then
      match token with
      | .text _ | .nul | .eof | .startTag _ => false
      | _ => true
    else if e.name.ns = .math && e.name.tag = "annotation-xml" then
      match token with
      | .eof => false
      | .startTag tag => tag.name ≠ "svg"
      | _ => true
    else
      match token with
      | .eof => false
      | _ => true

/-- Creates a foreign element, and opens it unless its tag closes itself. -/
def openForeign (ns : Namespace) (name : String) (tag : Tag) : Build Outcome := do
  let e ← insert ⟨ns, name⟩ (tag.attributes.map (·.inForeign ns))
  if !tag.selfClosing then push e
  return .done

/-- Closes foreign elements up to one that is ordinary or holds ordinary markup. -/
def leaveForeign : Build Unit :=
  popWhile fun n => !(n.ns = .html || n.isFormulaText || n.isGraphicsText)

/-- Where the end tag of a foreign element leads. -/
inductive ForeignEnd where
  /-- The element is closed, and these stay open. -/
  | closed (stack : List Opened)
  /-- The end tag is for an ordinary element. -/
  | ordinary
  /-- The end tag is for no open element. -/
  | ignored

/-- Looks for the element of an end tag, innermost first. -/
def foreignEnd (name : String) (first : Bool) : List Opened → ForeignEnd
  | [] => .ignored
  | [_] => .ignored
  | e :: rest =>
    if !first && e.name.ns = .html then .ordinary
    else if Text.sameIgnoringCase e.name.tag.toList name.toList then .closed rest
    else foreignEnd name false rest

/-- The rules for foreign elements; `ordinary` are those that apply otherwise. -/
def foreign (ordinary : Token → Build Outcome) (token : Token) : Build Outcome := do
  match token with
  | .nul => putText ['\ufffd']
  | .text t =>
    if t.any (!Text.isAsciiBlank ·) then forbidFrameset
    putText t
  | .comment => putComment
  | .startTag tag =>
    if tag.breaksOut then
      leaveForeign
      ordinary token
    else
      match (← get).stack with
      | [] => return .done
      | e :: _ =>
        let name := if e.name.ns = .svg then withCapitals graphicsTags tag.name else tag.name
        openForeign e.name.ns name tag
  | .endTag name =>
    if name = "br" || name = "p" then
      leaveForeign
      ordinary token
    else
      match foreignEnd name true (← get).stack with
      | .closed stack =>
        modify fun s => { s with stack := stack }
        return .done
      | .ordinary => ordinary token
      | .ignored => return .done
  | .doctype _ | .fault | .eof => return .done

end Build

end Cull.Markup
