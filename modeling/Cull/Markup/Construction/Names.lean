import Cull.Markup.Element

/-!
# Sets of element names

The sets of element names on which the rules for putting a page together
depend. Unless it says otherwise, a set holds names of ordinary markup only.
-/

namespace Cull.Markup

namespace ElementName

/-- The name of an element of ordinary markup. -/
def html (tag : String) : ElementName := ⟨.html, tag⟩

/-- The element is one of ordinary markup with one of the given names. -/
def isOneOf (n : ElementName) (tags : List String) : Bool := n.ns = .html && tags.contains n.tag

/-- An element for text in a formula: markup inside it is ordinary. -/
def isFormulaText (n : ElementName) : Bool := n.ns = .math && ["mi", "mo", "mn", "ms", "mtext"].contains n.tag

/-- An element for ordinary markup in graphics. -/
def isGraphicsText (n : ElementName) : Bool := n.ns = .svg && ["foreignObject", "desc", "title"].contains n.tag

/-- An element that an end tag does not look past. -/
def boundsScope (n : ElementName) : Bool :=
  n.isOneOf ["applet", "caption", "html", "table", "td", "th", "marquee", "object", "template"] ||
    n.isFormulaText || n.isGraphicsText

/-- An element that the end tag of a list item does not look past. -/
def boundsItemScope (n : ElementName) : Bool := n.boundsScope || n.isOneOf ["ol", "ul"]

/-- An element that the search for an open paragraph does not look past. -/
def boundsButtonScope (n : ElementName) : Bool := n.boundsScope || n.isOneOf ["button"]

/-- An element that the parts of a table do not look past. -/
def boundsTableScope (n : ElementName) : Bool := n.isOneOf ["html", "table", "template"]

/-- An element that the search for an open selection does not look past. -/
def boundsSelectScope (n : ElementName) : Bool := !n.isOneOf ["optgroup", "option"]

/-- The elements around the rows of a table. -/
def isRowContext (n : ElementName) : Bool := n.isOneOf ["tbody", "tfoot", "thead", "template", "html"]

/-- The elements around the cells of a row. -/
def isCellContext (n : ElementName) : Bool := n.isOneOf ["tr", "template", "html"]

/-- A cell of a table. -/
def isCell (n : ElementName) : Bool := n.isOneOf ["td", "th"]

/-- A heading. -/
def isHeading (n : ElementName) : Bool := n.isOneOf ["h1", "h2", "h3", "h4", "h5", "h6"]

/-- An element whose end tag may be left out. -/
def endIsImplied (n : ElementName) : Bool :=
  n.isOneOf ["dd", "dt", "li", "option", "optgroup", "p", "rb", "rp", "rt", "rtc"]

/-- An element whose end tag may be left out when a template ends. -/
def endIsImpliedThoroughly (n : ElementName) : Bool :=
  n.endIsImplied || n.isOneOf ["caption", "colgroup", "tbody", "td", "tfoot", "th", "thead", "tr"]

/-- An element in which misplaced content is moved out of the table. -/
def isTablePart (n : ElementName) : Bool := n.isOneOf ["table", "tbody", "tfoot", "thead", "tr"]

/-- An element that an end tag for an ordinary element does not reach past. -/
def isSpecial (n : ElementName) : Bool :=
  n.isOneOf ["address", "applet", "area", "article", "aside", "base", "basefont", "bgsound", "blockquote",
    "body", "br", "button", "caption", "center", "col", "colgroup", "dd", "details", "dir", "div", "dl", "dt",
    "embed", "fieldset", "figcaption", "figure", "footer", "form", "frame", "frameset", "h1", "h2", "h3", "h4",
    "h5", "h6", "head", "header", "hgroup", "hr", "html", "iframe", "img", "input", "isindex", "li", "link",
    "listing", "main", "marquee", "menu", "meta", "nav", "noembed", "noframes", "noscript", "object", "ol", "p",
    "param", "plaintext", "pre", "script", "section", "select", "source", "style", "summary", "table",
    "tbody", "td", "template", "textarea", "tfoot", "th", "thead", "title", "tr", "track", "ul", "wbr", "xmp"]

end ElementName

end Cull.Markup
