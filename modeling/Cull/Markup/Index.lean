import Cull.Markup.Page
import Cull.Text.Blank
import Cull.Text.Order

/-!
# The references of a page

What a page says about classes and ids: the `class`, `id` and `data-filter`
attributes of its elements, and the texts of its scripts. A script that holds a
template counts as one of the templates. What stands under a script is only
text.
-/

namespace Cull.Markup

/-- Something in a page that refers to classes or ids. -/
inductive Mention where
  /-- The value of a `class` attribute. -/
  | classes (value : Text)
  /-- The value of an `id` attribute. -/
  | id (value : Text)
  /-- The value of a `data-filter` attribute. -/
  | filter (value : Text)
  /-- The text of a script. -/
  | script (body : Text)
  /-- The text of a template. -/
  | template (body : Text)
  deriving DecidableEq

namespace Mention

/-- The value of a `class` attribute. -/
def classes? : Mention → Option Text
  | classes v => some v
  | _ => none

/-- The value of an `id` attribute. -/
def id? : Mention → Option Text
  | id v => some v
  | _ => none

/-- The value of a `data-filter` attribute. -/
def filter? : Mention → Option Text
  | filter v => some v
  | _ => none

/-- The text of a script. -/
def script? : Mention → Option Text
  | script b => some b
  | _ => none

/-- The text of a template. -/
def template? : Mention → Option Text
  | template b => some b
  | _ => none

end Mention

namespace Element

/-- The value of an attribute, unless it is blank. -/
def attributeUnlessBlank? (e : Element) (name : String) : Option Text :=
  (e.attribute? name).filter fun v => !(Text.trim v).isEmpty

/-- What the attributes of an element mention. -/
def mentions (e : Element) : List Mention :=
  ((e.attributeUnlessBlank? "class").map Mention.classes).toList ++
    ((e.attributeUnlessBlank? "id").map Mention.id).toList ++
    ((e.attribute? "data-filter").map Mention.filter).toList

/-- The element is a script. -/
def isScript (e : Element) : Bool := Text.sameIgnoringCase e.name.tag.toList "script".toList

/-- The element, a script, holds a template. -/
def holdsTemplate (e : Element) : Bool :=
  (e.attribute? "type").any fun t =>
    Text.hasPart "template".toList (Text.toLower t) || Text.hasPart "html".toList (Text.toLower t)

/-- What the text of a script element mentions. -/
def mentionsBody (e : Element) (body : Text) : List Mention :=
  if (Text.trim body).isEmpty then []
  else if e.holdsTemplate then [.template body]
  else [.script body]

end Element

namespace Tree

mutual

/-- What a tree mentions, in document order. -/
def mentions : Tree → List Mention
  | node (.element e) children =>
    e.mentions ++ if e.isScript then e.mentionsBody (textContents children) else mentionsAll children
  | node _ children => mentionsAll children

/-- What several trees mention. -/
def mentionsAll : List Tree → List Mention
  | [] => []
  | t :: ts => mentions t ++ mentionsAll ts

end

end Tree

/-- The references of a page by kind. -/
structure Index where
  /-- The values of `class` attributes, sorted. -/
  classes : List Text
  /-- The values of `id` attributes, sorted. -/
  ids : List Text
  /-- The values of `data-filter` attributes, sorted. -/
  filters : List Text
  /-- The texts of scripts, in document order. -/
  scripts : List Text
  /-- The texts of templates, in document order. -/
  templates : List Text

namespace Index

/-- The index of what has been mentioned. -/
def ofMentions (ms : List Mention) : Index where
  classes := Text.sortedSet (ms.filterMap Mention.classes?)
  ids := Text.sortedSet (ms.filterMap Mention.id?)
  filters := Text.sortedSet (ms.filterMap Mention.filter?)
  scripts := ms.filterMap Mention.script?
  templates := ms.filterMap Mention.template?

/-- The index of the text of a page. -/
def ofPage (t : Text) : Index := ofMentions (Tree.ofPage t).mentions

end Index

end Cull.Markup
