import Cull.Text.Basic

/-!
# Tokens of markup

What the text of a page is made of before it becomes a tree: tags, runs of
text, comments, doctypes and mistakes.
-/

namespace Cull.Markup

/-- An attribute of an element. -/
structure Attribute where
  /-- Its name. -/
  name : String
  /-- Its value. -/
  value : Text
  deriving DecidableEq

/-- A start tag. -/
structure Tag where
  /-- The name of the element. -/
  name : String
  /-- The attributes, no two of the same name. -/
  attributes : List Attribute
  /-- The tag ends in `/>`. -/
  selfClosing : Bool
  deriving DecidableEq

/-- A doctype. -/
structure Doctype where
  /-- The name of the root element. -/
  name : Option Text
  /-- The public identifier. -/
  publicId : Option Text
  /-- The system identifier. -/
  systemId : Option Text
  /-- The doctype is not well formed. -/
  malformed : Bool

/-- A token. -/
inductive Token where
  /-- A start tag. -/
  | startTag (tag : Tag)
  /-- An end tag. -/
  | endTag (name : String)
  /-- A run of text, not empty and without NUL. -/
  | text (t : Text)
  /-- The character NUL. -/
  | nul
  /-- A comment, whatever it says. -/
  | comment
  /-- A doctype. -/
  | doctype (d : Doctype)
  /-- A mistake that leaves nothing else behind. -/
  | fault
  /-- The end of the page. -/
  | eof

end Cull.Markup
