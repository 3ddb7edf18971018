import Cull.Text.Pattern
import Cull.Usage.Reference

/-!
# Extraction rules

Rules that find references in the raw text of pages and scripts. A rule has a
pattern with one captured part, and says what kind of reference the captured
text is. The rules do not depend on each other; each one looks at the whole
text.
-/

namespace Cull

open Text

/-- What kind of text a rule looks at. -/
inductive Context where
  /-- The text of a page. -/
  | markup
  /-- The text of a script, also inside a page. -/
  | script
  deriving DecidableEq

/-- What kind of reference a captured text is. -/
inductive Reading where
  /-- A selector: itself and its parts. -/
  | selector
  /-- A selector if it begins with `.` or `#`; anything else is ignored. -/
  | markedSelector
  /-- Class names, or a selector if it begins with `.` or `#`. -/
  | classNames
  /-- An id. -/
  | id
  /-- Only the parts of a selector. -/
  | parts
  deriving DecidableEq

/-- The tokens of a captured text. -/
def Reading.tokens : Reading → Text → List Text
  | selector, value => Reference.selector value
  | markedSelector, value => if Reference.isMarked value then Reference.selector value else []
  | classNames, value => Reference.classNames value
  | id, value => Reference.id value
  | parts, value => Reference.parts value

/-- A rule that finds references. -/
structure Extraction where
  /-- The name of the rule. -/
  name : String
  /-- Where the rule applies. -/
  context : Context
  /-- What it looks for. -/
  pattern : Capture
  /-- What it makes of it. -/
  reading : Reading

namespace Extraction

open Pattern

/-- A quotation mark. -/
def quote : Pattern := one fun c => c = '"' || c = '\''

/-- One or more characters other than quotation marks. -/
def unquoted : Pattern := oneOrMore fun c => !(c = '"' || c = '\'')

/-- Blanks, maybe none. -/
def blanks : Pattern := many isBlank

/-- A `.` or `#`. -/
def mark : Pattern := one Reference.isMark

/-- A class or id name. -/
def tokenName : Pattern := oneOrMore isNameChar

/-- A quoted text after `lead`. -/
def quoted (lead : Pattern) : Capture := ⟨seq lead quote, unquoted, quote⟩

/-- A quoted text after `lead` that begins with a mark and goes on. -/
def quotedMarked (lead : Pattern) : Capture := ⟨seq lead quote, seq mark unquoted, quote⟩

/-- The calls that change a class: on the list of classes, by a method of its own, or by
assignment. -/
def classChange : Pattern :=
  oneOf
    [ all [word "class", optional (word "List"), char '.',
        oneOf [word "add", word "remove", word "toggle", word "contains"]],
      all [oneOf [word "add", word "remove", word "toggle", word "has"], word "Class"],
      all [word "className", blanks, one fun c => c = '=' || c = ':'] ]

/-- The steps from one element to others. -/
def traversal : Pattern :=
  oneOf [word "find", word "filter", word "closest", word "parent", word "children", word "siblings",
    word "next", word "prev"]

/-- All rules, in order. -/
def rules : List Extraction :=
  [ ⟨"dotted-word", .markup, ⟨char '.', tokenName, empty⟩, .classNames⟩,
    ⟨"class-attribute", .markup, quoted (word "class="), .classNames⟩,
    ⟨"id-attribute", .markup, quoted (word "id="), .id⟩,
    ⟨"jquery", .script, quotedMarked (word "$("), .selector⟩,
    ⟨"traversal", .script, quotedMarked (all [char '.', traversal, char '(']), .selector⟩,
    ⟨"class-toggle", .script, quoted (all [classChange, optional (char '('), blanks]), .classNames⟩,
    ⟨"query-selector", .script,
      quoted (all [word "querySelector", optional (word "All"), char '(', blanks]), .selector⟩,
    ⟨"element-by-id", .script, quoted (all [word "getElementById(", blanks]), .id⟩,
    ⟨"elements-by-class", .script, quoted (all [word "getElementsByClassName(", blanks]), .classNames⟩,
    ⟨"config-key", .script,
      quotedMarked (all [oneOf [word "itemSelector", word "selector", word "filter", word "class"],
        blanks, char ':', blanks]), .selector⟩,
    ⟨"data-filter", .script, quoted (word "data-filter="), .markedSelector⟩,
    ⟨"selector-literal", .script,
      ⟨seq quote blanks, all [mark, tokenName, rounds (all [blanks, mark, tokenName])], seq blanks quote⟩, .parts⟩ ]

/-- The captured texts of a rule. -/
def captures (r : Extraction) (t : Text) : List Text := r.pattern.captures t

/-- The tokens that a rule finds. -/
def tokens (r : Extraction) (t : Text) : List Text := (r.captures t).flatMap r.reading.tokens

/-- The rules for a kind of text. -/
def rulesFor (context : Context) : List Extraction := rules.filter (·.context = context)

end Extraction

/-- The number of places where the rules for a kind of text match. -/
def Context.matches (context : Context) (t : Text) : Nat :=
  (Extraction.rulesFor context).foldl (fun n r => n + (r.captures t).length) 0

/-- The tokens that the rules for a kind of text find. -/
def Context.tokens (context : Context) (t : Text) : List Text :=
  (Extraction.rulesFor context).flatMap (·.tokens t)

end Cull
