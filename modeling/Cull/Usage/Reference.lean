import Cull.Selector.Token
import Cull.Text.Blank
import Cull.Usage.Basic

/-!
# The tokens of a reference

A reference is a piece of text that names classes, ids or elements: a bare
token, a selector, a list of class names, an id. Each kind of reference has its
list of tokens, which is what it adds to a usage set.
-/

namespace Cull

open Text

namespace Reference

/-- A mark that begins a class or id token. -/
def isMark (c : Char) : Bool := c = '.' || c = '#'

/-- The text begins with the mark of a class or an id. -/
def isMarked : Text → Bool
  | c :: _ => isMark c
  | [] => false

/-- A bare token, trimmed; a blank one is none. -/
def token (t : Text) : List Text := if (trim t).isEmpty then [] else [trim t]

/-- The class and id parts of a selector. -/
def parts (s : Text) : List Text := Selector.tokens s

/-- A selector as it is, and its class and id parts. -/
def selector (s : Text) : List Text := token s ++ parts s

/-- Class names between blanks; a value that begins with a mark is a selector. -/
def classNames (value : Text) : List Text :=
  let value := trim value
  if isMarked value then selector value else (words value).map ('.' :: ·)

/-- The name of an id. -/
def id (value : Text) : List Text :=
  let value := trim value
  if value.isEmpty then [] else ['#' :: value]

end Reference

namespace Usage

/-- Adds tokens one after the other. -/
def addAll (u : Usage) (tokens : List Text) : Usage := tokens.foldl insert u

@[simp]
theorem mem_addAll {u : Usage} {tokens : List Text} {t : Text} :
    t ∈ u.addAll tokens ↔ t ∈ u ∨ t ∈ tokens := by
  induction tokens generalizing u with
  | nil => simp [addAll]
  | cons a rest ih =>
    simp only [addAll, List.foldl_cons] at ih ⊢
    rw [ih, mem_insert]
    simp [or_assoc]

/-- The set that always keeps the given tokens. -/
def keeping (alwaysKeep : List Text) : Usage := empty.addAll (alwaysKeep.flatMap Reference.token)

end Usage

end Cull
