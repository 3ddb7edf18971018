import Cull.Text.Basic

/-!
# ASCII letters, digits and names

The names of classes and ids are runs of ASCII letters, digits, underscores
and hyphens. Case is folded for ASCII letters only.
-/

namespace Cull

namespace Text

/-- A character of a class or id name. -/
def isNameChar (c : Char) : Bool := c.isAlphanum || c = '_' || c = '-'

/-- The text with its ASCII capitals in lower case. -/
def toLower (t : Text) : Text := t.map Char.toLower

/-- The two texts differ at most in the case of ASCII letters. -/
def sameIgnoringCase (s t : Text) : Bool := toLower s == toLower t

end Text

end Cull
