import Cull.Markup.Token
import Cull.Text.Name

/-!
# Elements

An element has a name in one of three vocabularies, and attributes. Names of
attributes are compared without regard to the case of ASCII letters when an
attribute is looked up.
-/

namespace Cull.Markup

/-- The vocabulary of an element. -/
inductive Namespace where
  /-- Ordinary markup. -/
  | html
  /-- Graphics. -/
  | svg
  /-- Formulas. -/
  | math
  deriving DecidableEq

/-- The name of an element. -/
structure ElementName where
  /-- Its vocabulary. -/
  ns : Namespace
  /-- Its name in that vocabulary. -/
  tag : String
  deriving DecidableEq

/-- An element. -/
structure Element where
  /-- Its name. -/
  name : ElementName
  /-- Its attributes, in order. -/
  attributes : List Attribute
  deriving DecidableEq

/-- The value of the first attribute of the given name, in any case. -/
def Element.attribute? (e : Element) (name : String) : Option Text :=
  (e.attributes.find? fun a => Text.sameIgnoringCase a.name.toList name.toList).map (·.value)

/-- The element with those of the given attributes that it does not have. -/
def Element.addMissing (e : Element) (attributes : List Attribute) : Element :=
  { e with attributes := attributes.foldl (fun known a =>
      if known.any (·.name = a.name) then known else known ++ [a]) e.attributes }

end Cull.Markup
