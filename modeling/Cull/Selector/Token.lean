import Cull.Text.Name

/-!
# Class and id tokens of a selector

A token is a `.` or `#` with the name that follows it. What stands in
attribute brackets is passed over, so that a dot inside an attribute value is
no class.
-/

namespace Cull.Selector

open Text

/-- Cuts an attribute after its closing bracket; the text begins after the opening one. `quote` is
the quotation mark that is open, if any; inside quotes a backslash takes the next character with
it, and a bracket closes nothing. An attribute that is not closed takes all of the text. -/
def splitAttribute (quote : Option Char) : Text → Text × Text
  | [] => ([], [])
  | c :: t =>
    match quote with
    | some q =>
      if c = '\\' then
        match t with
        | [] => ([c], [])
        | d :: t =>
          let (a, rest) := splitAttribute (some q) t
          (c :: d :: a, rest)
      else
        let (a, rest) := splitAttribute (if c = q then none else some q) t
        (c :: a, rest)
    | none =>
      if c = ']' then ([c], t)
      else
        let (a, rest) := splitAttribute (if c = '"' || c = '\'' then some c else none) t
        (c :: a, rest)

theorem splitAttribute_append (quote : Option Char) (t : Text) :
    (splitAttribute quote t).1 ++ (splitAttribute quote t).2 = t := by
  fun_induction splitAttribute quote t <;> simp_all

theorem length_splitAttribute_le (quote : Option Char) (t : Text) :
    (splitAttribute quote t).2.length ≤ t.length := by
  have := congrArg List.length (splitAttribute_append quote t)
  simp at this
  omega

/-- Every class and id token of a selector, with its mark, in order. -/
def tokens : Text → List Text
  | [] => []
  | c :: t =>
    if c = '[' then
      have := length_splitAttribute_le none t
      tokens (splitAttribute none t).2
    else if c = '.' || c = '#' then
      have := (List.dropWhile_sublist (l := t) isNameChar).length_le
      let name := t.takeWhile isNameChar
      let rest := tokens (t.dropWhile isNameChar)
      if name.isEmpty then rest else (c :: name) :: rest
    else tokens t
  termination_by t => t.length
  decreasing_by all_goals simp_wf; try omega

/-- The selector names a class or an id. -/
def hasToken (s : Text) : Bool := !(tokens s).isEmpty

end Cull.Selector
