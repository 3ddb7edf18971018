import Cull.Selector.Token
import Cull.Text.Blank

/-!
# Compounds of a selector

A selector is a chain of compounds. Blanks and the marks `>`, `+` and `~`
separate them, unless they stand in attribute brackets or in parentheses.
-/

namespace Cull.Selector

open Text

/-- How a compound is tied to the one before it. -/
inductive Combinator where
  /-- A blank: somewhere below. -/
  | descendant
  /-- `>`: directly below. -/
  | child
  /-- `+`: the next sibling. -/
  | adjacent
  /-- `~`: a later sibling. -/
  | sibling
  deriving DecidableEq

/-- The combinator that a mark stands for. -/
def Combinator.ofMark? (c : Char) : Option Combinator :=
  if c = '>' then some child
  else if c = '+' then some adjacent
  else if c = '~' then some sibling
  else none

/-- The character separates compounds when it stands outside brackets and parentheses. -/
def isSeparator (c : Char) : Bool := isAsciiBlank c || (Combinator.ofMark? c).isSome

/-- A compound and how it is tied to the one before it; the first compound is tied to nothing. -/
structure Compound where
  /-- The tie to the compound before. -/
  combinator : Option Combinator
  /-- The text of the compound. -/
  text : Text
  deriving DecidableEq

/-- The parenthesis depth after a character. -/
def depthAfter (depth : Nat) (c : Char) : Nat :=
  if c = '(' then depth + 1 else if c = ')' then depth - 1 else depth

/-- The compounds of the rest of a selector. `tie` is the combinator of the next compound to be
closed (`none` before the first), `depth` the number of open parentheses and `current` the part of
the open compound that has been read, empty if none is open. -/
def compoundsFrom (tie : Option Combinator) (depth : Nat) (current : Text) : Text → List Compound
  | [] => if current.isEmpty then [] else [⟨tie, current⟩]
  | c :: t =>
    if c = '[' then
      have := length_splitAttribute_le none t
      compoundsFrom tie depth (current ++ c :: (splitAttribute none t).1) (splitAttribute none t).2
    else
      let depth := depthAfter depth c
      if depth = 0 && isSeparator c then
        if current.isEmpty then
          -- a mark in front of the first compound ties nothing
          compoundsFrom (tie.map fun d => (Combinator.ofMark? c).getD d) depth [] t
        else
          ⟨tie, current⟩ :: compoundsFrom (some ((Combinator.ofMark? c).getD .descendant)) depth [] t
      else compoundsFrom tie depth (current ++ [c]) t
  termination_by t => t.length
  decreasing_by all_goals simp_wf; try omega

/-- The compounds of a selector, in order. -/
def compounds (s : Text) : List Compound := compoundsFrom none 0 [] s

end Cull.Selector
