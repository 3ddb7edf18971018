import Cull.Selector.Compound
import Cull.Stylesheet.Basic
import Cull.Usage.Basic

/-!
# Which rules are referenced

A selector without class or id tokens is always referenced. A plain rule goes
only if each of its selectors names a class or id and none is referenced. A
group goes when all that is in it goes, and all of it could be read. Every
other at-rule stays.
-/

namespace Cull

open Text

/-- What is to become of a rule. -/
inductive Verdict where
  /-- The rule stays. -/
  | keep
  /-- The rule goes. -/
  | remove
  deriving DecidableEq

namespace Selector

/-- The selector is referenced: it names no class or id; or one of its tokens is in the set; or,
for a selector of several words, a token of its first word; or, for a chain with `>`, `+` or `~`,
a token of one of its compounds. -/
def isUsed (s : Text) (u : Usage) : Bool :=
  let all := tokens s
  let headUsed :=
    match words s with
    | head :: _ :: _ => u.containsAny (tokens head)
    | _ => false
  let parts := compounds s
  let structural := parts.any fun p => p.combinator.isSome && p.combinator != some .descendant
  all.isEmpty || u.containsAny all || headUsed ||
    (structural && parts.any fun p => u.containsAny (tokens p.text))

end Selector

namespace PlainRule

/-- The verdict on a plain rule: one referenced selector keeps it. -/
def verdict (r : PlainRule) (u : Usage) : Verdict :=
  if !r.selectors.any Selector.hasToken then .keep
  else if r.selectors.any (Selector.isUsed · u) then .keep
  else .remove

end PlainRule

namespace Rule

mutual

/-- The verdict on a rule. -/
def verdict (u : Usage) : Rule → Verdict
  | .plain r => r.verdict u
  | .atRule _ _ _ => .keep
  | .group _ _ _ _ children unparsed => if unparsed.isNone && allRemoved u children then .remove else .keep

/-- Every rule of a list goes. -/
def allRemoved (u : Usage) : List Rule → Bool
  | [] => true
  | r :: rest => verdict u r = .remove && allRemoved u rest

end

end Rule

end Cull
