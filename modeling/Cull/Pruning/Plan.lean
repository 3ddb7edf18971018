import Cull.Pruning.Verdict

/-!
# Plans

A plan lists the spans to cut out of a stylesheet, and how many rules go with
them. A rule inside a group that goes as a whole is not listed, but counted.
-/

namespace Cull

/-- What to cut out of a stylesheet. -/
structure Plan where
  /-- The spans of the outermost rules that go, in order. -/
  removed : List Span
  /-- The number of plain rules and groups that go. -/
  count : Nat
  deriving DecidableEq

namespace Plan

/-- Nothing is to go. -/
def none : Plan := ⟨[], 0⟩

/-- One plan after the other. -/
def append (p q : Plan) : Plan := ⟨p.removed ++ q.removed, p.count + q.count⟩

/-- The plan changes nothing. -/
def isEmpty (p : Plan) : Bool := p.count = 0

end Plan

namespace Rule

mutual

/-- The number of plain rules and groups that a rule consists of, itself included. -/
def weight : Rule → Nat
  | .plain _ => 1
  | .atRule _ _ _ => 0
  | .group _ _ _ _ children _ => 1 + weightAll children

/-- The weight of a list of rules. -/
def weightAll : List Rule → Nat
  | [] => 0
  | r :: rest => weight r + weightAll rest

end

mutual

/-- The plan for one rule: all of it if it goes, otherwise what goes inside it. -/
def plan (u : Usage) : Rule → Plan
  | .plain r => if r.verdict u = .remove then ⟨[r.span], 1⟩ else .none
  | .atRule _ _ _ => .none
  | .group name span text inner children unparsed =>
    if verdict u (.group name span text inner children unparsed) = .remove then
      ⟨[span], 1 + weightAll children⟩
    else planAll u children

/-- The plan for a list of rules. -/
def planAll (u : Usage) : List Rule → Plan
  | [] => .none
  | r :: rest => (plan u r).append (planAll u rest)

end

end Rule

/-- The plan for a stylesheet. -/
def Stylesheet.plan (s : Stylesheet) (u : Usage) : Plan := Rule.planAll u s.rules

end Cull
