import Cull.Proofs.PlanExact

/-!
# Trees with rules deleted

A plan names the rules that go by their spans. Deleting them from the tree takes
each of them out with all that is inside it, and leaves the others in their order
and with their nesting. Spans do not repeat in a tree, so a rule that is reached
has a planned span exactly if it is to go: deleting the planned rules is deleting
rules by their verdicts, from the top of the tree down (`deleteAll_planned`).

The skeleton of a rule is what is to be seen of it apart from its text: its kind,
the name of an at-rule, the tokens of each selector, and what is inside.
-/

namespace Cull

open Text

/-- A rule without its place and its text. -/
inductive Skeleton where
  /-- A plain rule, with the tokens of each selector. -/
  | plain (selectors : List (List Text))
  /-- An at-rule that is kept whole. -/
  | atRule (name : Text)
  /-- A group, with what is inside it. -/
  | group (name : Text) (inside : List Skeleton)

namespace Rule

variable {u : Usage}

mutual

/-- The skeleton of a rule. -/
def skeleton : Rule → Skeleton
  | .plain r => .plain (r.selectors.map Selector.tokens)
  | .atRule name _ _ => .atRule name
  | .group name _ _ _ children _ => .group name (skeletonAll children)

/-- The skeletons of a list of rules. -/
def skeletonAll : List Rule → List Skeleton
  | [] => []
  | r :: rest => skeleton r :: skeletonAll rest

end

theorem skeletonAll_append (rules more : List Rule) :
    skeletonAll (rules ++ more) = skeletonAll rules ++ skeletonAll more := by
  induction rules with
  | nil => simp [skeletonAll]
  | cons r rules ih => simp [skeletonAll, ih]

/-- The rule with other rules inside it, if it is a group. -/
def withChildren (children : List Rule) : Rule → Rule
  | .group name span text inner _ unparsed => .group name span text inner children unparsed
  | r => r

mutual

/-- What a rule leaves when the rules that are `gone` are taken out, each with all that is inside it. -/
def delete (gone : Rule → Bool) : Rule → List Rule
  | .plain r => if gone (.plain r) then [] else [.plain r]
  | .atRule name span text => if gone (.atRule name span text) then [] else [.atRule name span text]
  | .group name span text inner children unparsed =>
    if gone (.group name span text inner children unparsed) then []
    else [.group name span text inner (deleteAll gone children) unparsed]

/-- What a list of rules leaves. -/
def deleteAll (gone : Rule → Bool) : List Rule → List Rule
  | [] => []
  | r :: rest => delete gone r ++ deleteAll gone rest

end

theorem delete_eq (gone : Rule → Bool) (r : Rule) :
    delete gone r = if gone r then [] else [r.withChildren (deleteAll gone r.children)] := by
  cases r <;> rw [delete] <;> rfl

theorem deleteAll_append (gone : Rule → Bool) (rules more : List Rule) :
    deleteAll gone (rules ++ more) = deleteAll gone rules ++ deleteAll gone more := by
  induction rules with
  | nil => simp [deleteAll]
  | cons r rules ih => simp [deleteAll, ih]

/-- The rule is to go. -/
def isRemoved (u : Usage) (r : Rule) : Bool := r.verdict u = .remove

theorem isRemoved_iff {r : Rule} : r.isRemoved u = true ↔ r.verdict u = .remove := decide_eq_true_iff

end Rule

/-! ### Planned rules -/

namespace Level

open Rule

variable {u : Usage} {source : Text} {lo hi : Nat} {r : Rule} {rules rest : List Rule} {unparsed : Option Span}

/-- The first rule of a level is planned exactly if it is to go: no span behind it or inside it is the same. -/
theorem mem_removed_head (h : Level source lo hi (r :: rest) unparsed) :
    r.span ∈ (planAll u (r :: rest)).removed ↔ r.verdict u = .remove := by
  have hhead := h.head_inside
  rw [planAll_cons_removed, List.mem_append, plan_removed]
  constructor
  · rintro (hmem | hmem)
    · split at hmem
      · next hgoes => exact hgoes
      · have := h.children.removed_inside hmem
        omega
    · have := h.tail.removed_inside hmem
      omega
  · intro hgoes
    rw [if_pos hgoes]
    exact .inl (.head _)

theorem mem_removed_children (h : Level source lo hi (r :: rest) unparsed) (hstays : r.verdict u ≠ .remove) {n : Rule}
    (hn : n ∈ nodesAll r.children) :
    n.span ∈ (planAll u (r :: rest)).removed ↔ n.span ∈ (planAll u r.children).removed := by
  rw [planAll_cons_removed, List.mem_append, plan_removed, if_neg hstays, or_iff_left]
  intro hmem
  have hn := h.children.node_inside hn
  have hmem := h.tail.removed_inside hmem
  omega

theorem mem_removed_tail (h : Level source lo hi (r :: rest) unparsed) {n : Rule} (hn : n ∈ nodesAll rest) :
    n.span ∈ (planAll u (r :: rest)).removed ↔ n.span ∈ (planAll u rest).removed := by
  rw [planAll_cons_removed, List.mem_append, or_iff_right]
  intro hmem
  have hn := h.tail.node_inside hn
  have hmem := h.plan_inside hmem
  omega

/-- Deleting the rules whose spans are planned is deleting the rules that are to go. -/
theorem deleteAll_planned (h : Level source lo hi rules unparsed) {gone : Rule → Bool}
    (hgone : ∀ n ∈ nodesAll rules, gone n = true ↔ n.span ∈ (planAll u rules).removed) :
    deleteAll gone rules = deleteAll (isRemoved u) rules := by
  induction rules using children_induction generalizing lo hi unparsed with
  | nil => rw [deleteAll, deleteAll]
  | cons r rest ihchildren ih =>
    have hhead : gone r = r.isRemoved u := by
      rw [Bool.eq_iff_iff, hgone r (mem_nodesAll_cons.2 (.inl rfl)), h.mem_removed_head, isRemoved_iff]
    have htail : deleteAll gone rest = deleteAll (isRemoved u) rest := by
      refine ih h.tail fun n hn => ?_
      rw [hgone n (mem_nodesAll_cons.2 (.inr (.inr hn))), h.mem_removed_tail hn]
    rw [deleteAll, deleteAll, delete_eq, delete_eq, hhead, htail]
    split
    · rfl
    · next hstays =>
      -- below a rule that stays, what is planned is what is planned inside it
      rw [isRemoved_iff] at hstays
      rw [ihchildren h.children fun n hn => ?_]
      rw [hgone n (mem_nodesAll_cons.2 (.inr (.inl hn))), h.mem_removed_children hstays hn]

end Level

/-- The rules of the stylesheet without those that the plan names. -/
def Stylesheet.without (s : Stylesheet) (p : Plan) : List Rule :=
  Rule.deleteAll (fun n => p.removed.contains n.span) s.rules

theorem Stylesheet.without_plan (css : Text) (u : Usage) :
    (parse css).without ((parse css).plan u) = Rule.deleteAll (Rule.isRemoved u) (parse css).rules :=
  (wellFormed_parse css).deleteAll_planned fun _ _ => List.contains_iff_mem

end Cull
