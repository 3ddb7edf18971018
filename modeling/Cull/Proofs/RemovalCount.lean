import Cull.Proofs.CutText
import Cull.Proofs.Deletion

/-!
# How many rules go

Two recursions make up the count of a plan: the plan itself counts one by one what
goes inside a group that stays, and `weight` counts what goes along with a group
that goes. With a rule that goes, all rules inside it go (`goes_of_mem_nodes`), and
no at-rule that is kept whole is among them. So a rule that goes weighs as much as
rules go in it, and the count of a plan is the number of rules that go
(`count_planAll`). What a tree weighs is this number and what is left of the tree
weighs (`count_add_weightAll`).
-/

namespace Cull

namespace Rule

variable {u : Usage}

/-! ### Weights -/

/-- The rule is a plain rule or a group. -/
def isCounted : Rule → Bool
  | .plain _ => true
  | .atRule _ _ _ => false
  | .group _ _ _ _ _ _ => true

theorem weight_eq (r : Rule) : r.weight = weightAll r.children + if r.isCounted then 1 else 0 := by
  cases r with
  | plain r => rfl
  | atRule name span text => rfl
  | group name span text inner children unparsed =>
    rw [weight, Nat.add_comm]
    rfl

/-- Rules weigh as much as there are plain rules and groups among them and inside them. -/
theorem weightAll_eq_countP (rules : List Rule) : weightAll rules = (nodesAll rules).countP isCounted := by
  induction rules using children_induction with
  | nil => rfl
  | cons r rest ihchildren ih =>
    rw [weightAll, weight_eq, ihchildren, ih, nodesAll, nodes_eq, List.countP_append, List.countP_cons]

theorem weight_eq_countP (r : Rule) : r.weight = r.nodes.countP isCounted := by
  rw [weight_eq, weightAll_eq_countP, nodes_eq, List.countP_cons]

theorem weightAll_append (rules more : List Rule) : weightAll (rules ++ more) = weightAll rules + weightAll more := by
  induction rules with
  | nil => simp [weightAll]
  | cons r rules ih => rw [List.cons_append, weightAll, weightAll, ih, Nat.add_assoc]

/-! ### Rules that go -/

theorem isCounted_of_goes {r : Rule} (h : r.verdict u = .remove) : r.isCounted = true := by
  cases r with
  | plain r => rfl
  | atRule name span text =>
    rw [verdict] at h
    cases h
  | group name span text inner children unparsed => rfl

theorem allRemoved_children {r : Rule} (h : r.verdict u = .remove) : allRemoved u r.children = true := by
  cases r with
  | plain r => rfl
  | atRule name span text => rfl
  | group name span text inner children unparsed => exact (verdict_group_eq_remove_iff.1 h).2

theorem goes_of_mem_nodesAll {rules : List Rule} (h : allRemoved u rules = true) :
    ∀ n ∈ nodesAll rules, n.verdict u = .remove := by
  induction rules using children_induction with
  | nil => simp [nodesAll]
  | cons r rest ihchildren ih =>
    obtain ⟨hr, hrest⟩ := allRemoved_cons.1 h
    intro n hn
    rcases mem_nodesAll_cons.1 hn with rfl | hn | hn
    · exact hr
    · exact ihchildren (allRemoved_children hr) n hn
    · exact ih hrest n hn

/-- With a rule all rules inside it go. -/
theorem goes_of_mem_nodes {r n : Rule} (h : r.verdict u = .remove) (hn : n ∈ r.nodes) : n.verdict u = .remove := by
  rw [nodes_eq, List.mem_cons] at hn
  rcases hn with rfl | hn
  · exact h
  · exact goes_of_mem_nodesAll (allRemoved_children h) n hn

/-- A rule that goes weighs as much as rules go in it. -/
theorem weight_of_goes {r : Rule} (h : r.verdict u = .remove) : r.weight = r.nodes.countP (isRemoved u) := by
  rw [weight_eq_countP]
  refine List.countP_congr fun n hn => ?_
  have hgoes := goes_of_mem_nodes h hn
  exact iff_of_true (isCounted_of_goes hgoes) (isRemoved_iff.2 hgoes)

/-! ### The count of a plan -/

theorem planAll_cons_count (r : Rule) (rest : List Rule) :
    (planAll u (r :: rest)).count = (plan u r).count + (planAll u rest).count := by
  rw [planAll, Plan.append]

theorem plan_count (u : Usage) (r : Rule) :
    (plan u r).count = if r.verdict u = .remove then r.weight else (planAll u r.children).count := by
  rw [plan_eq]
  split <;> rfl

/-- Every rule that goes is counted once. -/
theorem count_planAll (u : Usage) (rules : List Rule) :
    (planAll u rules).count = (nodesAll rules).countP (isRemoved u) := by
  induction rules using children_induction with
  | nil => rfl
  | cons r rest ihchildren ih =>
    rw [planAll_cons_count, plan_count, nodesAll, List.countP_append, ih]
    by_cases hgoes : r.verdict u = .remove
    · rw [if_pos hgoes, weight_of_goes hgoes]
    · rw [if_neg hgoes, ihchildren, nodes_eq, List.countP_cons_of_neg (by rwa [isRemoved_iff])]

/-- The rules that go and are inside no group that goes. -/
def outermost (u : Usage) (outer rules : List Rule) : List Rule :=
  ((locatedAll outer rules).filter (isOutermost u)).map Prod.fst

/-- What is counted is what the outermost rules weigh. -/
theorem count_eq_weightAll_outermost {outer : List Rule} (rules : List Rule)
    (hkept : ∀ g ∈ outer, g.verdict u ≠ .remove) :
    (planAll u rules).count = weightAll (outermost u outer rules) := by
  induction rules using children_induction generalizing outer with
  | nil => rfl
  | cons r rest ihchildren ih =>
    rw [planAll_cons_count, ih hkept, plan_count, outermost, outermost, locatedAll, located_eq, List.filter_append,
      List.map_append, weightAll_append]
    by_cases h : r.verdict u = .remove
    · rw [if_pos h, List.filter_cons_of_pos ((isOutermost_iff hkept).2 h), filter_isOutermost_eq_nil (.head _) h,
        List.map_singleton, weightAll, weightAll, Nat.add_zero]
    · rw [if_neg h, List.filter_cons_of_neg (by rwa [isOutermost_iff hkept]),
        ihchildren (List.forall_mem_cons.2 ⟨h, hkept⟩), outermost]

theorem goes_of_mem_outermost {outer rules : List Rule} {r : Rule} (h : r ∈ outermost u outer rules) :
    r.verdict u = .remove := by
  obtain ⟨p, hp, rfl⟩ := List.mem_map.1 h
  have hout := (List.mem_filter.1 hp).2
  rw [isOutermost, Bool.and_eq_true, decide_eq_true_eq] at hout
  exact hout.1

/-! ### What is left -/

theorem isCounted_withChildren (children : List Rule) (r : Rule) : (r.withChildren children).isCounted = r.isCounted := by
  cases r <;> rfl

theorem children_withChildren_deleteAll (gone : Rule → Bool) (r : Rule) :
    (r.withChildren (deleteAll gone r.children)).children = deleteAll gone r.children := by
  cases r <;> rfl

/-- What is counted and what is left together weigh as much as all rules. -/
theorem count_add_weightAll (u : Usage) (rules : List Rule) :
    (planAll u rules).count + weightAll (deleteAll (isRemoved u) rules) = weightAll rules := by
  induction rules using children_induction with
  | nil => rfl
  | cons r rest ihchildren ih =>
    have hhead : (plan u r).count + weightAll (delete (isRemoved u) r) = r.weight := by
      rw [plan_count, delete_eq]
      by_cases hgoes : r.verdict u = .remove
      · rw [if_pos hgoes, if_pos (isRemoved_iff.2 hgoes), weightAll, Nat.add_zero]
      · rw [if_neg hgoes, if_neg (by rwa [isRemoved_iff]), weightAll, weightAll, weight_eq, weight_eq r,
          children_withChildren_deleteAll, isCounted_withChildren]
        omega
    rw [planAll_cons_count, deleteAll, weightAll_append, weightAll]
    omega

end Rule

namespace Level

open Rule

variable {u : Usage} {source : Text} {lo hi : Nat} {rules : List Rule} {unparsed : Option Span}

/-- A planned span covers a rule exactly if the rule goes. -/
theorem covers_iff_goes (h : Level source lo hi rules unparsed) (hselect : Selecting rules) {n : Rule}
    (hn : n ∈ nodesAll rules) : (planAll u rules).Covers n.span ↔ n.verdict u = .remove := by
  have hone : Selecting [n] := hselect.mono (by simpa [nodesAll] using nodes_subset_nodesAll hn)
  rw [h.covers_iff hselect n hn, verdict_eq_remove_iff hone]

end Level

namespace Stylesheet

open Rule

theorem covers_plan_iff {source : Text} (u : Usage) {n : Rule} (hn : n ∈ (parse source).nodes) :
    ((parse source).plan u).Covers n.span ↔ n.verdict u = .remove :=
  (wellFormed_parse source).covers_iff_goes (selecting_readRules 0 source) hn

/-- Nothing is counted exactly if no rule goes. -/
theorem count_eq_zero_iff_not_covers (source : Text) (u : Usage) :
    ((parse source).plan u).count = 0 ↔ ∀ n ∈ (parse source).nodes, ¬ ((parse source).plan u).Covers n.span := by
  have hcount : ((parse source).plan u).count = (parse source).nodes.countP (isRemoved u) := count_planAll u _
  rw [hcount, List.countP_eq_zero]
  refine forall₂_congr fun n hn => ?_
  rw [isRemoved_iff, covers_plan_iff u hn]

/-- Nothing is counted exactly if no span is planned. -/
theorem count_eq_zero_iff_removed (source : Text) (u : Usage) :
    ((parse source).plan u).count = 0 ↔ ((parse source).plan u).removed = [] := by
  constructor
  · intro hzero
    refine List.eq_nil_iff_forall_not_mem.2 fun s hs => ?_
    -- a planned span is the span of a rule, which it covers
    obtain ⟨n, hn, rfl⟩ := exists_node_of_mem_removed hs
    have hcovers : ((parse source).plan u).Covers n.span :=
      ⟨n.span, hs, Span.contains_iff.2 ⟨Nat.le_refl _, Nat.le_refl _⟩⟩
    exact (count_eq_zero_iff_not_covers source u).1 hzero n hn hcovers
  · intro hnil
    exact Decidable.not_not.1 fun hne => removed_ne_nil hne hnil

theorem prune_eq_unchanged_iff (source : Text) (u : Usage) :
    prune source u = .unchanged ↔ ((parse source).plan u).count = 0 := by
  rw [prune_eq]
  split
  · next hzero => exact iff_of_true rfl hzero
  · next hcount => exact iff_of_false (by simp) hcount

/-- A plan counts the plain rules and groups that it covers, at any depth; those and what is left make
up all. Counted is what the outermost rules weigh, and no at-rule that is kept whole is weighed with
them. Nothing is counted exactly if no span is planned, and a stylesheet is unchanged exactly if the
plan covers none of its rules. -/
theorem removal_count_exact (source : Text) (u : Usage) :
    ((parse source).plan u).count =
      (parse source).nodes.countP (fun n => n.isCounted && ((parse source).plan u).Covers n.span) ∧
    ((parse source).plan u).count + (nodesAll ((parse source).without ((parse source).plan u))).countP isCounted =
      (parse source).nodes.countP isCounted ∧
    ((parse source).plan u).count = weightAll (outermost u [] (parse source).rules) ∧
    (∀ n ∈ nodesAll (outermost u [] (parse source).rules), n.isCounted = true) ∧
    (((parse source).plan u).count = 0 ↔ ((parse source).plan u).removed = []) ∧
    (prune source u = .unchanged ↔ ∀ n ∈ (parse source).nodes, ¬ ((parse source).plan u).Covers n.span) := by
  refine ⟨?_, ?_, count_eq_weightAll_outermost _ (by simp), fun n hn => ?_, count_eq_zero_iff_removed source u, ?_⟩
  · refine (count_planAll u _).trans (List.countP_congr fun n hn => ?_)
    rw [isRemoved_iff, Bool.and_eq_true, decide_eq_true_eq, covers_plan_iff u hn]
    exact ⟨fun hgoes => ⟨isCounted_of_goes hgoes, hgoes⟩, And.right⟩
  · rw [without_plan, ← weightAll_eq_countP]
    exact (count_add_weightAll u _).trans (weightAll_eq_countP _)
  · obtain ⟨r, hr, hn⟩ := mem_nodesAll.1 hn
    exact isCounted_of_goes (goes_of_mem_nodes (goes_of_mem_outermost hr) hn)
  · rw [prune_eq_unchanged_iff, count_eq_zero_iff_not_covers]

end Stylesheet

end Cull
