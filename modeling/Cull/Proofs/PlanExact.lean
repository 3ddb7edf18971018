import Cull.Proofs.SelectorTokens
import Cull.Proofs.Tree
import Cull.Pruning.Plan

/-!
# What a plan removes

Two recursions decide what goes: the verdict on a rule, which looks into groups,
and the plan, which descends into the groups that stay. `Rule.Idle` says of one
rule that nothing in it, apart from the rules inside it, makes it stay. A rule
goes exactly if all rules of its subtree are idle, and exactly then one of the
planned spans covers it (`covers_iff`). The planned spans stand in order, one
behind the other (`removed_ordered`), and they are the spans of the rules that go
and are inside no group that goes (`removed_eq_outermost`).
-/

namespace Cull

/-! ### The criterion -/

/-- Every selector of the rule names a class or an id, and none of them is in the set. -/
def PlainRule.Unreferenced (r : PlainRule) (u : Usage) : Prop :=
  ∀ s ∈ r.selectors, Selector.tokens s ≠ [] ∧ ∀ t ∈ Selector.tokens s, t ∉ u

theorem PlainRule.verdict_eq_remove_iff {r : PlainRule} {u : Usage} (hne : r.selectors ≠ []) :
    r.verdict u = .remove ↔ r.Unreferenced u := by
  have hused : r.selectors.any (Selector.isUsed · u) = false ↔ r.Unreferenced u := by
    simp only [List.any_eq_false, Selector.isUsed_iff, not_or, not_exists, not_and, Unreferenced]
  rw [← hused, verdict]
  constructor
  · intro h
    split at h
    · cases h
    · split at h
      · cases h
      · next hnot => simpa using hnot
  · intro h
    -- the first selector has a token, as it is not referenced
    obtain ⟨s, rest, hs⟩ := List.exists_cons_of_ne_nil hne
    have htoken := (hused.1 h s (hs ▸ .head _)).1
    have hany : r.selectors.any Selector.hasToken = true := by
      rw [List.any_eq_true]
      exact ⟨s, hs ▸ .head _, by simpa [Selector.hasToken] using htoken⟩
    simp [h, hany]

namespace Rule

variable {u : Usage}

/-- Nothing in the rule makes it stay, whatever the rules inside it do. -/
def Idle (u : Usage) : Rule → Prop
  | .plain r => r.Unreferenced u
  | .atRule _ _ _ => False
  | .group _ _ _ _ _ unparsed => unparsed = none

theorem allRemoved_cons {r : Rule} {rest : List Rule} :
    allRemoved u (r :: rest) = true ↔ r.verdict u = .remove ∧ allRemoved u rest = true := by
  rw [allRemoved, Bool.and_eq_true, decide_eq_true_eq]

theorem verdict_group_eq_remove_iff {name text : Text} {span inner : Span} {children : List Rule}
    {unparsed : Option Span} : verdict u (.group name span text inner children unparsed) = .remove ↔
      unparsed = none ∧ allRemoved u children = true := by
  rw [verdict]
  split
  · next h => simpa using h
  · next h => simpa using h

/-- Every plain rule has a selector. -/
def Selecting (rules : List Rule) : Prop := ∀ r, .plain r ∈ nodesAll rules → r.selectors ≠ []

theorem Selecting.mono {rules more : List Rule} (h : Selecting more) (hsub : nodesAll rules ⊆ nodesAll more) :
    Selecting rules :=
  fun q hq => h q (hsub hq)

theorem Selecting.tail {r : Rule} {rest : List Rule} (h : Selecting (r :: rest)) : Selecting rest :=
  h.mono (by simp [nodesAll])

theorem Selecting.children {r : Rule} {rest : List Rule} (h : Selecting (r :: rest)) : Selecting r.children :=
  h.mono fun _ hn => mem_nodesAll_cons.2 (.inr (.inl hn))

/-- All rules of a list go exactly if there are only idle ones among them and inside them. -/
theorem allRemoved_iff {rules : List Rule} (h : Selecting rules) :
    allRemoved u rules = true ↔ ∀ n ∈ nodesAll rules, n.Idle u := by
  induction rules using forest_induction with
  | nil => simp [allRemoved, nodesAll]
  | plain r rest ih =>
    have hne := h r (by simp [nodesAll, nodes])
    rw [allRemoved_cons, ih h.tail, verdict, PlainRule.verdict_eq_remove_iff hne, nodesAll, nodes, List.singleton_append,
      List.forall_mem_cons, Idle]
  | atRule name span text rest ih =>
    rw [allRemoved_cons, verdict, nodesAll, nodes, List.singleton_append, List.forall_mem_cons, Idle]
    simp
  | group name span text inner children unparsed rest ihchildren ih =>
    rw [allRemoved_cons, verdict_group_eq_remove_iff, ihchildren h.children, ih h.tail, nodesAll, nodes, List.cons_append,
      List.forall_mem_cons, List.forall_mem_append, Idle, and_assoc]

/-- A rule goes exactly if there are only idle rules in its subtree. -/
theorem verdict_eq_remove_iff {r : Rule} (h : Selecting [r]) : r.verdict u = .remove ↔ ∀ n ∈ r.nodes, n.Idle u := by
  have hall := allRemoved_iff (u := u) h
  rw [allRemoved_cons, nodesAll, nodesAll, List.append_nil] at hall
  simpa [allRemoved] using hall

end Rule

namespace Stylesheet

open Rule

theorem selectors_ne_nil {pos : Nat} {header body : Text} {r : PlainRule} (h : plainRule? pos header body = some r) :
    r.selectors ≠ [] := by
  have hsplit := Selector.head?_splitOn (· = ',') (Text.trim header)
  unfold plainRule? at h
  split at h
  · cases h
  · simp only [Option.some.injEq] at h
    subst h
    intro hnil
    rw [List.map_eq_nil_iff] at hnil
    simp [hnil] at hsplit

/-- Every plain rule that is read has a selector. -/
theorem selecting_readRules (pos : Nat) (t : Text) : Selecting (readRules pos t).1 := by
  intro r hr
  obtain ⟨pos, t, c, rest, -, hr⟩ := exists_construct_of_mem_nodesAll hr
  obtain ⟨header, body, -, hr⟩ := Construct.eq_plain_of_plain_mem hr
  exact selectors_ne_nil hr

end Stylesheet

/-! ### Planned spans -/

/-- One of the planned spans covers the span. -/
def Plan.Covers (p : Plan) (s : Span) : Prop := ∃ r ∈ p.removed, r.contains s = true

instance (p : Plan) (s : Span) : Decidable (p.Covers s) :=
  inferInstanceAs (Decidable (∃ r ∈ p.removed, r.contains s = true))

theorem Plan.covers_append {p q : Plan} {s : Span} : (p.append q).Covers s ↔ p.Covers s ∨ q.Covers s := by
  simp [Covers, append, or_and_right, exists_or]

namespace Rule

variable {u : Usage}

mutual

/-- A rule and the rules inside it, each with the groups around it, the innermost first. -/
def located (outer : List Rule) : Rule → List (Rule × List Rule)
  | .plain r => [(.plain r, outer)]
  | .atRule name span text => [(.atRule name span text, outer)]
  | .group name span text inner children unparsed =>
    (.group name span text inner children unparsed, outer) ::
      locatedAll (.group name span text inner children unparsed :: outer) children

/-- The rules of a list and the rules inside them, each with the groups around it. -/
def locatedAll (outer : List Rule) : List Rule → List (Rule × List Rule)
  | [] => []
  | r :: rest => located outer r ++ locatedAll outer rest

end

theorem located_eq (outer : List Rule) (r : Rule) :
    located outer r = (r, outer) :: locatedAll (r :: outer) r.children := by
  cases r <;> simp [located, children, locatedAll]

/-- The rule goes, and none of the groups around it does. -/
def isOutermost (u : Usage) (p : Rule × List Rule) : Bool :=
  p.1.verdict u = .remove && p.2.all fun g => g.verdict u ≠ .remove

theorem map_fst_locatedAll (outer rules : List Rule) : (locatedAll outer rules).map Prod.fst = nodesAll rules := by
  induction rules using children_induction generalizing outer with
  | nil => rfl
  | cons r rest ihchildren ih => simp [locatedAll, located_eq, nodesAll, nodes_eq, ihchildren, ih]

/-- The groups around a list of rules are around every rule in it. -/
theorem outer_subset_of_mem_locatedAll {outer rules : List Rule} {p : Rule × List Rule}
    (h : p ∈ locatedAll outer rules) : outer ⊆ p.2 := by
  induction rules using children_induction generalizing outer with
  | nil => simp [locatedAll] at h
  | cons r rest ihchildren ih =>
    rw [locatedAll, located_eq, List.cons_append, List.mem_cons, List.mem_append] at h
    rcases h with rfl | h | h
    · exact fun g hg => hg
    · exact fun g hg => ihchildren h (.tail _ hg)
    · exact ih h

/-- Inside a group that goes, no rule is outermost. -/
theorem filter_isOutermost_eq_nil {outer rules : List Rule} {g : Rule} (hg : g ∈ outer)
    (hgoes : g.verdict u = .remove) : (locatedAll outer rules).filter (isOutermost u) = [] := by
  rw [List.filter_eq_nil_iff]
  intro p hp hout
  simp only [isOutermost, Bool.and_eq_true, List.all_eq_true, decide_eq_true_eq] at hout
  exact hout.2 g (outer_subset_of_mem_locatedAll hp hg) hgoes

theorem isOutermost_iff {r : Rule} {outer : List Rule} (hkept : ∀ g ∈ outer, g.verdict u ≠ .remove) :
    isOutermost u (r, outer) = true ↔ r.verdict u = .remove := by
  simp only [isOutermost, Bool.and_eq_true, List.all_eq_true, decide_eq_true_eq, and_iff_left_iff_imp]
  exact fun _ => hkept

theorem planAll_cons_removed (r : Rule) (rest : List Rule) :
    (planAll u (r :: rest)).removed = (plan u r).removed ++ (planAll u rest).removed := by
  rw [planAll, Plan.append]

/-- What is planned for a rule: all of it if it goes, and else what is planned inside it. -/
theorem plan_eq (u : Usage) (r : Rule) :
    plan u r = if r.verdict u = .remove then ⟨[r.span], r.weight⟩ else planAll u r.children := by
  cases r with
  | plain r =>
    rw [plan, verdict, weight]
    rfl
  | atRule name span text =>
    rw [plan, verdict]
    rfl
  | group name span text inner children unparsed =>
    rw [plan, weight]
    rfl

theorem plan_removed (u : Usage) (r : Rule) :
    (plan u r).removed = if r.verdict u = .remove then [r.span] else (planAll u r.children).removed := by
  rw [plan_eq]
  split <;> rfl

/-- The planned spans are the spans of the outermost rules that go. -/
theorem removed_eq_outermost {outer : List Rule} (rules : List Rule) (hkept : ∀ g ∈ outer, g.verdict u ≠ .remove) :
    (planAll u rules).removed = ((locatedAll outer rules).filter (isOutermost u)).map fun p => p.1.span := by
  induction rules using children_induction generalizing outer with
  | nil => rfl
  | cons r rest ihchildren ih =>
    rw [planAll_cons_removed, ih hkept, locatedAll, located_eq, List.filter_append, List.map_append, plan_removed]
    by_cases h : r.verdict u = .remove
    · rw [if_pos h, List.filter_cons_of_pos ((isOutermost_iff hkept).2 h), filter_isOutermost_eq_nil (.head _) h]
      rfl
    · rw [if_neg h, List.filter_cons_of_neg (by rwa [isOutermost_iff hkept]),
        ihchildren (List.forall_mem_cons.2 ⟨h, hkept⟩)]

/-- Every planned span is the span of a rule. -/
theorem exists_node_of_mem_removed {rules : List Rule} {s : Span} (h : s ∈ (planAll u rules).removed) :
    ∃ n ∈ nodesAll rules, n.span = s := by
  have hnone : ∀ g ∈ ([] : List Rule), g.verdict u ≠ .remove := by simp
  rw [removed_eq_outermost rules hnone] at h
  obtain ⟨p, hp, rfl⟩ := List.mem_map.1 h
  rw [← map_fst_locatedAll []]
  exact ⟨p.1, List.mem_map_of_mem (List.mem_filter.1 hp).1, rfl⟩

end Rule

/-! ### Planned spans in their places -/

namespace Level

open Rule

variable {u : Usage} {source : Text} {lo hi : Nat} {r : Rule} {rules rest : List Rule} {unparsed : Option Span}

theorem removed_inside (h : Level source lo hi rules unparsed) {s : Span} (hs : s ∈ (planAll u rules).removed) :
    lo ≤ s.start ∧ s.start < s.stop ∧ s.stop ≤ hi := by
  obtain ⟨n, hn, rfl⟩ := exists_node_of_mem_removed hs
  exact h.node_inside hn

theorem plan_inside (h : Level source lo hi (r :: rest) unparsed) {s : Span} (hs : s ∈ (plan u r).removed) :
    r.span.start ≤ s.start ∧ s.start < s.stop ∧ s.stop ≤ r.span.stop := by
  have hone : s ∈ (planAll u [r]).removed := by
    rw [planAll_cons_removed]
    exact List.mem_append_left _ hs
  obtain ⟨n, hn, rfl⟩ := exists_node_of_mem_removed hone
  rw [nodesAll, nodesAll, List.append_nil] at hn
  exact h.subtree_inside hn

/-- If what is planned for a rule is in order, and what is planned for the rules behind it, all is. -/
theorem removed_ordered_cons (h : Level source lo hi (r :: rest) unparsed)
    (hhead : (plan u r).removed.Pairwise fun s t => s.start < t.start ∧ s.stop ≤ t.start)
    (htail : (planAll u rest).removed.Pairwise fun s t => s.start < t.start ∧ s.stop ≤ t.start) :
    (planAll u (r :: rest)).removed.Pairwise fun s t => s.start < t.start ∧ s.stop ≤ t.start := by
  rw [planAll_cons_removed, List.pairwise_append]
  refine ⟨hhead, htail, fun s hs t ht => ?_⟩
  have hs := h.plan_inside hs
  have ht := h.tail.removed_inside ht
  omega

/-- The planned spans stand one behind the other. -/
theorem removed_ordered (h : Level source lo hi rules unparsed) :
    (planAll u rules).removed.Pairwise fun s t => s.start < t.start ∧ s.stop ≤ t.start := by
  induction rules using children_induction generalizing lo hi unparsed with
  | nil => exact .nil
  | cons r rest ihchildren ih =>
    refine h.removed_ordered_cons ?_ (ih h.tail)
    rw [plan_removed]
    split
    · exact List.pairwise_singleton _ _
    · exact ihchildren h.children

/-- What is planned for one rule covers nothing behind the rule, and what is planned for the rules
behind it covers nothing in the rule. -/
theorem covers_cons (h : Level source lo hi (r :: rest) unparsed) {P : Rule → Prop}
    (hhead : ∀ n ∈ r.nodes, (plan u r).Covers n.span ↔ P n)
    (htail : ∀ n ∈ nodesAll rest, (planAll u rest).Covers n.span ↔ P n) :
    ∀ n ∈ nodesAll (r :: rest), (planAll u (r :: rest)).Covers n.span ↔ P n := by
  intro n hn
  rw [planAll, Plan.covers_append]
  rw [nodesAll, List.mem_append] at hn
  rcases hn with hn | hn
  · have hnot : ¬ (planAll u rest).Covers n.span := by
      rintro ⟨s, hs, hcontains⟩
      have hs := h.tail.removed_inside hs
      have hn := h.subtree_inside hn
      rw [Span.contains_iff] at hcontains
      omega
    rw [or_iff_left hnot]
    exact hhead n hn
  · have hnot : ¬ (plan u r).Covers n.span := by
      rintro ⟨s, hs, hcontains⟩
      have hs := h.plan_inside hs
      have hn := h.tail.node_inside hn
      rw [Span.contains_iff] at hcontains
      omega
    rw [or_iff_right hnot]
    exact htail n hn

theorem covers_plan_of_goes {s : Span} (hgoes : r.verdict u = .remove) :
    (plan u r).Covers s ↔ r.span.contains s = true := by
  simp [Plan.Covers, plan_removed, hgoes]

theorem covers_plan_of_stays {s : Span} (hstays : r.verdict u ≠ .remove) :
    (plan u r).Covers s ↔ (planAll u r.children).Covers s := by
  rw [Plan.Covers, plan_removed, if_neg hstays, Plan.Covers]

/-- A planned span covers a rule exactly if there are only idle rules in the subtree of the rule. -/
theorem covers_iff (h : Level source lo hi rules unparsed) (hselect : Selecting rules) :
    ∀ n ∈ nodesAll rules, (planAll u rules).Covers n.span ↔ ∀ m ∈ n.nodes, m.Idle u := by
  induction rules using children_induction generalizing lo hi unparsed with
  | nil => simp [nodesAll]
  | cons r rest ihchildren ih =>
    refine h.covers_cons (fun n hn => ?_) (ih h.tail hselect.tail)
    have hverdict : r.verdict u = .remove ↔ ∀ m ∈ r.nodes, m.Idle u :=
      verdict_eq_remove_iff (hselect.mono (by simp [nodesAll]))
    by_cases hgoes : r.verdict u = .remove
    · -- the rule goes, and all that is in it with it
      have hinside := h.subtree_inside hn
      rw [covers_plan_of_goes hgoes]
      exact iff_of_true (Span.contains_iff.2 ⟨hinside.1, hinside.2.2⟩) fun m hm =>
        hverdict.1 hgoes m (nodes_subset_nodes hn hm)
    · rw [covers_plan_of_stays hgoes]
      rw [nodes_eq, List.mem_cons] at hn
      rcases hn with rfl | hn
      · refine iff_of_false ?_ (mt hverdict.2 hgoes)
        -- what is planned inside the rule begins behind its start
        rintro ⟨s, hs, hcontains⟩
        have hs := h.children.removed_inside hs
        have hstart := (Span.contains_iff.1 hcontains).1
        omega
      · exact ihchildren h.children hselect.children n hn

end Level

namespace Stylesheet

/-- All rules of a stylesheet, each with the groups around it, the innermost first. -/
def located (s : Stylesheet) : List (Rule × List Rule) := Rule.locatedAll [] s.rules

/-- A plain rule is covered by the plan exactly if each of its selectors has a token and none has one
that is in the set, a group exactly if nothing inside it stays; and the plan lists, in order and
without overlap, the rules that go and are inside no group that goes. -/
theorem plan_removes_exactly (source : Text) (u : Usage) :
    (∀ r, .plain r ∈ (parse source).nodes → (((parse source).plan u).Covers r.span ↔ r.Unreferenced u)) ∧
    (∀ name span text inner children unparsed,
      .group name span text inner children unparsed ∈ (parse source).nodes →
        (((parse source).plan u).Covers span ↔ unparsed = none ∧ ∀ n ∈ Rule.nodesAll children, n.Idle u)) ∧
    ((parse source).plan u).removed.Pairwise (fun s t => s.start < t.start ∧ s.stop ≤ t.start) ∧
    ((parse source).plan u).removed =
      ((parse source).located.filter (Rule.isOutermost u)).map fun p => p.1.span := by
  have hlevel := wellFormed_parse source
  have hcovers := hlevel.covers_iff (u := u) (selecting_readRules 0 source)
  refine ⟨fun r hr => ?_, fun name span text inner children unparsed hg => ?_, hlevel.removed_ordered,
    Rule.removed_eq_outermost _ (by simp)⟩
  · have h := hcovers _ hr
    rw [Rule.nodes, List.forall_mem_singleton] at h
    exact h
  · have h := hcovers _ hg
    rw [Rule.nodes, List.forall_mem_cons] at h
    exact h

end Stylesheet

end Cull
