import Cull.Proofs.KeptText

/-!
# Text that no plan touches

A planned span and a rule stand in one of three relations, whatever the depth of
the rule: the span covers the rule, or it is planned inside the rule, or the two
share no byte (`planned_cases`). An at-rule that is kept whole has no rules inside
it and is never covered, and neither is a group of which a part could not be read.
So both stand clear of all that goes, and of a group that is not covered only the
rules inside it can go: its header, its closing brace and the text between its
rules stay (`plan_spares_protected`).
-/

namespace Cull

open Text

/-- No planned span shares a byte with the bytes from `lo` up to `hi`. -/
def Plan.SparesRange (p : Plan) (lo hi : Nat) : Prop := ∀ r ∈ p.removed, r.stop ≤ lo ∨ hi ≤ r.start

instance (p : Plan) (lo hi : Nat) : Decidable (p.SparesRange lo hi) :=
  inferInstanceAs (Decidable (∀ r ∈ p.removed, r.stop ≤ lo ∨ hi ≤ r.start))

namespace Level

open Rule

variable {u : Usage} {source : Text} {lo hi : Nat} {rules : List Rule} {unparsed : Option Span}

/-! ### A planned span and a rule -/

/-- A planned span covers a rule, or is planned inside it, or stands clear of it. -/
theorem planned_cases (h : Level source lo hi rules unparsed) {s : Span} (hs : s ∈ (planAll u rules).removed)
    {n : Rule} (hn : n ∈ nodesAll rules) :
    s.contains n.span = true ∨ s ∈ (planAll u n.children).removed ∨ s.stop ≤ n.span.start ∨
      n.span.stop ≤ s.start := by
  induction rules using children_induction generalizing lo hi unparsed with
  | nil => simp [nodesAll] at hn
  | cons r rest ihchildren ih =>
    rw [planAll_cons_removed, List.mem_append] at hs
    rw [nodesAll, List.mem_append] at hn
    rcases hs with hs | hs
    · rcases hn with hn | hn
      · -- both in the first rule: the rule goes whole, or what is planned is planned inside it
        have hinside := h.subtree_inside hn
        rw [plan_removed] at hs
        split at hs
        · rw [List.mem_singleton] at hs
          subst hs
          exact .inl (Span.contains_iff.2 ⟨hinside.1, hinside.2.2⟩)
        · rw [nodes_eq, List.mem_cons] at hn
          rcases hn with rfl | hn
          · exact .inr (.inl hs)
          · exact ihchildren h.children hs hn
      · have hbefore := h.plan_inside hs
        have hbehind := h.tail.node_inside hn
        exact .inr (.inr (.inl (by omega)))
    · rcases hn with hn | hn
      · have hbefore := h.subtree_inside hn
        have hbehind := h.tail.removed_inside hs
        exact .inr (.inr (.inr (by omega)))
      · exact ih h.tail hs hn

/-- A planned span lies in one of the rules of the level. -/
theorem exists_rule_contains (h : Level source lo hi rules unparsed) {s : Span}
    (hs : s ∈ (planAll u rules).removed) : ∃ r ∈ rules, r.span.start ≤ s.start ∧ s.stop ≤ r.span.stop := by
  induction rules generalizing lo with
  | nil => cases hs
  | cons r rest ih =>
    rw [planAll_cons_removed, List.mem_append] at hs
    rcases hs with hs | hs
    · have hinside := h.plan_inside hs
      exact ⟨r, .head _, hinside.1, hinside.2.2⟩
    · obtain ⟨r', hr', hinside⟩ := ih h.tail hs
      exact ⟨r', .tail _ hr', hinside⟩

/-! ### Text between rules -/

/-- The gaps around the rules of a level lie inside the level. -/
theorem gap_inside (h : Level source lo hi rules unparsed) {g : Nat × Nat}
    (hg : g ∈ Stylesheet.gapsFrom lo hi rules) : lo ≤ g.1 ∧ g.2 ≤ hi := by
  induction rules generalizing lo with
  | nil =>
    rw [Stylesheet.gapsFrom, List.mem_singleton] at hg
    subst hg
    exact ⟨Nat.le_refl _, Nat.le_refl _⟩
  | cons r rest ih =>
    obtain ⟨hlo, hne, hhi⟩ := h.head_inside
    rw [Stylesheet.gapsFrom, List.mem_cons] at hg
    rcases hg with rfl | hg
    · exact ⟨Nat.le_refl _, by show r.span.start ≤ hi; omega⟩
    · obtain ⟨hstart, hstop⟩ := ih h.tail hg
      exact ⟨by omega, hstop⟩

/-- A gap shares no byte with a rule of the level. -/
theorem gap_clear (h : Level source lo hi rules unparsed) {r : Rule} (hr : r ∈ rules) {g : Nat × Nat}
    (hg : g ∈ Stylesheet.gapsFrom lo hi rules) : r.span.stop ≤ g.1 ∨ g.2 ≤ r.span.start := by
  induction rules generalizing lo with
  | nil => cases hr
  | cons first rest ih =>
    rw [Stylesheet.gapsFrom, List.mem_cons] at hg
    rcases hg with rfl | hg
    · -- the gap in front of the first rule is in front of all
      refine .inr ?_
      show first.span.start ≤ r.span.start
      rcases List.mem_cons.1 hr with rfl | hr
      · exact Nat.le_refl _
      · have hbehind := h.tail.siblings.inside r hr
        have hne := h.head_inside
        omega
    · rcases List.mem_cons.1 hr with rfl | hr
      · exact .inl (h.tail.gap_inside hg).1
      · exact ih h.tail hr hg

/-- Nothing between the rules of a level goes. -/
theorem sparesRange_gap (h : Level source lo hi rules unparsed) {g : Nat × Nat}
    (hg : g ∈ Stylesheet.gapsFrom lo hi rules) : (planAll u rules).SparesRange g.1 g.2 := by
  intro s hs
  obtain ⟨r, hr, hstart, hstop⟩ := h.exists_rule_contains hs
  have hclear := h.gap_clear hr hg
  omega

/-- Nothing that could not be read goes. -/
theorem spares_unparsed {s : Span} (h : Level source lo hi rules (some s)) : (planAll u rules).Spares s :=
  fun _ hr => .inl (h.before_unparsed.removed_inside hr).2.2

/-! ### Inside a rule that is not covered -/

/-- What is clear of all that is planned inside a rule is clear of all that is planned, if the rule is
not covered. -/
theorem sparesRange_of_not_covers (h : Level source lo hi rules unparsed) {n : Rule} (hn : n ∈ nodesAll rules)
    (hstays : ¬ (planAll u rules).Covers n.span) {a b : Nat} (ha : n.span.start ≤ a) (hb : b ≤ n.span.stop)
    (hinside : (planAll u n.children).SparesRange a b) : (planAll u rules).SparesRange a b := by
  intro s hs
  rcases h.planned_cases hs hn with hcovers | hplanned | hbefore | hbehind
  · exact absurd ⟨s, hs, hcovers⟩ hstays
  · exact hinside s hplanned
  · exact .inl (by omega)
  · exact .inr (by omega)

/-- A rule that is kept whatever is inside it is not covered. -/
theorem not_covers_of_not_idle (h : Level source lo hi rules unparsed) (hselect : Selecting rules) {n : Rule}
    (hn : n ∈ nodesAll rules) (hidle : ¬ n.Idle u) : ¬ (planAll u rules).Covers n.span := by
  rw [h.covers_iff hselect n hn, nodes_eq, List.forall_mem_cons]
  exact fun hall => hidle hall.1

/-- The level inside a group. -/
theorem group_inside (h : Level source lo hi rules unparsed) {name text : Text} {span inner : Span}
    {children : List Rule} {tail : Option Span}
    (hg : .group name span text inner children tail ∈ nodesAll rules) :
    span.start < inner.start ∧ inner.stop + 1 = span.stop ∧ Level source inner.start inner.stop children tail := by
  obtain ⟨hstart, hstop, -, hsiblings⟩ := h.blocks _ hg
  refine ⟨hstart, hstop, hsiblings, fun n hn => h.blocks n (nodes_subset_nodesAll hg ?_)⟩
  rw [nodes]
  exact .tail _ hn

end Level

namespace Stylesheet

/-- No planned span touches an at-rule that is kept whole, what could not be read, or the text between
the rules at top level; nor, of a group that is not itself covered, the header with the opening brace,
the closing brace, or the text between the rules inside it. -/
theorem plan_spares_protected (source : Text) (u : Usage) :
    (∀ name span text, .atRule name span text ∈ (parse source).nodes → ((parse source).plan u).Spares span) ∧
    (∀ s ∈ (parse source).unparsed, ((parse source).plan u).Spares s) ∧
    (∀ g ∈ (parse source).gaps, ((parse source).plan u).SparesRange g.1 g.2) ∧
    (∀ name span text inner children unparsed,
      .group name span text inner children unparsed ∈ (parse source).nodes →
        (∀ s ∈ unparsed, ((parse source).plan u).Spares s) ∧
        (¬ ((parse source).plan u).Covers span →
          ((parse source).plan u).SparesRange span.start inner.start ∧
          ((parse source).plan u).SparesRange inner.stop span.stop ∧
          ∀ g ∈ gapsFrom inner.start inner.stop children, ((parse source).plan u).SparesRange g.1 g.2)) := by
  have hlevel := wellFormed_parse source
  have hselect := selecting_readRules 0 source
  refine ⟨fun name span text hn => ?_, fun s hs => ?_, fun g hg => hlevel.sparesRange_gap hg,
    fun name span text inner children unparsed hn => ?_⟩
  · have hstays := hlevel.not_covers_of_not_idle (u := u) hselect hn id
    refine hlevel.sparesRange_of_not_covers hn hstays (Nat.le_refl _) (Nat.le_refl _) ?_
    -- nothing is planned inside an at-rule
    intro s hs
    cases hs
  · have hrest := hlevel
    rw [WellFormed, Option.mem_def.1 hs] at hrest
    exact hrest.spares_unparsed
  · obtain ⟨hstart, hstop, hinside⟩ := hlevel.group_inside hn
    have hwithin : ∀ a b, ¬ ((parse source).plan u).Covers span → span.start ≤ a → b ≤ span.stop →
        (Rule.planAll u children).SparesRange a b → ((parse source).plan u).SparesRange a b :=
      fun a b hstays ha hb => hlevel.sparesRange_of_not_covers hn hstays ha hb
    refine ⟨fun s hs => ?_, fun hstays => ⟨?_, ?_, fun g hg => ?_⟩⟩
    · -- a group that could not be read to its end stays
      obtain rfl : unparsed = some s := Option.mem_def.1 hs
      have hstays := hlevel.not_covers_of_not_idle (u := u) hselect hn (by simp [Rule.Idle])
      have hreaches := hinside.siblings.unparsed_reaches s rfl
      exact hwithin s.start s.stop hstays (by omega) (by omega) hinside.spares_unparsed
    · refine hwithin _ _ hstays (Nat.le_refl _) (by have := inner.ordered; omega) fun s hs => .inr ?_
      exact (hinside.removed_inside hs).1
    · refine hwithin _ _ hstays (by have := inner.ordered; omega) (Nat.le_refl _) fun s hs => .inl ?_
      exact (hinside.removed_inside hs).2.2
    · have hgap := hinside.gap_inside hg
      exact hwithin _ _ hstays (by omega) (by omega) (hinside.sparesRange_gap hg)

end Stylesheet

end Cull
