import Cull.Proofs.Layout

/-!
# The tree of rules

The rules of a stylesheet form a tree: the rules at top level, and the rules
inside each group. `Siblings` says what holds of the rules at one level: none is
empty, each stands where its span says and with the text that stands there, one
ends before the next begins, and what could not be read comes after all of them
and reaches to the end. `Level` says this of a level and of every level below it,
and `Stylesheet.WellFormed` of the whole tree. Every stylesheet that is read is
well formed (`wellFormed_parse`), so the texts of the rules and the texts between
them make up the source (`weave_gaps`).
-/

namespace Cull

open Text

/-! ### Rules at any depth -/

namespace Rule

mutual

/-- A rule and all rules inside it. -/
def nodes : Rule → List Rule
  | .plain r => [.plain r]
  | .atRule name span text => [.atRule name span text]
  | .group name span text inner children unparsed =>
    .group name span text inner children unparsed :: nodesAll children

/-- The rules of a list and all rules inside them. -/
def nodesAll : List Rule → List Rule
  | [] => []
  | r :: rest => nodes r ++ nodesAll rest

end

/-- The rules in the block of a group. -/
def children : Rule → List Rule
  | .group _ _ _ _ children _ => children
  | _ => []

theorem nodes_eq (r : Rule) : r.nodes = r :: nodesAll r.children := by
  cases r <;> simp [nodes, children, nodesAll]

theorem mem_nodesAll_cons {n r : Rule} {rest : List Rule} :
    n ∈ nodesAll (r :: rest) ↔ n = r ∨ n ∈ nodesAll r.children ∨ n ∈ nodesAll rest := by
  rw [nodesAll, nodes_eq, List.cons_append, List.mem_cons, List.mem_append]

theorem mem_nodesAll {r : Rule} {rules : List Rule} : r ∈ nodesAll rules ↔ ∃ s ∈ rules, r ∈ s.nodes := by
  induction rules with
  | nil => simp [nodesAll]
  | cons s rest ih => simp [nodesAll, ih]

/-- Induction on a list of rules, and on the rules inside each group of it. -/
theorem forest_induction {motive : List Rule → Prop} (nil : motive [])
    (plain : ∀ r rest, motive rest → motive (.plain r :: rest))
    (atRule : ∀ name span text rest, motive rest → motive (.atRule name span text :: rest))
    (group : ∀ name span text inner children unparsed rest, motive children → motive rest →
      motive (.group name span text inner children unparsed :: rest)) : ∀ rules, motive rules
  | [] => nil
  | .plain r :: rest => plain r rest (forest_induction nil plain atRule group rest)
  | .atRule name span text :: rest => atRule name span text rest (forest_induction nil plain atRule group rest)
  | .group name span text inner children unparsed :: rest =>
    group name span text inner children unparsed rest (forest_induction nil plain atRule group children)
      (forest_induction nil plain atRule group rest)

/-- The same where the kinds of rules make no difference. -/
theorem children_induction {motive : List Rule → Prop} (nil : motive [])
    (cons : ∀ r rest, motive r.children → motive rest → motive (r :: rest)) (rules : List Rule) : motive rules := by
  induction rules using forest_induction with
  | nil => exact nil
  | plain r rest ih => exact cons _ rest nil ih
  | atRule name span text rest ih => exact cons _ rest nil ih
  | group name span text inner children unparsed rest ihchildren ih => exact cons _ rest ihchildren ih

/-- The rules inside a rule of the list belong to the list. -/
theorem nodes_subset_nodesAll {n : Rule} {rules : List Rule} (h : n ∈ nodesAll rules) : n.nodes ⊆ nodesAll rules := by
  induction rules using children_induction with
  | nil => simp [nodesAll] at h
  | cons r rest ihchildren ih =>
    rw [nodesAll]
    rcases mem_nodesAll_cons.1 h with rfl | h | h
    · exact List.subset_append_left _ _
    · refine List.subset_append_of_subset_left _ ?_
      rw [nodes_eq r]
      exact List.subset_cons_of_subset _ (ihchildren h)
    · exact List.subset_append_of_subset_right _ (ih h)

theorem nodes_subset_nodes {n r : Rule} (h : n ∈ r.nodes) : n.nodes ⊆ r.nodes := by
  have hsub : n.nodes ⊆ nodesAll [r] := nodes_subset_nodesAll (by simpa [nodesAll] using h)
  simpa [nodesAll] using hsub

end Rule

/-- All rules of a stylesheet, at any depth. -/
def Stylesheet.nodes (s : Stylesheet) : List Rule := Rule.nodesAll s.rules

/-! ### One level of a tree, and all levels -/

/-- The rules at one level stand in order in the bytes `lo` to `hi` of the source. -/
structure Siblings (source : Text) (lo hi : Nat) (rules : List Rule) (unparsed : Option Span) : Prop where
  /-- No rule is empty. -/
  nonempty : ∀ r ∈ rules, r.span.start < r.span.stop
  /-- The rules lie inside the level. -/
  inside : ∀ r ∈ rules, lo ≤ r.span.start ∧ r.span.stop ≤ hi
  /-- The text of a rule is the text that its span marks. -/
  text : ∀ r ∈ rules, r.span.slice? source = some r.text
  /-- One rule ends before the next begins. -/
  ordered : rules.Pairwise fun r s => r.span.stop ≤ s.span.start
  /-- What could not be read is not empty, and reaches from inside the level to its end. -/
  unparsed_reaches : ∀ s ∈ unparsed, lo ≤ s.start ∧ s.start < s.stop ∧ s.stop = hi
  /-- What could not be read comes after the rules. -/
  unparsed_after : ∀ s ∈ unparsed, ∀ r ∈ rules, r.span.stop ≤ s.start
  /-- What could not be read is marked by its span. -/
  unparsed_text : ∀ s ∈ unparsed, ∃ t, s.slice? source = some t

/-- The block of a group lies inside it, with one closing brace after it, and its rules stand in
order in it. -/
def Rule.BlockPlaced (source : Text) : Rule → Prop
  | .group _ span _ inner children unparsed =>
    span.start < inner.start ∧ inner.stop + 1 = span.stop ∧ (∃ body, inner.slice? source = some body) ∧
      Siblings source inner.start inner.stop children unparsed
  | _ => True

/-- The rules of a level stand in order in it, and so do those of every block at any depth. -/
structure Level (source : Text) (lo hi : Nat) (rules : List Rule) (unparsed : Option Span) : Prop where
  /-- The level itself is in order. -/
  siblings : Siblings source lo hi rules unparsed
  /-- The block of every group is. -/
  blocks : ∀ r ∈ Rule.nodesAll rules, r.BlockPlaced source

/-- The top level of the tree, and every level below it, is in order in the whole source. -/
def Stylesheet.WellFormed (s : Stylesheet) : Prop :=
  Level s.source 0 s.source.byteLength s.rules s.unparsed

namespace Siblings

variable {source : Text} {lo mid hi : Nat} {rules : List Rule} {unparsed : Option Span}

/-- Nothing but a rest that could not be read. -/
theorem leftover (pre t post : Text) :
    Siblings (pre ++ (t ++ post)) pre.byteLength (pre.byteLength + t.byteLength) []
      (Stylesheet.leftover pre.byteLength t) := by
  have hmem : ∀ s ∈ Stylesheet.leftover pre.byteLength t, t ≠ [] ∧ s = .ofText pre.byteLength t := by
    intro s hs
    unfold Stylesheet.leftover at hs
    split at hs
    · simp at hs
    · next ht => exact ⟨by simpa using ht, by simpa using hs.symm⟩
  refine ⟨by simp, by simp, by simp, .nil, ?_, by simp, ?_⟩
  · intro s hs
    obtain ⟨hne, rfl⟩ := hmem s hs
    exact ⟨Nat.le_refl _, Nat.lt_add_of_pos_right (byteLength_pos hne), rfl⟩
  · intro s hs
    obtain ⟨-, rfl⟩ := hmem s hs
    exact ⟨t, Span.slice?_ofText pre t post⟩

/-- A level that begins later begins earlier too. -/
theorem weaken (h : Siblings source mid hi rules unparsed) (hle : lo ≤ mid) :
    Siblings source lo hi rules unparsed := by
  refine ⟨h.nonempty, fun r hr => ?_, h.text, h.ordered, fun s hs => ?_, h.unparsed_after, h.unparsed_text⟩
  · have := h.inside r hr
    omega
  · have := h.unparsed_reaches s hs
    omega

/-- One more rule in front. -/
theorem cons {r : Rule} (h : Siblings source mid hi rules unparsed) (hlo : lo ≤ r.span.start)
    (hne : r.span.start < r.span.stop) (hmid : r.span.stop = mid) (hhi : mid ≤ hi)
    (htext : r.span.slice? source = some r.text) : Siblings source lo hi (r :: rules) unparsed := by
  refine ⟨?_, ?_, ?_, ?_, ?_, ?_, h.unparsed_text⟩
  · exact List.forall_mem_cons.2 ⟨hne, h.nonempty⟩
  · refine List.forall_mem_cons.2 ⟨by omega, fun s hs => ?_⟩
    have := h.inside s hs
    omega
  · exact List.forall_mem_cons.2 ⟨htext, h.text⟩
  · refine .cons (fun s hs => ?_) h.ordered
    have := h.inside s hs
    omega
  · intro s hs
    have := h.unparsed_reaches s hs
    omega
  · intro s hs
    refine List.forall_mem_cons.2 ⟨?_, h.unparsed_after s hs⟩
    have := h.unparsed_reaches s hs
    omega

/-- The level behind its first rule. -/
theorem tail {r : Rule} (h : Siblings source lo hi (r :: rules) unparsed) :
    Siblings source r.span.stop hi rules unparsed := by
  have hordered := List.pairwise_cons.1 h.ordered
  refine ⟨fun s hs => h.nonempty s (.tail _ hs), fun s hs => ?_, fun s hs => h.text s (.tail _ hs), hordered.2,
    fun s hs => ?_, fun s hs t ht => h.unparsed_after s hs t (.tail _ ht), h.unparsed_text⟩
  · exact ⟨hordered.1 s hs, (h.inside s (.tail _ hs)).2⟩
  · exact ⟨h.unparsed_after s hs r (.head _), (h.unparsed_reaches s hs).2⟩

end Siblings

namespace Level

variable {source : Text} {lo hi : Nat} {r : Rule} {rules rest : List Rule} {unparsed : Option Span}

theorem tail (h : Level source lo hi (r :: rest) unparsed) : Level source r.span.stop hi rest unparsed :=
  ⟨h.siblings.tail, fun n hn => h.blocks n (Rule.mem_nodesAll_cons.2 (.inr (.inr hn)))⟩

theorem nil (source : Text) (lo hi : Nat) : Level source lo hi [] none :=
  ⟨⟨by simp, by simp, by simp, .nil, by simp, by simp, by simp⟩, by simp [Rule.nodesAll]⟩

/-- The rules of a level, between any two ends that they lie between. -/
theorem narrow {lo' hi' : Nat} (h : Level source lo hi rules unparsed)
    (hinside : ∀ r ∈ rules, lo' ≤ r.span.start ∧ r.span.stop ≤ hi') : Level source lo' hi' rules none :=
  ⟨⟨h.siblings.nonempty, hinside, h.siblings.text, h.siblings.ordered, by simp, by simp, by simp⟩, h.blocks⟩

/-- The rules inside a rule are a level of their own, which begins behind the first byte of the rule. -/
theorem children (h : Level source lo hi (r :: rest) unparsed) :
    Level source (r.span.start + 1) r.span.stop r.children none := by
  have hnodes : ∀ n ∈ Rule.nodesAll r.children, n.BlockPlaced source := fun n hn =>
    h.blocks n (Rule.mem_nodesAll_cons.2 (.inr (.inl hn)))
  have hplaced := h.blocks r (Rule.mem_nodesAll_cons.2 (.inl rfl))
  cases r with
  | plain r => exact .nil _ _ _
  | atRule name span text => exact .nil _ _ _
  | group name span text inner children tail =>
    obtain ⟨hstart, hstop, -, hsib⟩ := hplaced
    refine Level.narrow ⟨hsib, hnodes⟩ fun n hn => ?_
    have hn := hsib.inside n hn
    show span.start + 1 ≤ n.span.start ∧ n.span.stop ≤ span.stop
    omega

theorem head_inside (h : Level source lo hi (r :: rest) unparsed) :
    lo ≤ r.span.start ∧ r.span.start < r.span.stop ∧ r.span.stop ≤ hi := by
  obtain ⟨hlo, hhi⟩ := h.siblings.inside r (.head _)
  exact ⟨hlo, h.siblings.nonempty r (.head _), hhi⟩

/-- A rule at any depth is not empty, and lies inside the level. -/
theorem node_inside (h : Level source lo hi rules unparsed) {n : Rule} (hn : n ∈ Rule.nodesAll rules) :
    lo ≤ n.span.start ∧ n.span.start < n.span.stop ∧ n.span.stop ≤ hi := by
  induction rules using Rule.children_induction generalizing lo hi unparsed with
  | nil => simp [Rule.nodesAll] at hn
  | cons r rest ihchildren ih =>
    have hhead := h.head_inside
    rcases Rule.mem_nodesAll_cons.1 hn with rfl | hn | hn
    · exact hhead
    · have := ihchildren h.children hn
      omega
    · have := ih h.tail hn
      omega

/-- A rule at any depth is marked by its span. -/
theorem node_text (h : Level source lo hi rules unparsed) {n : Rule} (hn : n ∈ Rule.nodesAll rules) :
    n.span.slice? source = some n.text := by
  induction rules using Rule.children_induction generalizing lo hi unparsed with
  | nil => simp [Rule.nodesAll] at hn
  | cons r rest ihchildren ih =>
    rcases Rule.mem_nodesAll_cons.1 hn with rfl | hn | hn
    · exact h.siblings.text _ (.head _)
    · exact ihchildren h.children hn
    · exact ih h.tail hn

/-- The subtree of a rule lies inside the rule. -/
theorem subtree_inside (h : Level source lo hi (r :: rest) unparsed) {n : Rule} (hn : n ∈ r.nodes) :
    r.span.start ≤ n.span.start ∧ n.span.start < n.span.stop ∧ n.span.stop ≤ r.span.stop := by
  have hhead := h.head_inside
  rw [Rule.nodes_eq, List.mem_cons] at hn
  rcases hn with rfl | hn
  · exact ⟨Nat.le_refl _, hhead.2.1, Nat.le_refl _⟩
  · have := h.children.node_inside hn
    omega

end Level

/-! ### Every stylesheet is well formed -/

namespace Stylesheet

/-- A construct leaves at most one rule behind, which takes up the whole construct. -/
theorem Construct.rules_cases (pos : Nat) (c : Construct) :
    c.rules pos = [] ∨ ∃ r, c.rules pos = [r] ∧ r.span = .ofText pos c.text ∧ r.text = c.text := by
  cases c with
  | blank c => exact .inl rfl
  | comment inner => exact .inl rfl
  | plain header body =>
    unfold Construct.rules plainRule?
    dsimp only
    split
    · exact .inl rfl
    · exact .inr ⟨_, rfl, rfl, rfl⟩
  | atRule form =>
    cases form with
    | statement name text => exact .inr ⟨_, rfl, rfl, rfl⟩
    | block name header body =>
      unfold Construct.rules
      dsimp only
      split
      · exact .inr ⟨_, rfl, rfl, rfl⟩
      · exact .inr ⟨_, rfl, rfl, rfl⟩

/-- Only a block is a group. -/
theorem Construct.eq_block_of_group_mem {c : Construct} {pos : Nat} {name text : Text} {span inner : Span}
    {children : List Rule} {unparsed : Option Span}
    (h : Rule.group name span text inner children unparsed ∈ c.rules pos) :
    ∃ header body, c = .atRule (.block name header body) ∧ span = .ofText pos (header ++ (body ++ ['}'])) ∧
      text = header ++ (body ++ ['}']) ∧ inner = .ofText (pos + header.byteLength) body ∧
      children = (readRules (pos + header.byteLength) body).1 ∧
      unparsed = (readRules (pos + header.byteLength) body).2 := by
  cases c with
  | blank c => simp [Construct.rules] at h
  | comment inner => simp [Construct.rules] at h
  | plain header body => simp [Construct.rules] at h
  | atRule form =>
    cases form with
    | statement name text => simp [Construct.rules] at h
    | block name header body =>
      unfold Construct.rules at h
      dsimp only at h
      split at h
      · simp only [List.mem_singleton, Rule.group.injEq] at h
        obtain ⟨rfl, rfl, rfl, rfl, rfl, rfl⟩ := h
        exact ⟨header, body, rfl, rfl, rfl, rfl, rfl, rfl⟩
      · simp at h

/-- Only a plain rule without a blank half is a plain rule of the sheet. -/
theorem Construct.eq_plain_of_plain_mem {c : Construct} {pos : Nat} {r : PlainRule} (h : Rule.plain r ∈ c.rules pos) :
    ∃ header body, c = .plain header body ∧ plainRule? pos header body = some r := by
  cases c with
  | blank c => simp [Construct.rules] at h
  | comment inner => simp [Construct.rules] at h
  | plain header body =>
    refine ⟨header, body, rfl, ?_⟩
    simpa [Construct.rules] using h
  | atRule form =>
    cases form with
    | statement name text => simp [Construct.rules] at h
    | block name header body =>
      unfold Construct.rules at h
      dsimp only at h
      split at h <;> simp at h

/-- The header of a block begins with an at-sign. -/
theorem block_header_ne_nil {t rest name header body : Text}
    (h : readConstruct t = some (.atRule (.block name header body), rest)) : header ≠ [] := by
  revert h
  fun_cases readConstruct t <;> grind [Option.map_eq_some_iff, readAtRule]

/-- Wherever the text stands, its rules are in order and so are those of every block in it. -/
def Placed (t : Text) : Prop :=
  ∀ pre post : Text, Level (pre ++ (t ++ post)) pre.byteLength (pre.byteLength + t.byteLength)
    (readRules pre.byteLength t).1 (readRules pre.byteLength t).2

/-- The rules that a construct consists of are the one it is, and those of its block. -/
theorem Construct.mem_nodesAll_rules {c : Construct} {pos : Nat} {n : Rule} (h : n ∈ Rule.nodesAll (c.rules pos)) :
    n ∈ c.rules pos ∨ ∃ name header body, c = .atRule (.block name header body) ∧
      n ∈ Rule.nodesAll (readRules (pos + header.byteLength) body).1 := by
  rw [Rule.mem_nodesAll] at h
  obtain ⟨r, hr, hn⟩ := h
  rw [Rule.nodes_eq, List.mem_cons] at hn
  rcases hn with rfl | hn
  · exact .inl hr
  cases r with
  | plain r => simp [Rule.children, Rule.nodesAll] at hn
  | atRule name span text => simp [Rule.children, Rule.nodesAll] at hn
  | group name span text inner children unparsed =>
    obtain ⟨header, body, rfl, -, -, rfl, rfl, rfl⟩ := Construct.eq_block_of_group_mem hr
    exact .inr ⟨name, header, body, rfl, hn⟩

/-- Every rule of a stylesheet is a construct that was read somewhere. -/
theorem exists_construct_of_mem_nodesAll {pos : Nat} {t : Text} {n : Rule} (h : n ∈ Rule.nodesAll (readRules pos t).1) :
    ∃ pos t c rest, readConstruct t = some (c, rest) ∧ n ∈ c.rules pos := by
  induction t using construct_induction generalizing pos with
  | stop t hnone =>
    rw [readRules_of_readConstruct_eq_none hnone] at h
    simp [Rule.nodesAll] at h
  | step t c rest hc ihbody ih =>
    rw [readRules_of_readConstruct hc, Rule.mem_nodesAll] at h
    obtain ⟨r, hr, hn⟩ := h
    rcases List.mem_append.1 hr with hr | hr
    · rcases c.mem_nodesAll_rules (Rule.mem_nodesAll.2 ⟨r, hr, hn⟩) with hn | ⟨name, header, body, rfl, hn⟩
      · exact ⟨pos, t, c, rest, hc, hn⟩
      · exact ihbody name header body rfl hn
    · exact ih (Rule.mem_nodesAll.2 ⟨r, hr, hn⟩)

/-- If the body of a block is in order wherever it stands, so is the block. -/
theorem blockPlaced_of_readConstruct {t rest : Text} {c : Construct} (h : readConstruct t = some (c, rest))
    (hbody : ∀ name header body, c = .atRule (.block name header body) → Placed body) (pre post : Text) :
    ∀ r ∈ Rule.nodesAll (c.rules pre.byteLength), r.BlockPlaced (pre ++ (c.text ++ post)) := by
  intro r hr
  have hblock : ∀ name header body, c = .atRule (.block name header body) →
      Level (pre ++ (c.text ++ post)) (pre.byteLength + header.byteLength)
        (pre.byteLength + header.byteLength + body.byteLength) (readRules (pre.byteLength + header.byteLength) body).1
        (readRules (pre.byteLength + header.byteLength) body).2 := by
    rintro name header body rfl
    have hlevel := hbody name header body rfl (pre ++ header) ('}' :: post)
    rw [byteLength_append] at hlevel
    simpa [Construct.text, AtForm.text] using hlevel
  rcases c.mem_nodesAll_rules hr with hr | ⟨name, header, body, hc, hr⟩
  · cases r with
    | plain r => trivial
    | atRule name span text => trivial
    | group name span text inner children unparsed =>
      obtain ⟨header, body, rfl, rfl, -, rfl, rfl, rfl⟩ := Construct.eq_block_of_group_mem hr
      have := byteLength_pos (block_header_ne_nil h)
      have hclose : '}'.utf8Size = 1 := rfl
      refine ⟨?_, ?_, ⟨body, ?_⟩, (hblock name header body rfl).siblings⟩
      · simp only [Span.ofText_start]
        omega
      · simp only [Span.ofText_stop, byteLength_append, byteLength_cons, byteLength_nil, hclose]
        omega
      · rw [← byteLength_append]
        simpa [Construct.text, AtForm.text] using Span.slice?_ofText (pre ++ header) body ('}' :: post)
  · exact (hblock name header body hc).blocks r hr

theorem placed (t : Text) : Placed t := by
  induction t using construct_induction with
  | stop t h =>
    intro pre post
    rw [readRules_of_readConstruct_eq_none h]
    exact ⟨.leftover pre t post, by simp [Rule.nodesAll]⟩
  | step t c rest h ihbody ih =>
    intro pre post
    -- the text after the construct, in the same source
    obtain ⟨hsib, hblocks⟩ := ih (pre ++ c.text) post
    have happend := readConstruct_append h
    have hlength : t.byteLength = c.text.byteLength + rest.byteLength := by
      rw [← happend, byteLength_append]
    have hsource : pre ++ c.text ++ (rest ++ post) = pre ++ (t ++ post) := by
      rw [← happend]
      simp
    rw [hsource, byteLength_append] at hsib hblocks
    rw [readRules_of_readConstruct h, hlength, ← Nat.add_assoc]
    constructor
    · rcases c.rules_cases pre.byteLength with hnone | ⟨r, hone, hspan, htext⟩
      · rw [hnone]
        exact hsib.weaken (Nat.le_add_right _ _)
      · rw [hone]
        refine hsib.cons ?_ ?_ ?_ (Nat.le_add_right _ _) ?_
        · exact Nat.le_of_eq (by rw [hspan, Span.ofText_start])
        · rw [hspan]
          exact Nat.lt_add_of_pos_right (byteLength_pos (readConstruct_text_ne_nil h))
        · rw [hspan, Span.ofText_stop]
        · rw [hspan, htext, ← happend, List.append_assoc]
          exact Span.slice?_ofText _ _ _
    · intro r hr
      rw [Rule.mem_nodesAll] at hr
      obtain ⟨s, hs, hr⟩ := hr
      rcases List.mem_append.1 hs with hs | hs
      · rw [← happend, List.append_assoc]
        exact blockPlaced_of_readConstruct h ihbody pre (rest ++ post) r (Rule.mem_nodesAll.2 ⟨s, hs, hr⟩)
      · exact hblocks r (Rule.mem_nodesAll.2 ⟨s, hs, hr⟩)

/-- Every stylesheet that is read is well formed. -/
theorem wellFormed_parse (source : Text) : (parse source).WellFormed := by
  have h := placed source [] []
  rw [List.nil_append, List.append_nil, byteLength_nil, Nat.zero_add] at h
  exact h

/-! ### Gaps and rules make up the source -/

/-- Texts of two lists in turn, beginning with the first list. -/
def weave : List Text → List Text → Text
  | [], ys => ys.flatten
  | x :: xs, ys => x ++ weave ys xs
  termination_by xs ys => xs.length + ys.length

/-- Around rules that are in order every gap is a span of the source, and the texts of the gaps
and the rules make up the source. -/
theorem weave_gapsFrom {source : Text} {rules : List Rule} {unparsed : Option Span} (pre t : Text)
    (hsource : source = pre ++ t) (h : Siblings source pre.byteLength source.byteLength rules unparsed) :
    ∃ spans texts, (gapsFrom pre.byteLength source.byteLength rules).mapM (fun g => Span.ofEnds g.1 g.2) = .ok spans ∧
      spans.mapM (·.slice? source) = some texts ∧ weave texts (rules.map Rule.text) = t := by
  induction rules generalizing pre t with
  | nil =>
    have hstop : source.byteLength = pre.byteLength + t.byteLength := by
      rw [hsource, byteLength_append]
    have hslice := Span.slice?_ofText pre t []
    rw [List.append_nil, ← hsource] at hslice
    have hspan : Span.ofEnds pre.byteLength source.byteLength = .ok (.ofText pre.byteLength t) := by
      simp [Span.ofEnds, hstop, Span.ofText]
    refine ⟨[.ofText pre.byteLength t], [t], ?_, ?_, ?_⟩
    · simp only [gapsFrom, List.mapM_cons, List.mapM_nil, hspan]
      rfl
    · simp [hslice]
    · simp [weave]
  | cons r rules ih =>
    -- the rule cuts the source in three, and the gap before it is what it leaves of the first part
    obtain ⟨a, b, hcut, hstart, hstop⟩ := slice?_eq_some r.span.ordered (h.text r (.head _))
    have hle := (h.inside r (.head _)).1
    obtain ⟨g, rfl, rfl⟩ := append_eq_append_of_le (hsource.symm.trans hcut) (hstart.symm ▸ hle)
    have hrest : source = (pre ++ g ++ r.text) ++ b := by
      rw [hsource]
      simp
    have htail := h.tail
    rw [← hstop, ← byteLength_append] at htail
    obtain ⟨spans, texts, hspans, htexts, hweave⟩ := ih (pre ++ g ++ r.text) b hrest htail
    have hslice := Span.slice?_ofText pre g (r.text ++ b)
    rw [← hsource] at hslice
    have hgap : Span.ofEnds pre.byteLength r.span.start = .ok (.ofText pre.byteLength g) := by
      rw [← hstart, byteLength_append]
      simp [Span.ofEnds, Span.ofText]
    refine ⟨.ofText pre.byteLength g :: spans, g :: texts, ?_, ?_, ?_⟩
    · rw [byteLength_append, hstop] at hspans
      simp only [gapsFrom, List.mapM_cons, hgap, hspans]
      rfl
    · simp [hslice, htexts]
    · simp [weave, hweave]

/-- The gaps of a stylesheet are spans of its source, and their texts between the texts of the
rules make up the source. -/
theorem weave_gaps (source : Text) :
    ∃ spans texts, (parse source).gaps.mapM (fun g => Span.ofEnds g.1 g.2) = .ok spans ∧
      spans.mapM (·.slice? source) = some texts ∧ weave texts ((parse source).rules.map Rule.text) = source :=
  weave_gapsFrom [] source rfl (wellFormed_parse source).siblings

end Stylesheet

end Cull
