import Cull.Proofs.MoreReferences
import Cull.Proofs.RemovalCount
import Cull.Proofs.SelectorLists

/-!
# Only the tokens of a stylesheet matter

Pruning asks the usage set about whole selectors, first words and compounds, at every
depth. All that it asks about are tokens of the selectors that were read, each a mark
with a name behind it (`isToken_of_mem_tokens`). Two sets that hold the same ones among
these give the same verdict on every rule (`verdict_congr`), hence the same plan and the
same outcome. Whatever else is in the set, a bare name, a whole selector, a longer or a
shorter token, it is never found.

Each of these tokens does count: with one more token of a rule that goes, fewer rules go
(`count_insert_lt`).
-/

namespace Cull

open Text

/-! ### The tokens of a stylesheet -/

namespace Selector

/-- A mark with a name behind it. -/
def IsToken (t : Text) : Prop :=
  ∃ c name, t = c :: name ∧ (c = '.' ∨ c = '#') ∧ name ≠ [] ∧ ∀ d ∈ name, isNameChar d = true

theorem isToken_of_mem_tokens {s t : Text} (h : t ∈ tokens s) : IsToken t := by
  fun_induction tokens s with
  | case1 => cases h
  | case2 s hle ih => exact ih h
  | case3 c s hbracket hmark hle name rest hempty ih => exact ih h
  | case4 c s hbracket hmark hle name rest hname ih =>
    rcases List.mem_cons.1 h with rfl | h
    · exact ⟨c, name, rfl, by simpa using hmark, by simpa using hname, List.all_eq_true.1 List.all_takeWhile⟩
    · exact ih h
  | case5 c s hbracket hmark ih => exact ih h

end Selector

/-- The tokens in the selectors of a plain rule. -/
def PlainRule.tokens (r : PlainRule) : List Text := r.selectors.flatMap Selector.tokens

/-- The tokens in the selectors of a rule, without those of the rules inside it. -/
def Rule.ownTokens : Rule → List Text
  | .plain r => r.tokens
  | _ => []

/-- The tokens in the selectors of a stylesheet, at any depth. -/
def Stylesheet.tokens (s : Stylesheet) : List Text := s.nodes.flatMap Rule.ownTokens

theorem Stylesheet.mem_tokens {s : Stylesheet} {t : Text} : t ∈ s.tokens ↔ ∃ r, .plain r ∈ s.nodes ∧ t ∈ r.tokens := by
  rw [tokens, List.mem_flatMap]
  constructor
  · rintro ⟨n, hn, ht⟩
    cases n with
    | plain r => exact ⟨r, hn, ht⟩
    | atRule name span text => cases ht
    | group name span text inner children unparsed => cases ht
  · rintro ⟨r, hr, ht⟩
    exact ⟨.plain r, hr, ht⟩

/-! ### Sets that agree -/

/-- The two sets hold the same of the listed tokens. -/
def Usage.AgreeOn (tokens : List Text) (u v : Usage) : Prop := ∀ t ∈ tokens, t ∈ u ↔ t ∈ v

variable {u v : Usage}

theorem Usage.agreeOn_insert {tokens : List Text} {t : Text} (h : t ∉ tokens) : AgreeOn tokens (u.insert t) u := by
  intro s hs
  have hne : s ≠ t := fun heq => h (heq ▸ hs)
  rw [mem_insert, or_iff_left hne]

theorem PlainRule.unreferenced_congr {r : PlainRule} (h : Usage.AgreeOn r.tokens u v) :
    r.Unreferenced u ↔ r.Unreferenced v := by
  refine forall₂_congr fun s hs => and_congr_right fun _ => forall₂_congr fun t ht => ?_
  exact not_congr (h t (List.mem_flatMap.2 ⟨s, hs, ht⟩))

namespace Rule

/-- The same verdict on every rule makes the same plan. -/
theorem planAll_congr {rules : List Rule} (h : ∀ n ∈ nodesAll rules, n.verdict u = n.verdict v) :
    planAll u rules = planAll v rules := by
  induction rules using children_induction with
  | nil => rfl
  | cons r rest ihchildren ih =>
    have hchildren := ihchildren fun n hn => h n (mem_nodesAll_cons.2 (.inr (.inl hn)))
    have hrest := ih fun n hn => h n (mem_nodesAll_cons.2 (.inr (.inr hn)))
    rw [planAll, planAll, plan_eq u, plan_eq v, h r (mem_nodesAll_cons.2 (.inl rfl)), hchildren, hrest]

end Rule

namespace Stylesheet

open Rule

theorem idle_congr {s : Stylesheet} (h : Usage.AgreeOn s.tokens u v) {n : Rule} (hn : n ∈ s.nodes) :
    n.Idle u ↔ n.Idle v := by
  cases n with
  | plain r => exact PlainRule.unreferenced_congr fun t ht => h t (mem_tokens.2 ⟨r, hn, ht⟩)
  | atRule name span text => exact Iff.rfl
  | group name span text inner children unparsed => exact Iff.rfl

theorem verdict_congr {css : Text} (h : Usage.AgreeOn (parse css).tokens u v) {n : Rule} (hn : n ∈ (parse css).nodes) :
    n.verdict u = n.verdict v := by
  have hsub := nodes_subset_nodesAll hn
  have hone : Selecting [n] := fun r hr => selecting_readRules 0 css r (hsub (by simpa [nodesAll] using hr))
  have hgoes : n.verdict u = .remove ↔ n.verdict v = .remove := by
    rw [verdict_eq_remove_iff hone, verdict_eq_remove_iff hone]
    exact forall₂_congr fun m hm => idle_congr h (hsub hm)
  by_cases hv : n.verdict v = .remove
  · rw [hgoes.2 hv, hv]
  · rw [Verdict.eq_keep_of_ne (mt hgoes.1 hv), Verdict.eq_keep_of_ne hv]

theorem plan_congr {css : Text} (h : Usage.AgreeOn (parse css).tokens u v) : (parse css).plan u = (parse css).plan v :=
  planAll_congr fun _ hn => verdict_congr h hn

/-- With one more token of a plain rule that goes, the count is smaller. -/
theorem count_insert_lt {css : Text} {r : PlainRule} (hr : .plain r ∈ (parse css).nodes)
    (hgoes : r.verdict u = .remove) {t : Text} (ht : t ∈ r.tokens) :
    ((parse css).plan (u.insert t)).count < ((parse css).plan u).count := by
  obtain ⟨s, hs, hts⟩ := List.mem_flatMap.1 ht
  have hstays : ¬ (Rule.plain r).verdict (u.insert t) = .remove := by
    rw [verdict, PlainRule.verdict_eq_remove_iff (selecting_readRules 0 css r hr)]
    exact fun hunreferenced => (hunreferenced s hs).2 t hts (Usage.mem_insert.2 (.inr rfl))
  have hgrows : u ⊆ u.insert t := fun x hx => Usage.mem_insert.2 (.inl hx)
  have hfewer : ∀ n : Rule, isRemoved (u.insert t) n = true → isRemoved u n = true := by
    intro n hn
    rw [isRemoved_iff] at hn ⊢
    exact verdict_eq_remove_of_subset hgrows hn
  have hcount : ∀ w, ((parse css).plan w).count = (parse css).nodes.countP (isRemoved w) := fun w => count_planAll w _
  obtain ⟨before, after, hnodes⟩ := List.append_of_mem hr
  have hbefore : before.countP (isRemoved (u.insert t)) ≤ before.countP (isRemoved u) :=
    List.countP_mono_left fun n _ => hfewer n
  have hafter : after.countP (isRemoved (u.insert t)) ≤ after.countP (isRemoved u) :=
    List.countP_mono_left fun n _ => hfewer n
  rw [hcount, hcount, hnodes, List.countP_append, List.countP_append, List.countP_cons_of_neg (by rwa [isRemoved_iff]),
    List.countP_cons_of_pos (by rwa [isRemoved_iff, verdict])]
  omega

end Stylesheet

/-- Two usage sets that hold the same marked names among the tokens of a stylesheet have the same outcome. So a
text that is not a mark with a name behind it never counts, nor does any that is not exactly a token of the
stylesheet, whether it is longer or shorter. A token of a rule that goes does. -/
theorem only_sheet_tokens_count (css : Text) :
    (∀ u v : Usage, (∀ t ∈ (Stylesheet.parse css).tokens, Selector.IsToken t → (t ∈ u ↔ t ∈ v)) →
      (Stylesheet.parse css).plan u = (Stylesheet.parse css).plan v ∧ prune css u = prune css v) ∧
    (∀ (u : Usage) t, ¬Selector.IsToken t → prune css (u.insert t) = prune css u) ∧
    (∀ (u : Usage) t, t ∉ (Stylesheet.parse css).tokens → prune css (u.insert t) = prune css u) ∧
    ∀ u r, .plain r ∈ (Stylesheet.parse css).nodes → r.verdict u = .remove →
      ∀ t ∈ r.tokens, (prune css (u.insert t)).removed < (prune css u).removed := by
  have hplans : ∀ u v, Usage.AgreeOn (Stylesheet.parse css).tokens u v → prune css u = prune css v := by
    intro u v h
    rw [prune, prune, Stylesheet.plan_congr h]
  have hshape : ∀ t ∈ (Stylesheet.parse css).tokens, Selector.IsToken t := by
    intro t ht
    obtain ⟨r, -, ht⟩ := Stylesheet.mem_tokens.1 ht
    obtain ⟨s, -, ht⟩ := List.mem_flatMap.1 ht
    exact Selector.isToken_of_mem_tokens ht
  refine ⟨fun u v h => ?_, fun u t ht => ?_, fun u t ht => ?_, fun u r hr hgoes t ht => ?_⟩
  · have hagree : Usage.AgreeOn (Stylesheet.parse css).tokens u v := fun t ht => h t ht (hshape t ht)
    exact ⟨Stylesheet.plan_congr hagree, hplans u v hagree⟩
  · exact hplans _ _ (Usage.agreeOn_insert (mt (hshape t) ht))
  · exact hplans _ _ (Usage.agreeOn_insert ht)
  · rw [removed_prune, removed_prune]
    exact Stylesheet.count_insert_lt hr hgoes ht

/-- A bare name, a whole selector, a longer and a shorter token change nothing; the token itself does. -/
theorem only_sheet_tokens_count_group :
    (Stylesheet.parse "@media p\x7b.ab>#c\x7bd:1\x7d\x7d".toList).tokens = [".ab".toList, "#c".toList] ∧
      (∀ t ∈ (Stylesheet.parse "@media p\x7b.ab>#c\x7bd:1\x7d\x7d".toList).tokens, Selector.IsToken t →
        (t ∈ Usage.ofList ["ab".toList, ".ab>#c".toList, ".abc".toList, ".a".toList] ↔ t ∈ Usage.empty)) ∧
      prune "@media p\x7b.ab>#c\x7bd:1\x7d\x7d".toList
          (.ofList ["ab".toList, ".ab>#c".toList, ".abc".toList, ".a".toList]) =
        prune "@media p\x7b.ab>#c\x7bd:1\x7d\x7d".toList .empty ∧
      prune "@media p\x7b.ab>#c\x7bd:1\x7d\x7d".toList .empty = .changed [] 2 ∧
      prune "@media p\x7b.ab>#c\x7bd:1\x7d\x7d".toList (.ofList ["#c".toList]) = .unchanged := by
  have htokens : (Stylesheet.parse "@media p\x7b.ab>#c\x7bd:1\x7d\x7d".toList).tokens = [".ab".toList, "#c".toList] := by
    decide +kernel
  have hnone : ∀ t ∈ [".ab".toList, "#c".toList],
      (Usage.ofList ["ab".toList, ".ab>#c".toList, ".abc".toList, ".a".toList]).contains t = Usage.empty.contains t := by
    decide +kernel
  have hagree : ∀ t ∈ (Stylesheet.parse "@media p\x7b.ab>#c\x7bd:1\x7d\x7d".toList).tokens, Selector.IsToken t →
      (t ∈ Usage.ofList ["ab".toList, ".ab>#c".toList, ".abc".toList, ".a".toList] ↔ t ∈ Usage.empty) := by
    intro t ht _
    rw [← Usage.contains_iff, ← Usage.contains_iff, hnone t (htokens ▸ ht)]
  exact ⟨htokens, hagree, ((only_sheet_tokens_count _).1 _ _ hagree).2, by decide +kernel, by decide +kernel⟩

end Cull
