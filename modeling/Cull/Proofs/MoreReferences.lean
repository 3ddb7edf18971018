import Cull.Proofs.CutText
import Cull.Run.Basic

/-!
# More references, fewer removals

A larger usage set can turn the removal of a whole group into the removal of some
of the rules inside it, so the plans for two sets need not have a span in common.
What they have in common is the order of what they take away: the verdict on a
rule can only change from going to staying when the set grows
(`verdict_eq_remove_of_subset`). A group that goes as a whole is counted with all
that is in it, which is the most that can be counted for it
(`planAll_count_le_weightAll`). So with more references no further byte goes and
the count does not rise (`planAll_within`).

The set itself grows with each of the lists that it is collected from, because
each token, page and script adds the same tokens wherever it stands
(`mem_ofTexts`).
-/

namespace Cull

open Text

/-! ### The verdicts -/

/-- Every token of the one set is in the other. -/
instance : HasSubset Usage := ⟨fun u v => ∀ t, t ∈ u → t ∈ v⟩

variable {u v : Usage}

theorem Selector.isUsed_of_subset (h : u ⊆ v) {s : Text} (hs : isUsed s u = true) : isUsed s v = true := by
  rw [isUsed_iff] at hs ⊢
  rcases hs with hnone | ⟨t, ht, hu⟩
  · exact .inl hnone
  · exact .inr ⟨t, ht, h t hu⟩

theorem PlainRule.verdict_eq_remove_of_subset (h : u ⊆ v) {r : PlainRule} (hr : r.verdict v = .remove) :
    r.verdict u = .remove := by
  unfold verdict at hr ⊢
  split at hr
  · cases hr
  · next htoken =>
    split at hr
    · cases hr
    · next hunused =>
      -- a selector that the smaller set references would be referenced by the larger one
      have hused : ¬ r.selectors.any (Selector.isUsed · u) = true := by
        intro hany
        obtain ⟨s, hs, hu⟩ := List.any_eq_true.1 hany
        exact hunused (List.any_eq_true.2 ⟨s, hs, Selector.isUsed_of_subset h hu⟩)
      rw [if_neg htoken, if_neg hused]

namespace Rule

theorem allRemoved_of_subset (h : u ⊆ v) {rules : List Rule} (hall : allRemoved v rules = true) :
    allRemoved u rules = true := by
  induction rules using forest_induction with
  | nil => rw [allRemoved]
  | plain r rest ih =>
    rw [allRemoved_cons, verdict] at hall ⊢
    exact ⟨PlainRule.verdict_eq_remove_of_subset h hall.1, ih hall.2⟩
  | atRule name span text rest ih =>
    rw [allRemoved_cons, verdict] at hall
    cases hall.1
  | group name span text inner children unparsed rest ihchildren ih =>
    rw [allRemoved_cons, verdict_group_eq_remove_iff] at hall ⊢
    obtain ⟨⟨hread, hchildren⟩, hrest⟩ := hall
    exact ⟨⟨hread, ihchildren hchildren⟩, ih hrest⟩

/-- A rule that goes with the larger set goes with the smaller one. -/
theorem verdict_eq_remove_of_subset (h : u ⊆ v) {r : Rule} (hr : r.verdict v = .remove) : r.verdict u = .remove := by
  have hone : allRemoved v [r] = true := allRemoved_cons.2 ⟨hr, by rw [allRemoved]⟩
  exact (allRemoved_cons.1 (allRemoved_of_subset h hone)).1

end Rule

/-! ### The plans -/

/-- What the one plan takes away is taken away by the other, and no more is counted. -/
structure Plan.Within (p q : Plan) : Prop where
  /-- Every byte that goes by the one plan goes by the other. -/
  bytes : ∀ i, Span.hits p.removed i = true → Span.hits q.removed i = true
  /-- The one plan counts no more than the other. -/
  count : p.count ≤ q.count

theorem Plan.Within.refl (p : Plan) : p.Within p := ⟨fun _ h => h, Nat.le_refl _⟩

theorem Plan.Within.append {p p' q q' : Plan} (h : p.Within q) (h' : p'.Within q') :
    (p.append p').Within (q.append q') := by
  constructor
  · intro i hi
    rw [Plan.append, Span.hits, List.any_append, Bool.or_eq_true] at hi ⊢
    exact hi.imp (h.bytes i) (h'.bytes i)
  · exact Nat.add_le_add h.count h'.count

namespace Rule

theorem weightAll_children_le (r : Rule) : weightAll r.children ≤ r.weight := by
  cases r with
  | plain r => exact Nat.zero_le _
  | atRule name span text => exact Nat.zero_le _
  | group name span text inner children unparsed =>
    rw [weight]
    exact Nat.le_add_left _ _

/-- No more is counted for rules than they weigh. -/
theorem planAll_count_le_weightAll (u : Usage) (rules : List Rule) : (planAll u rules).count ≤ weightAll rules := by
  induction rules using children_induction with
  | nil => exact Nat.zero_le _
  | cons r rest ihchildren ih =>
    have hhead : (plan u r).count ≤ r.weight := by
      rw [plan_eq]
      split
      · exact Nat.le_refl _
      · exact Nat.le_trans ihchildren r.weightAll_children_le
    rw [planAll, weightAll]
    exact Nat.add_le_add hhead ih

theorem plan_count_le_weight (u : Usage) (r : Rule) : (plan u r).count ≤ r.weight := by
  have hone := planAll_count_le_weightAll u [r]
  rwa [planAll, planAll, weightAll, weightAll] at hone

end Rule

namespace Level

open Rule

variable {source : Text} {lo hi : Nat} {r : Rule} {rules rest : List Rule} {unparsed : Option Span}

/-- A rule that goes as a whole takes with it all that could be planned inside it. -/
theorem plan_within_of_goes (h : Level source lo hi (r :: rest) unparsed) (hgoes : r.verdict u = .remove) :
    (plan v r).Within (plan u r) := by
  rw [plan_eq u, if_pos hgoes]
  constructor
  · intro i hi
    obtain ⟨s, hs, hstart, hstop⟩ := Span.hits_iff.1 hi
    have hinside := h.plan_inside hs
    exact Span.hits_iff.2 ⟨r.span, .head _, by omega, by omega⟩
  · exact plan_count_le_weight v r

/-- With more references, nothing more goes. -/
theorem planAll_within (hsub : u ⊆ v) (h : Level source lo hi rules unparsed) :
    (planAll v rules).Within (planAll u rules) := by
  induction rules using children_induction generalizing lo hi unparsed with
  | nil => exact .refl _
  | cons r rest ihchildren ih =>
    rw [planAll, planAll]
    refine .append ?_ (ih h.tail)
    by_cases hgoes : r.verdict u = .remove
    · exact h.plan_within_of_goes hgoes
    · -- the rule stays with both sets, and both plans are those for the rules inside it
      have hstays : ¬ r.verdict v = .remove := mt (verdict_eq_remove_of_subset hsub) hgoes
      rw [plan_eq u, plan_eq v, if_neg hgoes, if_neg hstays]
      exact ihchildren h.children

end Level

theorem Stylesheet.plan_within (css : Text) (hsub : u ⊆ v) : ((parse css).plan v).Within ((parse css).plan u) :=
  (wellFormed_parse css).planAll_within hsub

theorem removed_prune (css : Text) (u : Usage) : (prune css u).removed = ((Stylesheet.parse css).plan u).count := by
  rw [prune_eq]
  split
  · next hzero => rw [hzero, Pruned.removed]
  · rw [Pruned.removed]

/-! ### The collected set -/

namespace Usage

/-- The set that is collected from tokens that are always kept, the texts of pages and scripts. -/
def ofTexts (alwaysKeep pages scripts : List Text) : Usage :=
  ((keeping alwaysKeep).collect (pages.map .page)).collect (scripts.map .script)

theorem mem_keeping {alwaysKeep : List Text} {t : Text} :
    t ∈ keeping alwaysKeep ↔ ∃ k ∈ alwaysKeep, t ∈ Reference.token k := by
  simp [keeping, empty, mem_def (u := ⟨[], _⟩)]

theorem mem_collect_map {kind : Text → Evidence} {texts : List Text} {t : Text} :
    t ∈ u.collect (texts.map kind) ↔ t ∈ u ∨ ∃ x ∈ texts, t ∈ (kind x).tokens := by
  rw [mem_collect]
  refine or_congr_right ⟨?_, ?_⟩
  · rintro ⟨e, he, ht⟩
    obtain ⟨x, hx, rfl⟩ := List.mem_map.1 he
    exact ⟨x, hx, ht⟩
  · rintro ⟨x, hx, ht⟩
    exact ⟨kind x, List.mem_map_of_mem hx, ht⟩

/-- Each token, page and script adds the same wherever it stands. -/
theorem mem_ofTexts {alwaysKeep pages scripts : List Text} {t : Text} :
    t ∈ ofTexts alwaysKeep pages scripts ↔ (∃ k ∈ alwaysKeep, t ∈ Reference.token k) ∨
      (∃ p ∈ pages, t ∈ pageTokens p) ∨ ∃ s ∈ scripts, t ∈ Context.script.tokens s := by
  rw [ofTexts, mem_collect_map, mem_collect_map, mem_keeping, or_assoc]
  rfl

theorem ofTexts_subset {keep keep' pages pages' scripts scripts' : List Text} (hkeep : keep ⊆ keep')
    (hpages : pages ⊆ pages') (hscripts : scripts ⊆ scripts') :
    ofTexts keep pages scripts ⊆ ofTexts keep' pages' scripts' := by
  intro t ht
  rw [mem_ofTexts] at ht ⊢
  rcases ht with ⟨k, hk, ht⟩ | ⟨p, hp, ht⟩ | ⟨s, hs, ht⟩
  · exact .inl ⟨k, hkeep hk, ht⟩
  · exact .inr (.inl ⟨p, hpages hp, ht⟩)
  · exact .inr (.inr ⟨s, hscripts hs, ht⟩)

end Usage

namespace Directory

/-- The text of the file at a path, if it can be read. -/
def textAt? (d : Directory) (path : Text) : Option Text :=
  match d.read path with
  | .ok content => some content.readable
  | .error _ => none

theorem evidenceIn_fst (d : Directory) (kind : Text → Evidence) (paths : List Text) :
    (d.evidenceIn kind paths).1 = (paths.filterMap d.textAt?).map kind := by
  induction paths with
  | nil => rfl
  | cons path rest ih =>
    rw [evidenceIn, List.filterMap_cons, textAt?]
    cases d.read path with
    | ok content => simp [ih]
    | error fault => simp [ih]

/-- A run collects its set from the texts of the files that can be read. -/
theorem collectUsage_fst (d : Directory) (markup scripts alwaysKeep : List Text) :
    (d.collectUsage markup scripts alwaysKeep).1 =
      .ofTexts alwaysKeep (markup.filterMap d.textAt?) (scripts.filterMap d.textAt?) := by
  simp only [collectUsage, evidenceIn_fst]
  rfl

end Directory

/-- With more references no further byte goes, and the count does not rise: for any two usage sets of
which one holds the other; hence when tokens, pages or scripts are added to the lists that the set is
collected from; and when files are added to those that a run reads. -/
theorem more_references_remove_less (css : Text) :
    (∀ u v : Usage, u ⊆ v → ((Stylesheet.parse css).plan v).Within ((Stylesheet.parse css).plan u) ∧
      (prune css v).removed ≤ (prune css u).removed) ∧
    (∀ keep keep' pages pages' scripts scripts' : List Text, keep ⊆ keep' → pages ⊆ pages' → scripts ⊆ scripts' →
      ((Stylesheet.parse css).plan (.ofTexts keep' pages' scripts')).Within
          ((Stylesheet.parse css).plan (.ofTexts keep pages scripts)) ∧
        (prune css (.ofTexts keep' pages' scripts')).removed ≤ (prune css (.ofTexts keep pages scripts)).removed) ∧
    ∀ (d : Directory) (keep keep' markup markup' scripts scripts' : List Text),
      keep ⊆ keep' → markup ⊆ markup' → scripts ⊆ scripts' →
      ((Stylesheet.parse css).plan (d.collectUsage markup' scripts' keep').1).Within
          ((Stylesheet.parse css).plan (d.collectUsage markup scripts keep).1) ∧
        (prune css (d.collectUsage markup' scripts' keep').1).removed ≤
          (prune css (d.collectUsage markup scripts keep).1).removed := by
  have hsets : ∀ u v : Usage, u ⊆ v → ((Stylesheet.parse css).plan v).Within ((Stylesheet.parse css).plan u) ∧
      (prune css v).removed ≤ (prune css u).removed := by
    intro u v hsub
    have hwithin := Stylesheet.plan_within css hsub
    rw [removed_prune, removed_prune]
    exact ⟨hwithin, hwithin.count⟩
  refine ⟨hsets, fun keep keep' pages pages' scripts scripts' hkeep hpages hscripts => ?_,
    fun d keep keep' markup markup' scripts scripts' hkeep hmarkup hscripts => ?_⟩
  · exact hsets _ _ (Usage.ofTexts_subset hkeep hpages hscripts)
  · rw [d.collectUsage_fst, d.collectUsage_fst]
    exact hsets _ _ (Usage.ofTexts_subset hkeep (List.filterMap_subset _ hmarkup) (List.filterMap_subset _ hscripts))

/-- A script that refers to one of two rules in a group: the group stays, and one rule goes in its place. -/
theorem more_references_remove_less_group :
    [] ⊆ ["$('.a')".toList] ∧
    (Stylesheet.parse "@media p\x7b.a\x7bx:1\x7d.b\x7by:2\x7d\x7d".toList).plan (.ofTexts [] [] []) =
      ⟨[⟨0, 24, by decide⟩], 3⟩ ∧
    (Stylesheet.parse "@media p\x7b.a\x7bx:1\x7d.b\x7by:2\x7d\x7d".toList).plan (.ofTexts [] [] ["$('.a')".toList]) =
      ⟨[⟨16, 23, by decide⟩], 1⟩ ∧
    ((Stylesheet.parse "@media p\x7b.a\x7bx:1\x7d.b\x7by:2\x7d\x7d".toList).plan
        (.ofTexts [] [] ["$('.a')".toList])).Within
      ((Stylesheet.parse "@media p\x7b.a\x7bx:1\x7d.b\x7by:2\x7d\x7d".toList).plan (.ofTexts [] [] [])) := by
  refine ⟨List.nil_subset _, by decide +kernel, by decide +kernel, ?_⟩
  exact ((more_references_remove_less _).2.1 [] [] [] [] [] ["$('.a')".toList] (List.Subset.refl _) (List.Subset.refl _)
    (List.nil_subset _)).1

end Cull
