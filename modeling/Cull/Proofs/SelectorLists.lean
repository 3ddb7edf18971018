import Cull.Proofs.HeaderEnds
import Cull.Proofs.HeaderTokens
import Cull.Proofs.PlanExact

/-!
# Lists of selectors

A comma separates two selectors unless it stands in attribute brackets or in
parentheses. `Selector.entries` cuts a text at these commas only. A plain rule is
cut at every comma, so its selectors are fragments of the entries, and a fragment
can begin or end inside a bracket or a string (`splitOn_entries`). But an entry
begins with a fragment of its own, and no name goes on behind a comma, so the
tokens of that fragment come first among the tokens of the entry
(`exists_fragment`). A rule goes only if all its fragments are unreferenced, and
then each entry has a token that is not in the set.
-/

namespace Cull

open Text

namespace Selector

/-! ### Entries and fragments -/

/-- The entries of the rest of a list of selectors; `depth` is the number of open parentheses, and
`current` the part of the open entry that has been read. -/
def entriesFrom (depth : Nat) (current : Text) : Text → List Text
  | [] => [current]
  | c :: t =>
    if c = '[' then
      have := length_splitAttribute_le none t
      entriesFrom depth (current ++ c :: (splitAttribute none t).1) (splitAttribute none t).2
    else if c = ',' && depth = 0 then current :: entriesFrom depth [] t
    else entriesFrom (depthAfter depth c) (current ++ [c]) t
  termination_by t => t.length
  decreasing_by all_goals simp_wf; try omega

/-- The selectors of a list: the pieces between the commas outside brackets and parentheses. -/
def entries (s : Text) : List Text := entriesFrom 0 [] s

theorem splitOn_entriesFrom (depth : Nat) (current t : Text) :
    (entriesFrom depth current t).flatMap (splitOn (· = ',')) = splitOn (· = ',') (current ++ t) := by
  fun_induction entriesFrom depth current t with
  | case1 depth current => simp
  | case2 depth current t hle ih =>
    rw [ih, List.append_assoc, List.cons_append, splitAttribute_append]
  | case3 depth current c t hbracket hcomma ih =>
    obtain ⟨rfl, -⟩ : c = ',' ∧ depth = 0 := by simpa using hcomma
    rw [List.flatMap_cons, ih, List.nil_append, splitOn_append (decide_eq_true rfl)]
  | case4 depth current c t hbracket hcomma ih =>
    rw [ih, List.append_assoc, List.singleton_append]

/-- Cut at every comma, the entries fall into the fragments of the text. -/
theorem splitOn_entries (s : Text) : (entries s).flatMap (splitOn (· = ',')) = splitOn (· = ',') s :=
  splitOn_entriesFrom 0 [] s

/-- What stands before the first comma is a fragment, and its tokens come first. -/
theorem exists_first_fragment (s : Text) : ∃ f ∈ splitOn (· = ',') s, tokens f <+: tokens s := by
  have hcomma : ∀ c, decide (c = ',') = true → isNameChar c = false := by
    intro c hc
    rw [of_decide_eq_true hc]
    decide
  exact ⟨_, List.mem_of_head? (head?_splitOn (· = ',') s), tokens_takeWhile_isPrefix hcomma s⟩

/-- Every entry begins with a fragment of the text. -/
theorem exists_fragment {s e : Text} (he : e ∈ entries s) : ∃ f ∈ splitOn (· = ',') s, tokens f <+: tokens e := by
  obtain ⟨f, hf, htokens⟩ := exists_first_fragment e
  rw [← splitOn_entries s]
  exact ⟨f, List.mem_flatMap.2 ⟨e, he, hf⟩, htokens⟩

end Selector

/-! ### Rules -/

theorem Verdict.eq_keep_of_ne {v : Verdict} (h : v ≠ .remove) : v = .keep := by
  cases v with
  | keep => rfl
  | remove => exact absurd rfl h

namespace PlainRule

/-- The trimmed text in front of the opening brace. -/
def selectorText (r : PlainRule) : Text := trim (r.text.takeWhile (· ≠ '\x7b'))

end PlainRule

namespace Stylesheet

theorem selectorText_of_plainRule {pos : Nat} {header body : Text} {r : PlainRule}
    (hheader : ∀ c ∈ header, c ≠ '\x7b') (h : plainRule? pos header body = some r) :
    r.selectorText = trim header ∧ r.selectors = (splitOn (· = ',') (trim header)).map trim := by
  have hp : ∀ c ∈ header, decide (c ≠ '\x7b') = true := fun c hc => decide_eq_true (hheader c hc)
  unfold plainRule? at h
  split at h
  · cases h
  · cases h
    refine ⟨?_, rfl⟩
    show trim ((header ++ '\x7b' :: (body ++ ['}'])).takeWhile (· ≠ '\x7b')) = trim header
    rw [List.takeWhile_append_of_pos hp, List.takeWhile_cons_of_neg (by simp), List.append_nil]

/-- The selectors of a rule are the pieces of its selector text between all commas. -/
theorem selectors_eq {source : Text} {r : PlainRule} (hr : .plain r ∈ (parse source).nodes) :
    r.selectors = (splitOn (· = ',') r.selectorText).map trim := by
  obtain ⟨pos, t, c, rest, hc, hr⟩ := exists_construct_of_mem_nodesAll hr
  obtain ⟨header, body, rfl, hrule⟩ := Construct.eq_plain_of_plain_mem hr
  rcases readConstruct_cases hc with ⟨_, _, ⟨⟩, _⟩ | ⟨_, _, ⟨⟩, _⟩ | ⟨_, ⟨⟩, _⟩ | ⟨_, _, _, _, ⟨⟩, -, hread, -⟩
  obtain ⟨htext, hselectors⟩ := selectorText_of_plainRule (readPlain_eq_some hread).1 hrule
  rw [hselectors, htext]

/-- If a rule goes, a text that begins with one of its fragments has a token that is not in the set. -/
theorem exists_unused_token {source : Text} {r : PlainRule} {u : Usage} (hr : .plain r ∈ (parse source).nodes)
    (hgoes : r.verdict u = .remove) {s f : Text} (hf : f ∈ splitOn (· = ',') r.selectorText)
    (hfirst : Selector.tokens f <+: Selector.tokens s) : ∃ t ∈ Selector.tokens s, t ∉ u := by
  have hselectors := selectors_eq hr
  have hunreferenced := (PlainRule.verdict_eq_remove_iff (selecting_readRules 0 source r hr)).1 hgoes
  have hmem : trim f ∈ r.selectors := by
    rw [hselectors]
    exact List.mem_map_of_mem hf
  obtain ⟨hne, hunused⟩ := hunreferenced _ hmem
  rw [Selector.tokens_trim] at hne hunused
  obtain ⟨t, ht⟩ := List.exists_mem_of_ne_nil _ hne
  exact ⟨t, hfirst.subset ht, hunused t ht⟩

/-- The verdict looks at the fragments between all commas of the selector text. Still, a rule goes only
if each selector between the commas outside brackets and parentheses has a token that is not in the
set; so it stays if the whole text has no token, or if all tokens of one of these selectors are in
the set. -/
theorem fragments_judge_entries {source : Text} {r : PlainRule} (hr : .plain r ∈ (parse source).nodes) (u : Usage) :
    r.selectors = (Selector.entries r.selectorText).flatMap (fun s => (splitOn (· = ',') s).map trim) ∧
    (r.verdict u = .remove → ∀ s ∈ Selector.entries r.selectorText, ∃ t ∈ Selector.tokens s, t ∉ u) ∧
    (Selector.tokens r.selectorText = [] → r.verdict u = .keep) ∧
    ∀ s ∈ Selector.entries r.selectorText, (∀ t ∈ Selector.tokens s, t ∈ u) → r.verdict u = .keep := by
  have hentries : r.verdict u = .remove → ∀ s ∈ Selector.entries r.selectorText, ∃ t ∈ Selector.tokens s, t ∉ u := by
    intro hgoes s hs
    obtain ⟨f, hf, hfirst⟩ := Selector.exists_fragment hs
    exact exists_unused_token hr hgoes hf hfirst
  refine ⟨?_, hentries, fun hnone => ?_, fun s hs hused => ?_⟩
  · rw [selectors_eq hr, ← Selector.splitOn_entries, List.map_flatMap]
  · refine Verdict.eq_keep_of_ne fun hgoes => ?_
    obtain ⟨f, hf, hfirst⟩ := Selector.exists_first_fragment r.selectorText
    obtain ⟨t, ht, -⟩ := exists_unused_token hr hgoes hf hfirst
    rw [hnone] at ht
    cases ht
  · refine Verdict.eq_keep_of_ne fun hgoes => ?_
    obtain ⟨t, ht, hunused⟩ := hentries hgoes s hs
    exact hunused (hused t ht)

/-- Two selectors in four fragments, of which two begin inside parentheses and inside a string. -/
theorem fragments_judge_entries_brackets :
    ∃ r, .plain r ∈ (parse ".x:is(.p,.q),#b[c=\"d,.e\"]\x7bf:1\x7d".toList).nodes ∧
      r.selectors = [".x:is(.p".toList, ".q)".toList, "#b[c=\"d".toList, ".e\"]".toList] ∧
      Selector.entries r.selectorText = [".x:is(.p,.q)".toList, "#b[c=\"d,.e\"]".toList] ∧
      r.verdict (.ofList [".k".toList]) = .remove ∧
      (∀ s ∈ Selector.entries r.selectorText, ∃ t ∈ Selector.tokens s, t ∉ Usage.ofList [".k".toList]) ∧
      r.verdict (.ofList ["#b".toList]) = .keep := by
  have hread : readConstruct ".x:is(.p,.q),#b[c=\"d,.e\"]\x7bf:1\x7d".toList =
      some (.plain ".x:is(.p,.q),#b[c=\"d,.e\"]".toList "f:1".toList, []) := by
    decide +kernel
  obtain ⟨r, hr⟩ : ∃ r, plainRule? 0 ".x:is(.p,.q),#b[c=\"d,.e\"]".toList "f:1".toList = some r := ⟨_, rfl⟩
  have hrule : .plain r ∈ (Construct.plain ".x:is(.p,.q),#b[c=\"d,.e\"]".toList "f:1".toList).rules 0 := by
    rw [Construct.rules, hr]
    exact List.mem_singleton.2 rfl
  have hnode := (readFrom_front hread hrule).1
  cases hr
  have hentries : Selector.entries ".x:is(.p,.q),#b[c=\"d,.e\"]".toList =
      [".x:is(.p,.q)".toList, "#b[c=\"d,.e\"]".toList] := by
    decide +kernel
  have hgoes := (fragments_judge_entries hnode (.ofList [".k".toList])).2.1
  have hstays := (fragments_judge_entries hnode (.ofList ["#b".toList])).2.2.2 "#b[c=\"d,.e\"]".toList
  refine ⟨_, hnode, by decide +kernel, hentries, by decide +kernel, hgoes (by decide +kernel), hstays ?_ fun t ht => ?_⟩
  · exact hentries ▸ .tail _ (.head _)
  · have htokens : Selector.tokens "#b[c=\"d,.e\"]".toList = ["#b".toList] := by decide +kernel
    rw [htokens, List.mem_singleton] at ht
    subst ht
    exact Usage.contains_iff.1 (by decide +kernel)

end Stylesheet

end Cull
