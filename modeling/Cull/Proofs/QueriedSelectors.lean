import Cull.Proofs.Matching
import Cull.Proofs.SelectorLists
import Cull.Usage.Collection

/-!
# Selectors that scripts ask for

A rule for scripts looks for a quoted text behind a call. Neither the call nor the text holds
a quotation mark, so the quoted text is what stands between the first two quotation marks,
wherever a match begins (`eq_of_splits`). If nothing is quoted before a call, the text behind it
is therefore captured whole, whatever else the text before might have begun
(`mem_captures_quoted`). For the rules that read it as a selector, all its tokens come into the
set.

The selectors of a stylesheet are cut at every comma, and so may be cut inside brackets of the
text that was asked for. But the first of them begins where that text begins, and all its tokens
are tokens of that text, so a rule with the text for its selectors stays.
-/

namespace Cull

open Text Stylesheet

/-! ### Between two quotation marks -/

namespace Text

/-- The text holds no quotation mark. -/
def Unquoted (t : Text) : Prop := ∀ c ∈ t, isQuote c = false

instance (t : Text) : Decidable (Unquoted t) := List.decidableBAll _ t

theorem Unquoted.append {s t : Text} (hs : Unquoted s) (ht : Unquoted t) : Unquoted (s ++ t) :=
  List.forall_mem_append.2 ⟨hs, ht⟩

theorem takeWhile_append_quote {s t : Text} {q : Char} (hs : Unquoted s) (hq : isQuote q = true) :
    (s ++ q :: t).takeWhile (!isQuote ·) = s := by
  rw [List.takeWhile_append_of_pos fun c hc => by rw [hs c hc]; rfl, List.takeWhile_cons_of_neg (by simp [hq]),
    List.append_nil]

/-- A text can be cut at its first quotation mark in one way. -/
theorem eq_of_append_quote {s s' t t' : Text} {q q' : Char} (hs : Unquoted s) (hs' : Unquoted s')
    (hq : isQuote q = true) (hq' : isQuote q' = true) (h : s ++ q :: t = s' ++ q' :: t') : s = s' ∧ t = t' := by
  have hfront : s = s' := by rw [← takeWhile_append_quote hs hq (t := t), h, takeWhile_append_quote hs' hq']
  subst hfront
  exact ⟨rfl, (List.cons.inj (List.append_cancel_left h)).2⟩

end Text

namespace Pattern

/-- The pattern stands for no word with a quotation mark. -/
def avoidsQuotes (p : Pattern) : Bool := p.avoids '"' && p.avoids '\''

theorem unquoted_of_matches {p : Pattern} (h : p.avoidsQuotes = true) {w : Text} (hw : p.Matches w) : Unquoted w := by
  obtain ⟨hdouble, hsingle⟩ := Bool.and_eq_true_iff.1 h
  intro c hc
  rw [Bool.eq_false_iff, isQuote, ne_eq, Bool.or_eq_true, decide_eq_true_eq, decide_eq_true_eq]
  rintro (rfl | rfl)
  · exact not_mem_of_avoids hdouble hw hc
  · exact not_mem_of_avoids hsingle hw hc

end Pattern

namespace Extraction

open Pattern

variable {lead body : Pattern} {front call value post : Text} {q q' : Char}

/-- What is captured in quotation marks is what stands between the first two. -/
theorem eq_of_splits (hlead : lead.avoidsQuotes = true) (hbody : body.avoidsQuotes = true) (hfront : Unquoted front)
    (hvalue : Unquoted value) (hq : isQuote q = true) (hq' : isQuote q' = true) {value' rest : Text}
    (h : (⟨seq lead quote, body, quote⟩ : Capture).Splits (front ++ q :: (value ++ q' :: post)) value' rest) :
    value' = value := by
  obtain ⟨x, y, ⟨x', z, hx, ⟨r, hr, rfl⟩, rfl⟩, hvalue', ⟨r', hr', rfl⟩, htext⟩ := h
  rw [List.append_assoc] at htext
  obtain ⟨-, hbehind⟩ := eq_of_append_quote hfront (unquoted_of_matches hlead hx) hq hr htext
  obtain ⟨hsame, -⟩ := eq_of_append_quote hvalue (unquoted_of_matches hbody hvalue') hq' hr' hbehind
  exact hsame.symm

/-- A quoted text behind a call is captured, if there is no quotation mark before. -/
theorem mem_captures_quoted (hlead : lead.avoidsQuotes = true) (hbody : body.avoidsQuotes = true)
    (hfront : Unquoted front) (hcall : lead.Matches call) (hvalue : body.Matches value) (hq : isQuote q = true)
    (hq' : isQuote q' = true) :
    value ∈ (⟨seq lead quote, body, quote⟩ : Capture).captures (front ++ (call ++ q :: (value ++ q' :: post))) := by
  have hsplits : (⟨seq lead quote, body, quote⟩ : Capture).Splits (call ++ q :: (value ++ q' :: post)) value post := by
    refine ⟨call ++ [q], [q'], ⟨call, [q], hcall, ⟨q, hq, rfl⟩, rfl⟩, hvalue, ⟨q', hq', rfl⟩, ?_⟩
    rw [List.append_assoc]
    rfl
  refine Capture.mem_captures (by simp) hsplits fun s hs value' rest' hother => ?_
  -- a match that begins earlier has the same opening mark
  have hs : Unquoted s := fun c hc => hfront c (hs.subset hc)
  rw [← List.append_assoc] at hother
  exact eq_of_splits hlead hbody (hs.append (unquoted_of_matches hlead hcall)) (unquoted_of_matches hbody hvalue) hq hq'
    hother

/-! ### Rules that read selectors -/

/-- A rule for scripts takes a text of a kind for a selector if it is quoted behind a lead. -/
structure ReadsSelector (lead body : Pattern) : Prop where
  /-- There is such a rule. -/
  rule : ∃ r ∈ rulesFor .script, r.pattern = ⟨seq lead quote, body, quote⟩ ∧ r.reading = .selector
  /-- The lead holds no quotation mark. -/
  lead : lead.avoidsQuotes = true
  /-- Nor does the text. -/
  body : body.avoidsQuotes = true

theorem readsSelector_of_find? (name : String)
    (h : (rulesFor .script).find? (·.name = name) = some ⟨name, .script, ⟨seq lead quote, body, quote⟩, .selector⟩)
    (hlead : lead.avoidsQuotes = true) (hbody : body.avoidsQuotes = true) : ReadsSelector lead body :=
  ⟨⟨_, List.mem_of_find?_eq_some h, rfl, rfl⟩, hlead, hbody⟩

theorem ReadsSelector.tokens_subset (h : ReadsSelector lead body) (hfront : Unquoted front)
    (hcall : lead.Matches call) (hvalue : body.Matches value) (hq : isQuote q = true) (hq' : isQuote q' = true) :
    Selector.tokens value ⊆ Context.script.tokens (front ++ (call ++ q :: (value ++ q' :: post))) := by
  obtain ⟨r, hr, hpattern, hreading⟩ := h.rule
  have hcaptured : value ∈ r.captures (front ++ (call ++ q :: (value ++ q' :: post))) := by
    rw [captures, hpattern]
    exact mem_captures_quoted h.lead h.body hfront hcall hvalue hq hq'
  intro t ht
  refine List.mem_flatMap.2 ⟨r, hr, List.mem_flatMap.2 ⟨value, hcaptured, ?_⟩⟩
  rw [hreading]
  exact List.mem_append_right _ ht

/-- What comes before the selector of a query. -/
def queryLead : Pattern := all [word "querySelector", optional (word "All"), char '(', blanks]

/-- What comes before the selector of a step from one element to others. -/
def stepLead : Pattern := all [char '.', traversal, char '(']

/-- What comes before the selector under a key. -/
def keyLead : Pattern :=
  all [oneOf [word "itemSelector", word "selector", word "filter", word "class"], blanks, char ':', blanks]

/-- The calls that ask for elements by a selector of any form. -/
def queryCalls : List Text := ["querySelector(", "querySelectorAll("].map String.toList

/-- The calls and keys that come before a selector if it begins with a mark. -/
def markedCalls : List Text :=
  ["$(", ".find(", ".filter(", ".closest(", ".parent(", ".children(", ".siblings(", ".next(", ".prev(", "itemSelector:",
    "selector:"].map String.toList

theorem exists_lead_of_queryCall (h : call ∈ queryCalls) :
    ∃ lead, ReadsSelector lead unquoted ∧ lead.Matches call := by
  have hwhole : ∀ call ∈ queryCalls, queryLead.rest? call = some [] := by decide +kernel
  have hreads : ReadsSelector queryLead unquoted := readsSelector_of_find? "query-selector" rfl rfl rfl
  exact ⟨queryLead, hreads, matches_of_rest? (hwhole call h)⟩

theorem exists_lead_of_markedCall (h : call ∈ markedCalls) :
    ∃ lead, ReadsSelector lead (seq mark unquoted) ∧ lead.Matches call := by
  have hwhole : ∀ call ∈ markedCalls,
      (word "$(").rest? call = some [] ∨ stepLead.rest? call = some [] ∨ keyLead.rest? call = some [] := by
    decide +kernel
  rcases hwhole call h with hdollar | hstep | hkey
  · exact ⟨word "$(", readsSelector_of_find? "jquery" rfl rfl rfl, matches_of_rest? hdollar⟩
  · exact ⟨stepLead, readsSelector_of_find? "traversal" rfl rfl rfl, matches_of_rest? hstep⟩
  · exact ⟨keyLead, readsSelector_of_find? "config-key" rfl rfl rfl, matches_of_rest? hkey⟩

theorem matches_unquoted {s : Text} (hne : s ≠ []) (hs : Unquoted s) : unquoted.Matches s := by
  cases s with
  | nil => exact absurd rfl hne
  | cons c s =>
    have haccepts : ∀ d ∈ c :: s, (!isQuote d) = true := fun d hd => by rw [hs d hd]; rfl
    exact ⟨[c], s, ⟨c, haccepts c (.head _), rfl⟩, fun d hd => haccepts d (.tail _ hd), rfl⟩

theorem matches_marked {c : Char} {s : Text} (hc : Reference.isMark c = true) (hne : s ≠ []) (hs : Unquoted s) :
    (seq mark unquoted).Matches (c :: s) :=
  ⟨[c], s, ⟨c, hc, rfl⟩, matches_unquoted hne hs, rfl⟩

/-- A selector can stand quoted behind a call: any behind a query, one with a mark behind the others. -/
def Accepts (call sel : Text) : Prop :=
  call ∈ queryCalls ∨ call ∈ markedCalls ∧ Reference.isMarked sel = true

/-- The tokens of a selector that a script asks for are found. -/
theorem tokens_subset_script {pre sel : Text} (hpre : Unquoted pre) (hsel : Unquoted sel) (haccepts : Accepts call sel)
    (hq : isQuote q = true) (hq' : isQuote q' = true) :
    Selector.tokens sel ⊆ Context.script.tokens (pre ++ (call ++ q :: (sel ++ q' :: post))) := by
  rcases haccepts with hcall | ⟨hcall, hmarked⟩
  · obtain ⟨lead, hreads, hlead⟩ := exists_lead_of_queryCall hcall
    by_cases hne : sel = []
    · rw [hne, Selector.tokens_nil]
      exact List.nil_subset _
    · exact hreads.tokens_subset hpre hlead (matches_unquoted hne hsel) hq hq'
  · obtain ⟨lead, hreads, hlead⟩ := exists_lead_of_markedCall hcall
    cases sel with
    | nil => exact absurd hmarked (by decide)
    | cons c s =>
      have hc : Reference.isMark c = true := hmarked
      by_cases hne : s = []
      · -- a bare mark is not captured, but it has no tokens
        rw [hne, Selector.tokens_mark (by simpa [Reference.isMark] using hc), List.takeWhile_nil, List.dropWhile_nil,
          Selector.tokens_nil]
        exact List.nil_subset _
      · have hs : Unquoted s := fun d hd => hsel d (.tail _ hd)
        exact hreads.tokens_subset hpre hlead (matches_marked hc hne hs) hq hq'

end Extraction

/-- A rule stays if all tokens of its selector text are in the set. -/
theorem Stylesheet.verdict_eq_keep_of_tokens_mem {css : Text} {r : PlainRule} (hr : .plain r ∈ (parse css).nodes)
    {u : Usage} (h : ∀ t ∈ Selector.tokens r.selectorText, t ∈ u) : r.verdict u = .keep := by
  refine Verdict.eq_keep_of_ne fun hgoes => ?_
  obtain ⟨f, hf, hfirst⟩ := Selector.exists_first_fragment r.selectorText
  obtain ⟨t, ht, hunused⟩ := exists_unused_token hr hgoes hf hfirst
  exact hunused (h t ht)

/-- If a script asks for a selector in quotation marks, and nothing is quoted before, all tokens of the
selector are in the set from then on, whatever has been and will be collected; and every rule of a
stylesheet that has it for its selector text stays. -/
theorem queried_selectors_kept {pre call sel : Text} (post : Text) {q q' : Char} (hpre : Unquoted pre)
    (hsel : Unquoted sel) (hcall : Extraction.Accepts call sel) (hq : isQuote q = true) (hq' : isQuote q' = true)
    (u : Usage) (later : List Evidence) :
    let v := (u.add (.script (pre ++ (call ++ q :: (sel ++ q' :: post))))).collect later
    (∀ t ∈ Selector.tokens sel, t ∈ v) ∧
      ∀ css r, .plain r ∈ (parse css).nodes → r.selectorText = trim sel → r.verdict v = .keep := by
  intro v
  have hmem : ∀ t ∈ Selector.tokens sel, t ∈ v := fun t ht =>
    Usage.mem_collect.2 (.inl (Usage.mem_add.2 (.inr (Extraction.tokens_subset_script hpre hsel hcall hq hq' ht))))
  refine ⟨hmem, fun css r hr htext => verdict_eq_keep_of_tokens_mem hr ?_⟩
  rw [htext, Selector.tokens_trim]
  exact hmem

/-- The commas of the stylesheet cut the selector inside its brackets, and the text before the call
begins a match of its own. -/
theorem queried_selectors_kept_brackets :
    ∃ r, .plain r ∈ (parse ".x:is(.p,.q)>#b[c=d]\x7bf:1\x7d".toList).nodes ∧
      r.selectors = [".x:is(.p".toList, ".q)>#b[c=d]".toList] ∧
      r.verdict .empty = .remove ∧
      r.verdict (Usage.empty.add (.script "$(.find('.x:is(.p,.q)>#b[c=d]') + '.y'".toList)) = .keep ∧
      ∀ t ∈ [".x".toList, ".p".toList, ".q".toList, "#b".toList],
        t ∈ Usage.empty.add (.script "$(.find('.x:is(.p,.q)>#b[c=d]') + '.y'".toList) := by
  have hread : readConstruct ".x:is(.p,.q)>#b[c=d]\x7bf:1\x7d".toList =
      some (.plain ".x:is(.p,.q)>#b[c=d]".toList "f:1".toList, []) := by
    decide +kernel
  obtain ⟨r, hr⟩ : ∃ r, plainRule? 0 ".x:is(.p,.q)>#b[c=d]".toList "f:1".toList = some r := ⟨_, rfl⟩
  have hrule : .plain r ∈ (Construct.plain ".x:is(.p,.q)>#b[c=d]".toList "f:1".toList).rules 0 := by
    rw [Construct.rules, hr]
    exact List.mem_singleton.2 rfl
  have hnode := (readFrom_front hread hrule).1
  cases hr
  obtain ⟨hmem, hkeep⟩ := @queried_selectors_kept "$(".toList ".find(".toList ".x:is(.p,.q)>#b[c=d]".toList
    ") + '.y'".toList '\'' '\'' (by decide +kernel) (by decide +kernel) (.inr ⟨by decide +kernel, by decide +kernel⟩)
    (by decide) (by decide) .empty []
  have htokens : Selector.tokens ".x:is(.p,.q)>#b[c=d]".toList =
      [".x".toList, ".p".toList, ".q".toList, "#b".toList] := by
    decide +kernel
  exact ⟨_, hnode, by decide +kernel, by decide +kernel, hkeep _ _ hnode (by decide +kernel), htokens ▸ hmem⟩

end Cull
