import Cull.Proofs.BlankLines
import Cull.Proofs.Pieces
import Cull.Proofs.SelectorTokens
import Cull.Stylesheet.Parser

/-!
# Tokens of a header

All that the verdict on a plain rule needs to know of the header are the tokens
of each selector. They do not depend on the blanks around the header and around
its selectors (`tokens_selectors`), nor on blanks that are spare
(`headerTokens_squeeze`).
-/

namespace Cull.Selector

open Text

/-! ### Tokens of squeezed text -/

theorem splitAttribute_quoted {q c : Char} (hc : c ≠ '\\') (t : Text) :
    (splitAttribute (some q) (c :: t)).2 = (splitAttribute (if c = q then none else some q) t).2 := by
  rw [splitAttribute.eq_def]
  simp [hc]

theorem splitAttribute_unquoted {c : Char} (hc : c ≠ ']') (t : Text) :
    (splitAttribute none (c :: t)).2 = (splitAttribute (if c = '"' || c = '\'' then some c else none) t).2 := by
  rw [splitAttribute.eq_def]
  simp [hc]

/-- What follows an attribute is squeezed as a text of its own. -/
theorem splitAttribute_squeeze {quote : Option Char} (hquote : ∀ q ∈ quote, isBlank q = false) (k j : Nat) (t : Text) :
    (splitAttribute quote (squeeze k j t)).2 = squeeze 0 j (splitAttribute quote t).2 := by
  fun_induction splitAttribute quote t generalizing k with
  | case1 quote => simp [splitAttribute]
  | case2 q => simp [squeeze_solid (c := '\\') (by decide), splitAttribute]
  | case3 q d t a rest hrec ih =>
    rw [hrec] at ih
    rw [squeeze_solid (by decide), squeeze_zero_cons]
    simp [splitAttribute, ih hquote]
  | case4 c t q hc a rest hrec ih =>
    rw [hrec] at ih
    have hnext : ∀ q' ∈ (if c = q then none else some q), isBlank q' = false := by
      intro q' hq'
      split at hq'
      · cases hq'
      · exact hquote q' hq'
    rw [squeeze]
    split
    · next hspare =>
      -- a blank closes no quotation
      rw [if_neg (ne_of_isSpare hspare (hquote q rfl))] at ih
      exact ih hquote _
    · rw [splitAttribute_quoted hc]
      exact ih hnext _
  | case5 t =>
    rw [squeeze_solid (by decide)]
    simp [splitAttribute]
  | case6 c t hc a rest hrec ih =>
    rw [hrec] at ih
    have hnext : ∀ q ∈ (if c = '"' || c = '\'' then some c else none), isBlank q = false := by
      intro q hq
      split at hq
      · next hmark =>
        cases hq
        simp only [Bool.or_eq_true, decide_eq_true_eq] at hmark
        rcases hmark with rfl | rfl
        · rfl
        · rfl
      · cases hq
    rw [squeeze]
    split
    · next hspare =>
      have hmark : ¬(c = '"' || c = '\'') = true := by
        simp [ne_of_isSpare hspare (m := '"') (by decide), ne_of_isSpare hspare (m := '\'') (by decide)]
      rw [if_neg hmark] at ih
      exact ih (by simp) _
    · rw [splitAttribute_unquoted hc]
      exact ih hnext _

theorem tokens_squeeze (k j : Nat) (t : Text) : tokens (squeeze k j t) = tokens t := by
  induction hn : t.length using Nat.strongRecOn generalizing k t with
  | ind n ih =>
    subst hn
    cases t with
    | nil => rfl
    | cons c t =>
      by_cases hbracket : c = '['
      · subst hbracket
        have hle := length_splitAttribute_le none t
        rw [squeeze_solid (by decide), tokens_bracket, tokens_bracket, splitAttribute_squeeze (by simp),
          ih _ (by rw [List.length_cons]; omega) 0 _ rfl]
      by_cases hmark : c = '.' ∨ c = '#'
      · have hc : isBlank c = false := by
          rcases hmark with rfl | rfl
          · rfl
          · rfl
        have hle := (List.dropWhile_sublist (l := t) isNameChar).length_le
        rw [squeeze_solid hc, tokens_mark hmark, tokens_mark hmark, takeWhile_squeeze (by decide),
          dropWhile_squeeze (by decide), ih _ (by rw [List.length_cons]; omega) 0 _ rfl]
      · rw [tokens_skip hbracket hmark, squeeze]
        split
        · exact ih _ (by simp) _ t rfl
        · rw [tokens_skip hbracket hmark]
          exact ih _ (by simp) _ t rfl

/-! ### Blanks behind a selector -/

theorem tokens_blanks {b : Text} (hb : ∀ c ∈ b, isBlank c = true) : tokens b = [] := by
  induction b with
  | nil => rw [tokens_nil]
  | cons c b ih => rw [tokens_blank (hb c (.head _)), ih fun d hd => hb d (.tail _ hd)]

/-- What follows an attribute that takes a whole text, in a longer one, is part of the addition. -/
theorem splitAttribute_append_subset {quote : Option Char} {t : Text} (h : (splitAttribute quote t).2 = []) (b : Text) :
    (splitAttribute quote (t ++ b)).2 ⊆ b := by
  have hsuffix : ∀ quote t, (splitAttribute quote t).2 ⊆ t := by
    intro quote t c hc
    rw [← splitAttribute_append quote t]
    exact List.mem_append_right _ hc
  fun_induction splitAttribute quote t with
  | case1 quote => exact hsuffix quote b
  | case2 q =>
    cases b with
    | nil => simp [splitAttribute]
    | cons d b =>
      have hb : (splitAttribute (some q) ('\\' :: d :: b)).2 = (splitAttribute (some q) b).2 := by simp [splitAttribute]
      exact fun c hc => .tail _ (hsuffix (some q) b (hb ▸ hc))
  | case3 q d t a rest hrec ih =>
    rw [hrec] at ih
    simpa [splitAttribute] using ih h
  | case4 c t q hc a rest hrec ih =>
    rw [hrec] at ih
    rw [List.cons_append, splitAttribute_quoted hc]
    exact ih h
  | case5 t =>
    subst h
    simp [splitAttribute]
  | case6 c t hc a rest hrec ih =>
    rw [hrec] at ih
    rw [List.cons_append, splitAttribute_unquoted hc]
    exact ih h

theorem tokens_append_blanks (w : Text) {b : Text} (hb : ∀ c ∈ b, isBlank c = true) : tokens (w ++ b) = tokens w := by
  have hends : NameEnds b := by
    cases b with
    | nil => rfl
    | cons c b => exact nameEnds_cons (isNameChar_of_isBlank (hb c (.head _)))
  fun_induction tokens w with
  | case1 => exact tokens_blanks hb
  | case2 w hle ih =>
    rw [List.cons_append, tokens_bracket]
    rcases splitAttribute_closed none w with hopen | hclosed
    · rw [hopen, tokens_nil]
      exact tokens_blanks fun c hc => hb c (splitAttribute_append_subset hopen b hc)
    · have hsplit := hclosed ((splitAttribute none w).2 ++ b)
      rw [← List.append_assoc, splitAttribute_append] at hsplit
      rw [hsplit]
      exact ih
  | case3 c w hbracket hmark hle name rest hempty ih =>
    rw [List.cons_append, tokens_mark_append (by simpa using hmark) w hends, if_pos hempty]
    exact ih
  | case4 c w hbracket hmark hle name rest hname ih =>
    rw [List.cons_append, tokens_mark_append (by simpa using hmark) w hends, if_neg hname]
    exact congrArg _ ih
  | case5 c w hbracket hmark ih =>
    rw [List.cons_append, tokens_skip hbracket (by simpa using hmark)]
    exact ih

theorem tokens_blanks_append {b : Text} (hb : ∀ c ∈ b, isBlank c = true) (w : Text) : tokens (b ++ w) = tokens w := by
  induction b with
  | nil => rfl
  | cons c b ih => rw [List.cons_append, tokens_blank (hb c (.head _)), ih fun d hd => hb d (.tail _ hd)]

/-- A text is what trimming leaves of it, with blanks before and behind. -/
theorem exists_trim (t : Text) :
    ∃ b b', t = b ++ (trim t ++ b') ∧ (∀ c ∈ b, isBlank c = true) ∧ ∀ c ∈ b', isBlank c = true := by
  have hstart := List.takeWhile_append_dropWhile (p := isBlank) (l := t)
  have hstop := List.takeWhile_append_dropWhile (p := isBlank) (l := (trimStart t).reverse)
  refine ⟨t.takeWhile isBlank, ((trimStart t).reverse.takeWhile isBlank).reverse, ?_, ?_, ?_⟩
  · rw [trim, trimEnd, ← List.reverse_append, hstop, List.reverse_reverse, trimStart, hstart]
  · exact List.all_eq_true.1 List.all_takeWhile
  · intro c hc
    exact List.all_eq_true.1 List.all_takeWhile c (List.mem_reverse.1 hc)

theorem tokens_trim (t : Text) : tokens (trim t) = tokens t := by
  obtain ⟨b, b', ht, hb, hb'⟩ := exists_trim t
  rw [ht, tokens_blanks_append hb, tokens_append_blanks _ hb', ← ht]

/-! ### Selectors of a header -/

/-- The tokens of each selector of a header. -/
def headerTokens (header : Text) : List (List Text) := (splitOn (· = ',') header).map tokens

theorem headerTokens_last {w : Text} (hw : ',' ∉ w) : headerTokens w = [tokens w] := by
  have hcomma : ∀ c ∈ w, decide (c = ',') = false := fun c hc => decide_eq_false fun h => hw (h ▸ hc)
  rw [headerTokens, splitOn_eq_singleton hcomma, List.map_singleton]

theorem headerTokens_append {w : Text} (hw : ',' ∉ w) (t : Text) :
    headerTokens (w ++ ',' :: t) = tokens w :: headerTokens t := by
  rw [headerTokens, splitOn_append (decide_eq_true rfl), List.map_append, ← headerTokens, headerTokens_last hw,
    List.singleton_append, headerTokens]

/-- Induction along the selectors of a header. -/
theorem selector_induction {motive : Text → Prop} (last : ∀ w, ',' ∉ w → motive w)
    (more : ∀ w t, ',' ∉ w → motive t → motive (w ++ ',' :: t)) (t : Text) : motive t := by
  induction hn : t.length using Nat.strongRecOn generalizing t with
  | ind n ih =>
    subst hn
    by_cases hcomma : ',' ∈ t
    · obtain ⟨w, t, rfl, hw⟩ := List.eq_append_cons_of_mem hcomma
      exact more w t hw (ih t.length (by rw [List.length_append, List.length_cons]; omega) t rfl)
    · exact last t hcomma

theorem headerTokens_squeeze (k j : Nat) (t : Text) : headerTokens (squeeze k j t) = headerTokens t := by
  have hcomma : ∀ k j w, ',' ∉ w → ',' ∉ squeeze k j w := fun k j w hw h => hw ((squeeze_sublist k j w).subset h)
  induction t using selector_induction generalizing k with
  | last w hw => rw [headerTokens_last hw, headerTokens_last (hcomma k j w hw), tokens_squeeze]
  | more w t hw ih =>
    rw [squeeze_append, newlinesAhead_solid (by decide), squeeze_solid (by decide), headerTokens_append hw,
      headerTokens_append (hcomma k 0 w hw), tokens_squeeze, ih]

theorem headerTokens_blanks_append {b : Text} (hb : ∀ c ∈ b, isBlank c = true) (t : Text) :
    headerTokens (b ++ t) = headerTokens t := by
  have hcomma : ',' ∉ b := fun h => absurd (hb ',' h) (by decide)
  cases t using selector_induction with
  | last w hw =>
    rw [headerTokens_last hw, headerTokens_last (by simp [hcomma, hw]), tokens_blanks_append hb]
  | more w t hw =>
    rw [headerTokens_append hw, ← List.append_assoc, headerTokens_append (by simp [hcomma, hw]),
      tokens_blanks_append hb]

theorem headerTokens_append_blanks (t : Text) {b : Text} (hb : ∀ c ∈ b, isBlank c = true) :
    headerTokens (t ++ b) = headerTokens t := by
  have hcomma : ',' ∉ b := fun h => absurd (hb ',' h) (by decide)
  induction t using selector_induction with
  | last w hw =>
    rw [headerTokens_last hw, headerTokens_last (by simp [hcomma, hw]), tokens_append_blanks w hb]
  | more w t hw ih =>
    rw [headerTokens_append hw, List.append_assoc, List.cons_append, headerTokens_append hw, ih]

/-- The selectors of a header are trimmed, which leaves their tokens as they are. -/
theorem tokens_selectors (header : Text) :
    ((splitOn (· = ',') (trim header)).map trim).map tokens = headerTokens header := by
  obtain ⟨b, b', hheader, hb, hb'⟩ := exists_trim header
  have htrim : headerTokens (trim header) = headerTokens header := by
    rw [hheader, headerTokens_blanks_append hb, headerTokens_append_blanks _ hb', ← hheader]
  rw [← htrim, headerTokens, List.map_map]
  exact List.map_congr_left fun w _ => tokens_trim w

/-! ### Blank text -/

theorem trim_eq_nil_iff {t : Text} : trim t = [] ↔ ∀ c ∈ t, isBlank c = true := by
  obtain ⟨b, b', ht, hb, hb'⟩ := exists_trim t
  constructor
  · intro h c hc
    rw [ht, h, List.nil_append, List.mem_append] at hc
    exact hc.elim (hb c) (hb' c)
  · intro h
    have hstart : (t ++ []).dropWhile isBlank = [] := List.dropWhile_append_of_pos h
    rw [List.append_nil] at hstart
    rw [trim, trimStart, hstart]
    rfl

/-- What is not blank stays. -/
theorem trim_squeeze_eq_nil_iff (k j : Nat) (t : Text) : trim (squeeze k j t) = [] ↔ trim t = [] := by
  rw [trim_eq_nil_iff, trim_eq_nil_iff]
  induction t generalizing k with
  | nil => rfl
  | cons c t ih =>
    rw [squeeze]
    split
    · next hspare => rw [ih, List.forall_mem_cons, and_iff_right (isSpare_iff.1 hspare).1]
    · rw [List.forall_mem_cons, List.forall_mem_cons, ih]

end Cull.Selector
