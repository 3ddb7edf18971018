import Cull.Proofs.Matching
import Cull.Proofs.PageReferences

/-!
# Dotted words of a page

One of the rules for markup looks for a dot with a name behind it. A name is taken as far as
it goes, and holds no dot, so that no match runs into the next one: the search, although
its matches may not overlap, finds the name behind every dot of the page
(`captures_dotted`, `mem_dottedWords`). As the value of a class such a name is neither trimmed
nor cut nor taken for a selector, so the token of each comes into the set.

The class tokens that a selector reader would see in the page are among these words; it sees
fewer, because it passes over what stands in brackets (`exists_dottedIn_of_mem_tokens`).
-/

namespace Cull

open Text

/-- The name stands in the text behind a dot, and does not go on. -/
def DottedIn (t w : Text) : Prop :=
  ∃ front rest, t = front ++ '.' :: (w ++ rest) ∧ w ≠ [] ∧ (∀ c ∈ w, isNameChar c = true) ∧ Selector.NameEnds rest

theorem DottedIn.append_left {t w : Text} (h : DottedIn t w) (x : Text) : DottedIn (x ++ t) w := by
  obtain ⟨front, rest, rfl, hw⟩ := h
  exact ⟨x ++ front, rest, (List.append_assoc x front _).symm, hw⟩

/-- Every text begins with a name, maybe an empty one, that does not go on. -/
theorem Selector.exists_name_append (t : Text) :
    ∃ w rest, t = w ++ rest ∧ (∀ c ∈ w, isNameChar c = true) ∧ NameEnds rest := by
  have hends := nameEnds_dropWhile_append t (t := []) rfl
  rw [List.append_nil] at hends
  exact ⟨t.takeWhile isNameChar, t.dropWhile isNameChar, List.takeWhile_append_dropWhile.symm,
    List.all_eq_true.1 List.all_takeWhile, hends⟩

/-! ### The search -/

/-- If what comes next cannot fail, a run of characters is taken as far as it goes. -/
theorem Pattern.runMany_eq_of_isSome {α : Type} {accepts : Char → Bool} {k : Text → Option α}
    (hk : ∀ t, (k t).isSome = true) (t : Text) : runMany accepts k t = k (t.dropWhile accepts) := by
  induction t with
  | nil => rfl
  | cons c t ih =>
    rw [runMany, List.dropWhile_cons]
    split
    · rw [ih]
      obtain ⟨a, ha⟩ := Option.isSome_iff_exists.1 (hk (t.dropWhile accepts))
      rw [ha]
      rfl
    · rfl

/-- The search goes on behind the characters that are covered. -/
theorem Capture.capturesFrom_append (c : Capture) (x t : Text) :
    c.capturesFrom x.length (x ++ t) = c.capturesFrom 0 t := by
  induction x with
  | nil => rfl
  | cons d x ih => rw [List.cons_append, List.length_cons, capturesFrom, ih]

namespace Extraction

open Pattern

/-- A name behind a dot. -/
def dotted : Capture := ⟨char '.', tokenName, empty⟩

/-- The names behind the dots of a text, from left to right. -/
def dottedWords : Text → List Text
  | [] => []
  | c :: t =>
    if c = '.' ∧ t.takeWhile isNameChar ≠ [] then t.takeWhile isNameChar :: dottedWords t else dottedWords t

theorem dottedWords_of_ne {c : Char} (hc : c ≠ '.') (t : Text) : dottedWords (c :: t) = dottedWords t := by
  rw [dottedWords, if_neg fun h => hc h.1]

theorem match?_of_ne {c : Char} (hc : c ≠ '.') (t : Text) : dotted.match? (c :: t) = none := by
  simp [dotted, Capture.match?, char, run, hc]

variable {w rest : Text}

/-- There is no dot in a name. -/
theorem dottedWords_append (hw : ∀ c ∈ w, isNameChar c = true) (t : Text) : dottedWords (w ++ t) = dottedWords t := by
  induction w with
  | nil => rfl
  | cons c w ih =>
    obtain ⟨hc, hw⟩ := List.forall_mem_cons.1 hw
    have hdot : c ≠ '.' := by
      rintro rfl
      exact absurd hc (by decide)
    rw [List.cons_append, dottedWords_of_ne hdot, ih hw]

theorem dottedWords_dot (hw : ∀ c ∈ w, isNameChar c = true) (hrest : Selector.NameEnds rest) :
    dottedWords ('.' :: (w ++ rest)) = if w = [] then dottedWords rest else w :: dottedWords rest := by
  rw [dottedWords, Selector.takeWhile_name_append hw hrest, dottedWords_append hw]
  by_cases hne : w = [] <;> simp [hne]

/-- Behind a dot the whole name is captured. -/
theorem match?_dot (hw : ∀ c ∈ w, isNameChar c = true) (hrest : Selector.NameEnds rest) :
    dotted.match? ('.' :: (w ++ rest)) = if w = [] then none else some (w, rest) := by
  have hlead : dotted.match? ('.' :: (w ++ rest)) =
      tokenName.run (w ++ rest) fun r => some ((w ++ rest).take ((w ++ rest).length - r.length), r) := by
    simp [dotted, Capture.match?, char, run]
  rw [hlead]
  cases w with
  | nil =>
    rw [if_pos rfl, List.nil_append]
    cases rest with
    | nil => rfl
    | cons c rest =>
      have hc : isNameChar c = false := by simpa [Selector.NameEnds, List.takeWhile_cons] using hrest
      simp [tokenName, oneOrMore, run, hc]
  | cons c w =>
    obtain ⟨hc, hw⟩ := List.forall_mem_cons.1 hw
    have hvalue : (c :: w ++ rest).take ((c :: w ++ rest).length - rest.length) = c :: w := by
      rw [List.length_append, Nat.add_sub_cancel, List.take_left]
    rw [if_neg (List.cons_ne_nil c w)]
    simp only [tokenName, oneOrMore, run, List.cons_append, if_pos hc]
    rw [runMany_eq_of_isSome (fun _ => rfl), Selector.dropWhile_name_append hw hrest, ← List.cons_append, hvalue]

/-- The search finds the names behind all dots. -/
theorem captures_dotted (t : Text) : dotted.captures t = dottedWords t := by
  rw [Capture.captures]
  -- a match takes up a name, so the induction has to reach past it
  induction hn : t.length using Nat.strongRecOn generalizing t with
  | ind n ih =>
    subst hn
    cases t with
    | nil => rfl
    | cons c t =>
      have hnext := ih t.length (Nat.lt_succ_self _) t rfl
      rw [Capture.capturesFrom]
      by_cases hdot : c = '.'
      · obtain ⟨w, rest, rfl, hw, hrest⟩ := Selector.exists_name_append t
        subst hdot
        rw [match?_dot hw hrest, dottedWords_dot hw hrest]
        by_cases hne : w = []
        · subst hne
          exact hnext
        · have hcovered : (w ++ rest).length - rest.length = w.length := by
            rw [List.length_append, Nat.add_sub_cancel]
          have hbehind : dotted.capturesFrom 0 rest = dottedWords rest := by
            refine ih _ ?_ rest rfl
            rw [List.length_cons, List.length_append]
            omega
          simp only [if_neg hne, hcovered, Capture.capturesFrom_append, hbehind]
      · rw [match?_of_ne hdot, dottedWords_of_ne hdot]
        exact hnext

theorem mem_dottedWords {t w : Text} : w ∈ dottedWords t ↔ DottedIn t w := by
  constructor
  · intro h
    induction t with
    | nil => cases h
    | cons c t ih =>
      obtain ⟨v, rest, ht, hv, hrest⟩ := Selector.exists_name_append t
      rw [dottedWords] at h
      split at h
      · next hdot =>
        rcases List.mem_cons.1 h with hw | h
        · rw [ht, Selector.takeWhile_name_append hv hrest] at hdot hw
          subst hw
          exact ⟨[], rest, by rw [ht, hdot.1, List.nil_append], hdot.2, hv, hrest⟩
        · exact (ih h).append_left [c]
      · exact (ih h).append_left [c]
  · rintro ⟨front, rest, rfl, hne, hname, hends⟩
    induction front with
    | nil =>
      rw [List.nil_append, dottedWords_dot hname hends, if_neg hne]
      exact .head _
    | cons c front ih =>
      rw [List.cons_append, dottedWords]
      split
      · exact .tail _ ih
      · exact ih

end Extraction

/-! ### The tokens -/

/-- A name is a class as it is. -/
theorem Reference.mem_classNames_of_name {w : Text} (hne : w ≠ []) (hw : ∀ c ∈ w, isNameChar c = true) :
    '.' :: w ∈ classNames w := by
  have hsolid : ∀ c ∈ w, isBlank c = false := by
    intro c hc
    by_contra hblank
    rw [Bool.not_eq_false] at hblank
    exact absurd (hw c hc) (by rw [Selector.isNameChar_of_isBlank hblank]; decide)
  have hmark : isMarked (trim w) = false := by
    rw [trim_eq_self hsolid]
    obtain ⟨c, v, rfl⟩ := List.exists_cons_of_ne_nil hne
    have hc := Selector.not_mark_of_isNameChar (hw c (.head _))
    rw [isMarked, isMark]
    simpa using hc
  refine word_mem_classNames hmark ?_
  rw [words, splitOn_eq_singleton hsolid]
  simpa using hne

theorem mem_pageTokens_of_dottedIn {page w : Text} (h : DottedIn page w) : '.' :: w ∈ pageTokens page := by
  obtain ⟨r, hr, hpattern, hreading⟩ : ∃ r ∈ Extraction.rulesFor .markup, r.pattern = Extraction.dotted ∧
      r.reading = .classNames :=
    ⟨_, List.mem_of_find?_eq_some (p := (·.name = "dotted-word")) rfl, rfl, rfl⟩
  have hcaptured : w ∈ r.captures page := by
    rw [Extraction.captures, hpattern, Extraction.captures_dotted]
    exact Extraction.mem_dottedWords.2 h
  obtain ⟨-, -, -, hne, hname, -⟩ := h
  have htoken : '.' :: w ∈ r.reading.tokens w := by
    rw [hreading]
    exact Reference.mem_classNames_of_name hne hname
  have hmarkup : '.' :: w ∈ Context.markup.tokens page :=
    List.mem_flatMap.2 ⟨r, hr, List.mem_flatMap.2 ⟨w, hcaptured, htoken⟩⟩
  exact mem_pageTokens.2 (.inr (.inr (.inr (.inr (.inr hmarkup)))))

/-- A class token of a text is one of its dotted words. -/
theorem exists_dottedIn_of_mem_tokens {t token : Text} (h : token ∈ Selector.tokens t) (hdot : token.head? = some '.') :
    ∃ w, token = '.' :: w ∧ DottedIn t w := by
  induction hn : t.length using Nat.strongRecOn generalizing t with
  | ind n ih =>
    subst hn
    -- what is found behind a part of the text stands in the whole
    have hbehind : ∀ x s : Text, t = x ++ s → x ≠ [] → token ∈ Selector.tokens s →
        ∃ w, token = '.' :: w ∧ DottedIn t w := by
      rintro x s rfl hx hs
      have hlt : s.length < (x ++ s).length := by
        rw [List.length_append]
        exact Nat.lt_add_of_pos_left (List.length_pos_iff.2 hx)
      obtain ⟨w, hw, hin⟩ := ih s.length hlt hs rfl
      exact ⟨w, hw, hin.append_left x⟩
    cases t with
    | nil =>
      rw [Selector.tokens_nil] at h
      cases h
    | cons c t =>
      by_cases hbracket : c = '['
      · subst hbracket
        rw [Selector.tokens_bracket] at h
        refine hbehind ('[' :: (Selector.splitAttribute none t).1) _ ?_ (List.cons_ne_nil _ _) h
        rw [List.cons_append, Selector.splitAttribute_append]
      · by_cases hmark : c = '.' ∨ c = '#'
        · obtain ⟨w, rest, rfl, hw, hrest⟩ := Selector.exists_name_append t
          rw [Selector.tokens_mark hmark, Selector.takeWhile_name_append hw hrest,
            Selector.dropWhile_name_append hw hrest] at h
          rcases List.mem_append.1 h with h | h
          · by_cases hne : w = []
            · simp [hne] at h
            · obtain rfl : token = c :: w := by simpa [hne] using h
              obtain rfl : c = '.' := by simpa using hdot
              exact ⟨w, rfl, [], rest, rfl, hne, hw, hrest⟩
          · exact hbehind (c :: w) rest rfl (List.cons_ne_nil _ _) h
        · rw [Selector.tokens_skip hbracket hmark] at h
          exact hbehind [c] t rfl (List.cons_ne_nil _ _) h

/-- Whatever is collected before and after a page, the class of each name that stands in its text behind a
dot is in the set, and every rule with such a class in one of its selectors survives. So it is for each
class token that is found in the text of the page when that is read as a selector. -/
theorem dotted_words_kept (page : Text) :
    (∀ w, DottedIn page w → KeepsInUse page ('.' :: w)) ∧
    ∀ t ∈ Selector.tokens page, t.head? = some '.' → KeepsInUse page t := by
  have hwords : ∀ w, DottedIn page w → KeepsInUse page ('.' :: w) := fun w hw =>
    keepsInUse_of_mem_pageTokens (mem_pageTokens_of_dottedIn hw)
  refine ⟨hwords, fun t ht hdot => ?_⟩
  obtain ⟨w, rfl, hw⟩ := exists_dottedIn_of_mem_tokens ht hdot
  exact hwords w hw

/-- The name in brackets and behind a second dot of a comment, and the one behind a character of two bytes. -/
theorem dotted_words_kept_comment :
    DottedIn "<!--[..a-b]é.c-->".toList "a-b".toList ∧
    KeepsInUse "<!--[..a-b]é.c-->".toList ".a-b".toList ∧
    ".c--".toList ∈ Selector.tokens "<!--[..a-b]é.c-->".toList ∧
    KeepsInUse "<!--[..a-b]é.c-->".toList ".c--".toList := by
  obtain ⟨hwords, htokens⟩ := dotted_words_kept "<!--[..a-b]é.c-->".toList
  have hdotted : DottedIn "<!--[..a-b]é.c-->".toList "a-b".toList := by
    refine ⟨"<!--[.".toList, "]é.c-->".toList, by decide +kernel, by decide +kernel, ?_, Selector.nameEnds_cons (by decide)⟩
    have hname : "a-b".toList.all isNameChar = true := by decide +kernel
    exact List.all_eq_true.1 hname
  have htoken : ".c--".toList ∈ Selector.tokens "<!--[..a-b]é.c-->".toList := by decide +kernel
  exact ⟨hdotted, hwords _ hdotted, htoken, htokens _ htoken (by decide +kernel)⟩

end Cull
