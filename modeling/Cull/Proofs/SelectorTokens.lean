import Cull.Pruning.Verdict

/-!
# One rule for references

`Selector.isUsed` asks for a token of the whole selector, of its first word and
of each compound. The first word and the compounds are parts of the selector
that break no token and add none, so the last two questions never say more than
the first: a selector is referenced exactly if it has no token or one of its
tokens is in the set (`isUsed_iff`).
-/

namespace Cull.Selector

open Text

/-! ### Tokens of a text read from its front -/

theorem tokens_nil : tokens [] = [] := by rw [tokens]

theorem tokens_bracket (t : Text) : tokens ('[' :: t) = tokens (splitAttribute none t).2 := by
  rw [tokens, if_pos rfl]

theorem tokens_mark {c : Char} (hc : c = '.' ∨ c = '#') (t : Text) :
    tokens (c :: t) = (if (t.takeWhile isNameChar).isEmpty then [] else [c :: t.takeWhile isNameChar]) ++
      tokens (t.dropWhile isNameChar) := by
  have hbracket : c ≠ '[' := by
    rintro rfl
    simp at hc
  rw [tokens, if_neg hbracket, if_pos (by simpa using hc)]
  dsimp only
  split <;> rfl

/-- A character that begins neither a token nor an attribute is passed over. -/
theorem tokens_skip {c : Char} (hbracket : c ≠ '[') (hmark : ¬(c = '.' ∨ c = '#')) (t : Text) :
    tokens (c :: t) = tokens t := by
  rw [tokens, if_neg hbracket, if_neg (by simpa using hmark)]

theorem ne_bracket_of_isNameChar {c : Char} (hc : isNameChar c = true) : c ≠ '[' := by
  rintro rfl
  exact absurd hc (by decide)

theorem not_mark_of_isNameChar {c : Char} (hc : isNameChar c = true) : ¬(c = '.' ∨ c = '#') := by
  rintro (rfl | rfl)
  · exact absurd hc (by decide)
  · exact absurd hc (by decide)

/-- A name without a mark in front is no token. -/
theorem tokens_name_append {w : Text} (hw : ∀ c ∈ w, isNameChar c = true) (t : Text) :
    tokens (w ++ t) = tokens t := by
  induction w with
  | nil => rfl
  | cons c w ih =>
    have hc := hw c (.head _)
    rw [List.cons_append, tokens_skip (ne_bracket_of_isNameChar hc) (not_mark_of_isNameChar hc),
      ih fun d hd => hw d (.tail _ hd)]

/-- No name goes on at the front of the text. -/
def NameEnds (t : Text) : Prop := t.takeWhile isNameChar = []

theorem nameEnds_cons {c : Char} {t : Text} (hc : isNameChar c = false) : NameEnds (c :: t) := by
  simp [NameEnds, hc]

theorem takeWhile_name_append {w t : Text} (hw : ∀ c ∈ w, isNameChar c = true) (ht : NameEnds t) :
    (w ++ t).takeWhile isNameChar = w := by
  rw [List.takeWhile_append_of_pos hw, ht, List.append_nil]

theorem dropWhile_name_append {w t : Text} (hw : ∀ c ∈ w, isNameChar c = true) (ht : NameEnds t) :
    (w ++ t).dropWhile isNameChar = t := by
  have hsplit := List.takeWhile_append_dropWhile (p := isNameChar) (l := t)
  rw [ht, List.nil_append] at hsplit
  rw [List.dropWhile_append_of_pos hw, hsplit]

theorem nameEnds_dropWhile_append (w : Text) {t : Text} (ht : NameEnds t) :
    NameEnds (w.dropWhile isNameChar ++ t) := by
  cases hd : w.dropWhile isNameChar with
  | nil => exact ht
  | cons c d =>
    have hhead := List.head?_dropWhile_not isNameChar w
    rw [hd] at hhead
    exact nameEnds_cons (by simpa using hhead)

theorem tokens_mark_append {c : Char} (hc : c = '.' ∨ c = '#') (w : Text) {t : Text} (ht : NameEnds t) :
    tokens (c :: (w ++ t)) = (if (w.takeWhile isNameChar).isEmpty then [] else [c :: w.takeWhile isNameChar]) ++
      tokens (w.dropWhile isNameChar ++ t) := by
  have hname : ∀ d ∈ w.takeWhile isNameChar, isNameChar d = true := List.all_eq_true.1 List.all_takeWhile
  have hends := nameEnds_dropWhile_append w ht
  have hsplit : w ++ t = w.takeWhile isNameChar ++ (w.dropWhile isNameChar ++ t) := by
    rw [← List.append_assoc, List.takeWhile_append_dropWhile]
  rw [hsplit, tokens_mark hc, takeWhile_name_append hname hends, dropWhile_name_append hname hends]

/-- An attribute that is closed is the same whatever follows it; one that is not takes everything. -/
theorem splitAttribute_closed (quote : Option Char) (t : Text) :
    (splitAttribute quote t).2 = [] ∨
      ∀ r, splitAttribute quote ((splitAttribute quote t).1 ++ r) = ((splitAttribute quote t).1, r) := by
  fun_induction splitAttribute quote t with
  | case1 => exact .inl rfl
  | case2 => exact .inl rfl
  | case3 q d t a rest hrec ih =>
    rw [hrec] at ih
    refine ih.imp id fun h r => ?_
    simp [splitAttribute, h r]
  | case4 c t q hc a rest hrec ih =>
    rw [hrec] at ih
    refine ih.imp id fun h r => ?_
    rw [List.cons_append, splitAttribute.eq_def]
    simp [hc, h r]
  | case5 t => exact .inr fun r => by simp [splitAttribute]
  | case6 c t hc a rest hrec ih =>
    rw [hrec] at ih
    refine ih.imp id fun h r => ?_
    simp only [List.cons_append, splitAttribute, if_neg hc, h r]

/-! ### The first word -/

/-- The tokens of a piece come first among the tokens of the text, if no name goes on behind it. -/
theorem tokens_isPrefix_append (w : Text) {t : Text} (ht : NameEnds t) : tokens w <+: tokens (w ++ t) := by
  fun_induction tokens w with
  | case1 => exact List.nil_prefix
  | case2 w hle ih =>
    rw [List.cons_append, tokens_bracket]
    rcases splitAttribute_closed none w with hopen | hclosed
    · rw [hopen, tokens_nil]
      exact List.nil_prefix
    · have hw := splitAttribute_append none w
      have hsplit := hclosed ((splitAttribute none w).2 ++ t)
      rw [← List.append_assoc, hw] at hsplit
      rw [hsplit]
      exact ih
  | case3 c w hbracket hmark hle name rest hempty ih =>
    rw [List.cons_append, tokens_mark_append (by simpa using hmark) w ht, if_pos hempty]
    exact ih
  | case4 c w hbracket hmark hle name rest hname ih =>
    rw [List.cons_append, tokens_mark_append (by simpa using hmark) w ht, if_neg hname]
    exact (List.prefix_cons_inj _).2 ih
  | case5 c w hbracket hmark ih =>
    rw [List.cons_append, tokens_skip hbracket (by simpa using hmark)]
    exact ih

theorem isNameChar_of_isBlank {c : Char} (hc : isBlank c = true) : isNameChar c = false := by
  cases hname : isNameChar c with
  | false => rfl
  | true =>
    have hrange : 45 ≤ c.toNat ∧ c.toNat ≤ 122 := by
      delta isNameChar Char.isAlphanum Char.isAlpha Char.isUpper Char.isLower Char.isDigit at hname
      simp [UInt32.le_iff_toNat_le] at hname
      rcases hname with ((h | h) | rfl) | rfl
      · omega
      · omega
      · decide
      · decide
    simp [isBlank, UInt32.le_iff_toNat_le, ← UInt32.toNat_inj] at hc
    omega

theorem tokens_blank {c : Char} (hc : isBlank c = true) (t : Text) : tokens (c :: t) = tokens t := by
  refine tokens_skip ?_ ?_ t
  · rintro rfl
    exact absurd hc (by decide)
  · rintro (rfl | rfl)
    · exact absurd hc (by decide)
    · exact absurd hc (by decide)

/-- The first piece reaches to the first separator. -/
theorem head?_splitOn (sep : Char → Bool) (t : Text) :
    (splitOn sep t).head? = some (t.takeWhile (!sep ·)) := by
  induction t with
  | nil => rfl
  | cons c t ih =>
    rw [splitOn]
    by_cases hc : sep c = true
    · rw [if_pos hc]
      simp [hc]
    · rw [if_neg hc]
      cases hs : splitOn sep t with
      | nil => simp [hs] at ih
      | cons piece pieces => simp_all

/-- The tokens in front of the first separator come first, if no separator is part of a name. -/
theorem tokens_takeWhile_isPrefix {sep : Char → Bool} (hsep : ∀ c, sep c = true → isNameChar c = false) (t : Text) :
    tokens (t.takeWhile (!sep ·)) <+: tokens t := by
  have hends : NameEnds (t.dropWhile (!sep ·)) := by
    cases hd : t.dropWhile (!sep ·) with
    | nil => rfl
    | cons c rest =>
      have hc := List.head?_dropWhile_not (!sep ·) t
      rw [hd] at hc
      exact nameEnds_cons (hsep c (by simpa using hc))
  have hfirst := tokens_isPrefix_append (t.takeWhile (!sep ·)) hends
  rwa [List.takeWhile_append_dropWhile] at hfirst

/-- The tokens of the first word come first among the tokens of the text. -/
theorem tokens_head_words {t w : Text} {ws : List Text} (h : words t = w :: ws) : tokens w <+: tokens t := by
  induction t with
  | nil => simp [words, splitOn] at h
  | cons c t ih =>
    by_cases hc : isBlank c = true
    · rw [tokens_blank hc]
      refine ih ?_
      simpa [words, splitOn, hc] using h
    · -- the word begins here, and reaches to the first blank
      have hhead := head?_splitOn isBlank (c :: t)
      have hw : w = (c :: t).takeWhile (!isBlank ·) := by
        cases hs : splitOn isBlank (c :: t) with
        | nil => simp [hs] at hhead
        | cons piece pieces => simp_all [words]
      rw [hw]
      exact tokens_takeWhile_isPrefix (fun _ => isNameChar_of_isBlank) (c :: t)

/-! ### Compounds -/

/-- What has been read of a compound leaves no attribute open: the tokens of what follows it, or
follows a name that still belongs to it, are tokens of the whole. -/
def Complete (current : Text) : Prop :=
  ∀ w t, (∀ c ∈ w, isNameChar c = true) → NameEnds t → tokens (current ++ w ++ t) = tokens (current ++ w) ++ tokens t

theorem complete_nil : Complete [] := by
  intro w t hw ht
  have hnone := tokens_name_append hw []
  rw [List.append_nil, tokens_nil] at hnone
  rw [List.nil_append, tokens_name_append hw, hnone, List.nil_append]

theorem Complete.tokens_append {current : Text} (h : Complete current) {t : Text} (ht : NameEnds t) :
    tokens (current ++ t) = tokens current ++ tokens t := by
  simpa using h [] t (by simp) ht

theorem Complete.snoc {current : Text} (h : Complete current) {c : Char} (hc : c ≠ '[') :
    Complete (current ++ [c]) := by
  intro w t hw ht
  by_cases hname : isNameChar c = true
  · -- the name that follows is one character longer
    have hcw : ∀ d ∈ c :: w, isNameChar d = true := List.forall_mem_cons.2 ⟨hname, hw⟩
    simpa using h (c :: w) t hcw ht
  · have hends : ∀ s, NameEnds (c :: s) := fun s => nameEnds_cons (by simpa using hname)
    have hwhole := h.tokens_append (hends (w ++ t))
    have hpart := h.tokens_append (hends w)
    have htokens : tokens (c :: (w ++ t)) = tokens (c :: w) ++ tokens t := by
      by_cases hmark : c = '.' ∨ c = '#'
      · have htake := takeWhile_name_append hw (t := []) rfl
        have hdrop := dropWhile_name_append hw (t := []) rfl
        rw [List.append_nil] at htake hdrop
        rw [tokens_mark_append hmark w ht, tokens_mark hmark, htake, hdrop, tokens_nil, List.nil_append,
          List.append_nil]
      · rw [tokens_skip hc hmark, tokens_skip hc hmark]
        exact complete_nil w t hw ht
    simp only [List.append_assoc, List.cons_append, List.nil_append] at *
    rw [hwhole, hpart, htokens, List.append_assoc]

/-- A closed attribute is complete. -/
theorem Complete.attribute {current : Text} (h : Complete current) {t : Text} (hrest : (splitAttribute none t).2 ≠ []) :
    Complete (current ++ '[' :: (splitAttribute none t).1) := by
  have hclosed := (splitAttribute_closed none t).resolve_left hrest
  -- the attribute has no tokens of its own
  have htokens : ∀ r, tokens (current ++ '[' :: (splitAttribute none t).1 ++ r) = tokens current ++ tokens r := by
    intro r
    rw [List.append_assoc, List.cons_append, h.tokens_append (nameEnds_cons (by decide)), tokens_bracket, hclosed]
  intro w r hw hr
  have hname := complete_nil w r hw hr
  rw [List.nil_append] at hname
  rw [List.append_assoc, htokens, htokens, hname, List.append_assoc]

theorem isNameChar_of_isSeparator {c : Char} (hc : isSeparator c = true) : isNameChar c = false := by
  rw [isSeparator, Bool.or_eq_true] at hc
  rcases hc with hblank | hmark
  · exact isNameChar_of_isBlank (isBlank_of_isAsciiBlank hblank)
  · have hc : c = '>' ∨ c = '+' ∨ c = '~' := by grind [Combinator.ofMark?]
    rcases hc with rfl | rfl | rfl
    · rfl
    · rfl
    · rfl

theorem tokens_separator {c : Char} (hc : isSeparator c = true) (t : Text) : tokens (c :: t) = tokens t := by
  refine tokens_skip ?_ ?_ t
  · rintro rfl
    exact absurd hc (by decide)
  · rintro (rfl | rfl)
    · exact absurd hc (by decide)
    · exact absurd hc (by decide)

theorem tokens_compoundsFrom (tie : Option Combinator) (depth : Nat) (current t : Text)
    (h : Complete current ∨ t = []) :
    (compoundsFrom tie depth current t).flatMap (fun p => tokens p.text) = tokens (current ++ t) := by
  fun_induction compoundsFrom tie depth current t with
  | case1 tie depth current hempty => simp_all [tokens_nil]
  | case2 tie depth current hempty => simp
  | case3 tie depth current t hle ih =>
    have hcurrent := h.resolve_right (by simp)
    have hnext : Complete (current ++ '[' :: (splitAttribute none t).1) ∨ (splitAttribute none t).2 = [] := by
      by_cases hrest : (splitAttribute none t).2 = []
      · exact .inr hrest
      · exact .inl (hcurrent.attribute hrest)
    rw [ih hnext, List.append_assoc, List.cons_append, splitAttribute_append]
  | case4 tie depth current c t hbracket depth' hsep hempty ih =>
    have hnil : current = [] := by simpa using hempty
    simp only [Bool.and_eq_true] at hsep
    rw [ih (.inl complete_nil), hnil, List.nil_append, List.nil_append, tokens_separator hsep.2]
  | case5 tie depth current c t hbracket depth' hsep hempty ih =>
    have hcurrent := h.resolve_right (by simp)
    simp only [Bool.and_eq_true] at hsep
    rw [List.flatMap_cons, ih (.inl complete_nil), List.nil_append,
      hcurrent.tokens_append (nameEnds_cons (isNameChar_of_isSeparator hsep.2)), tokens_separator hsep.2]
  | case6 tie depth current c t hbracket depth' hsep ih =>
    have hcurrent := h.resolve_right (by simp)
    rw [ih (.inl (hcurrent.snoc hbracket)), List.append_assoc, List.singleton_append]

/-- The tokens of the compounds, one after the other, are the tokens of the selector. -/
theorem tokens_compounds (s : Text) : (compounds s).flatMap (fun p => tokens p.text) = tokens s :=
  tokens_compoundsFrom none 0 [] s (.inl complete_nil)

/-! ### References -/

theorem containsAny_iff {u : Usage} {ts : List Text} : u.containsAny ts = true ↔ ∃ t ∈ ts, t ∈ u := by
  simp [Usage.containsAny]

/-- A selector is referenced if it has no token, or one that is in the set; nothing else counts. -/
theorem isUsed_iff {s : Text} {u : Usage} : isUsed s u = true ↔ tokens s = [] ∨ ∃ t ∈ tokens s, t ∈ u := by
  have hhead : ∀ w ws, words s = w :: ws → u.containsAny (tokens w) = true → ∃ t ∈ tokens s, t ∈ u := by
    intro w ws hw h
    obtain ⟨t, ht, hu⟩ := containsAny_iff.1 h
    exact ⟨t, (tokens_head_words hw).subset ht, hu⟩
  have hparts : ∀ p ∈ compounds s, u.containsAny (tokens p.text) = true → ∃ t ∈ tokens s, t ∈ u := by
    intro p hp h
    obtain ⟨t, ht, hu⟩ := containsAny_iff.1 h
    exact ⟨t, tokens_compounds s ▸ List.mem_flatMap.2 ⟨p, hp, ht⟩, hu⟩
  constructor
  · intro h
    simp only [isUsed, Bool.or_eq_true, Bool.and_eq_true, List.isEmpty_iff, List.any_eq_true] at h
    rcases h with ((h | h) | h) | ⟨-, p, hp, h⟩
    · exact .inl h
    · exact .inr (containsAny_iff.1 h)
    · split at h
      · next w _ _ hw => exact .inr (hhead w _ hw h)
      · cases h
    · exact .inr (hparts p hp h)
  · rintro (h | h)
    · simp [isUsed, h]
    · simp [isUsed, containsAny_iff.2 h]

/-- The compounds have the tokens of the selector, in order, and the first word has some from the
front; so whether a selector is referenced depends on its tokens alone. -/
theorem reference_rules_collapse (s : Text) :
    (compounds s).flatMap (fun p => tokens p.text) = tokens s ∧
      (∀ w ∈ (words s).head?, tokens w <+: tokens s) ∧
      ∀ u : Usage, isUsed s u = true ↔ tokens s = [] ∨ ∃ t ∈ tokens s, t ∈ u := by
  refine ⟨tokens_compounds s, fun w hw => ?_, fun u => isUsed_iff⟩
  obtain ⟨ws, hws⟩ := List.head?_eq_some_iff.1 hw
  exact tokens_head_words hws

/-- The first word is cut off inside an attribute, and the compounds are not. -/
theorem reference_rules_collapse_attribute :
    (words ".a[b='] .c']>#d".toList).head? = some ".a[b=']".toList ∧
      tokens ".a[b=']".toList <+: tokens ".a[b='] .c']>#d".toList ∧
      (compounds ".a[b='] .c']>#d".toList).flatMap (fun p => tokens p.text) = [".a".toList, "#d".toList] ∧
      isUsed ".a[b='] .c']>#d".toList (.ofList [".c".toList]) = false := by
  obtain ⟨hparts, hfirst, hused⟩ := reference_rules_collapse ".a[b='] .c']>#d".toList
  have hhead : (words ".a[b='] .c']>#d".toList).head? = some ".a[b=']".toList := by decide +kernel
  have htokens : tokens ".a[b='] .c']>#d".toList = [".a".toList, "#d".toList] := by decide +kernel
  refine ⟨hhead, hfirst _ hhead, hparts.trans htokens, ?_⟩
  have hnone : ∀ t ∈ tokens ".a[b='] .c']>#d".toList, (Usage.ofList [".c".toList]).contains t = false := by
    rw [htokens]
    decide +kernel
  rw [Bool.eq_false_iff, Ne, hused, htokens]
  rintro (hnil | ⟨t, ht, hmem⟩)
  · cases hnil
  · exact Bool.eq_false_iff.1 (hnone t (htokens ▸ ht)) (Usage.contains_iff.2 hmem)

end Cull.Selector
