import Cull.Stylesheet.Parser
import Cull.Proofs.Lexemes

/-!
# Reading one construct

What `readConstruct` cuts off is a piece of the text (`readConstruct_append`),
and it is read the same way in front of any other text (`readConstruct_text_append`):
no reader looks past the mark that ends its construct. The second fact is what
makes it possible to take constructs out of a stylesheet and read the rest again.
-/

namespace Cull.Stylesheet

open Text

/-! ### The construct and the rest make up the text -/

theorem readAtRule_append {t rest : Text} {form : AtForm} (h : readAtRule t = some (form, rest)) :
    form.text ++ rest = '@' :: t := by
  have hname := List.takeWhile_append_dropWhile (p := isAtNameChar) (l := t)
  revert h
  fun_cases readAtRule t with
  | case1 => simp
  | case2 name prelude rest' hh =>
    intro h
    cases h
    have := closeHeader_append hh
    simp only [HeaderEnd.mark] at this
    simp [AtForm.text, this, name, hname]
  | case3 => simp
  | case4 name prelude rest' hh body rest'' hb =>
    intro h
    cases h
    have hh := closeHeader_append hh
    have hb := closeBlock_append hb
    simp only [HeaderEnd.mark] at hh
    simp [AtForm.text, hb, hh, name, hname]

/-- What a plain rule is read from: a header without opening braces, a block, and the rest. -/
theorem readPlain_eq_some {t header body rest : Text} (h : readPlain t = some (header, body, rest)) :
    (∀ c ∈ header, c ≠ '\x7b') ∧ ∃ t', t = header ++ '\x7b' :: t' ∧ closeBlock 0 t' = some (body, rest) := by
  have hheader := List.takeWhile_append_dropWhile (p := (· ≠ '\x7b')) (l := t)
  revert h
  fun_cases readPlain t with
  | case1 => simp
  | case2 => simp
  | case3 c t' hd body rest hb =>
    intro h
    cases h
    -- the header ends at the first opening brace
    have hc : c = '\x7b' := by
      have := List.head?_dropWhile_not (· ≠ '\x7b') t
      rw [hd] at this
      simpa using this
    subst hc
    refine ⟨fun d hd' => ?_, t', ?_, hb⟩
    · simpa using List.all_eq_true.1 List.all_takeWhile d hd'
    · rw [← hd]
      exact hheader.symm

/-- A header without opening braces is the header of the plain rule. -/
theorem readPlain_header {header : Text} (hheader : ∀ c ∈ header, c ≠ '\x7b') (t : Text) :
    readPlain (header ++ '\x7b' :: t) = (closeBlock 0 t).map fun (body, rest) => (header, body, rest) := by
  have hp : ∀ c ∈ header, decide (c ≠ '\x7b') = true := fun c hc => decide_eq_true (hheader c hc)
  simp only [readPlain, List.takeWhile_append_of_pos hp, List.dropWhile_append_of_pos hp]
  cases h : closeBlock 0 t <;> simp [h]

/-- Without an opening brace there is no plain rule. -/
theorem readPlain_none {t : Text} (ht : ∀ c ∈ t, c ≠ '\x7b') : readPlain t = none := by
  have hp : ∀ c ∈ t, decide (c ≠ '\x7b') = true := fun c hc => decide_eq_true (ht c hc)
  have hdrop : t.dropWhile (fun c => decide (c ≠ '\x7b')) = [] := by
    rw [← List.append_nil t, List.dropWhile_append_of_pos hp, List.dropWhile_nil]
  rw [readPlain, hdrop]

theorem readPlain_append {t header body rest : Text} (h : readPlain t = some (header, body, rest)) :
    header ++ '\x7b' :: (body ++ '}' :: rest) = t := by
  obtain ⟨-, t', rfl, hb⟩ := readPlain_eq_some h
  rw [closeBlock_append hb]

/-- What a construct is read from. -/
theorem readConstruct_cases {t rest : Text} {c : Construct} (h : readConstruct t = some (c, rest)) :
    (∃ inner t', c = .comment inner ∧ t = '/' :: '*' :: t' ∧ closeComment t' = some (inner, rest)) ∨
    (∃ form t', c = .atRule form ∧ t = '@' :: t' ∧ readAtRule t' = some (form, rest)) ∨
    (∃ d, c = .blank d ∧ t = d :: rest ∧ isAsciiBlank d = true) ∨
    (∃ header body d t', c = .plain header body ∧ t = d :: t' ∧ readPlain t = some (header, body, rest) ∧
      d ≠ '@' ∧ (d = '/' → t'.head? ≠ some '*') ∧ isAsciiBlank d = false) := by
  revert h
  fun_cases readConstruct t with
  | case1 => simp
  | case2 t =>
    intro h
    obtain ⟨⟨inner, rest'⟩, hc, he⟩ := Option.map_eq_some_iff.1 h
    cases he
    exact .inl ⟨inner, t, rfl, rfl, hc⟩
  | case3 t =>
    intro h
    obtain ⟨⟨form, rest'⟩, hr, he⟩ := Option.map_eq_some_iff.1 h
    cases he
    exact .inr (.inl ⟨form, t, rfl, rfl, hr⟩)
  | case4 d t hn hat hb =>
    intro h
    cases h
    exact .inr (.inr (.inl ⟨d, rfl, rfl, hb⟩))
  | case5 d t hn hat hb =>
    intro h
    obtain ⟨⟨header, body, rest'⟩, hr, he⟩ := Option.map_eq_some_iff.1 h
    cases he
    refine .inr (.inr (.inr ⟨header, body, d, t, rfl, rfl, hr, hat, ?_, by simpa using hb⟩))
    rintro rfl hhead
    obtain ⟨t', rfl⟩ := List.head?_eq_some_iff.1 hhead
    exact hn t' rfl rfl

theorem readConstruct_append {t rest : Text} {c : Construct} (h : readConstruct t = some (c, rest)) :
    c.text ++ rest = t := by
  rcases readConstruct_cases h with ⟨inner, t, rfl, rfl, hc⟩ | ⟨form, t, rfl, rfl, hr⟩ | ⟨d, rfl, rfl, -⟩ |
    ⟨header, body, -, -, rfl, -, hr, -⟩
  · simp [Construct.text, closeComment_append hc]
  · exact readAtRule_append hr
  · rfl
  · simpa [Construct.text] using readPlain_append hr

/-- An at-rule begins with an at-sign. -/
theorem readConstruct_atRule {t rest : Text} {form : AtForm} (h : readConstruct t = some (.atRule form, rest)) :
    ∃ t', t = '@' :: t' ∧ readAtRule t' = some (form, rest) := by
  rcases readConstruct_cases h with ⟨_, _, ⟨⟩, _⟩ | ⟨form, t, ⟨⟩, rfl, hr⟩ | ⟨_, ⟨⟩, _⟩ | ⟨_, _, _, _, ⟨⟩, _⟩
  exact ⟨t, rfl, hr⟩

/-- A statement ends with a semicolon. -/
theorem readAtRule_statement {t rest name text : Text} (h : readAtRule t = some (.statement name text, rest)) :
    ∃ w, text = w ++ [';'] := by
  revert h
  fun_cases readAtRule t with
  | case1 => simp
  | case2 name prelude rest' hh =>
    rintro ⟨⟩
    exact ⟨'@' :: (t.takeWhile isAtNameChar ++ prelude), rfl⟩
  | case3 => simp
  | case4 => simp

/-- A construct is at least one character long. -/
theorem readConstruct_text_ne_nil {t rest : Text} {c : Construct} (h : readConstruct t = some (c, rest)) :
    c.text ≠ [] := by
  intro hnil
  have := length_readConstruct_lt h
  have := readConstruct_append h
  simp_all

/-! ### No reader looks past the end of its construct -/

theorem readPlain_local {t header body rest : Text} (h : readPlain t = some (header, body, rest)) (rest' : Text) :
    readPlain (header ++ '\x7b' :: (body ++ '}' :: rest')) = some (header, body, rest') := by
  obtain ⟨hheader, t', -, hb⟩ := readPlain_eq_some h
  rw [readPlain_header hheader, closeBlock_local hb rest']
  rfl

/-- What an at-rule is read from: a name, then a header that does not go on with the name. -/
theorem readAtRule_name {t a rest : Text} {e : HeaderEnd}
    (h : closeHeader (t.dropWhile isAtNameChar) = some (a, e, rest)) (rest' : Text) :
    (t.takeWhile isAtNameChar ++ (a ++ e.mark :: rest')).takeWhile isAtNameChar = t.takeWhile isAtNameChar ∧
    (t.takeWhile isAtNameChar ++ (a ++ e.mark :: rest')).dropWhile isAtNameChar = a ++ e.mark :: rest' := by
  have hp : ∀ c ∈ t.takeWhile isAtNameChar, isAtNameChar c = true :=
    List.all_eq_true.1 List.all_takeWhile
  -- the header begins as it did, and no name goes on with its mark
  have hstop : ∀ c ∈ (a ++ e.mark :: rest').head?, isAtNameChar c = false := by
    have hhead := List.head?_dropWhile_not isAtNameChar t
    rw [← closeHeader_append h] at hhead
    cases a with
    | nil => cases e <;> simp [HeaderEnd.mark, isAtNameChar]
    | cons c a => simpa using hhead
  rw [List.takeWhile_append_of_pos hp, List.dropWhile_append_of_pos hp]
  cases hrest : a ++ e.mark :: rest' with
  | nil => simp at hrest
  | cons c r =>
    rw [hrest] at hstop
    simp [hstop c rfl]

theorem readAtRule_local {t rest : Text} {form : AtForm} (h : readAtRule t = some (form, rest)) (rest' : Text) :
    ∃ t', form.text ++ rest' = '@' :: t' ∧ readAtRule t' = some (form, rest') := by
  revert h
  fun_cases readAtRule t with
  | case1 => simp
  | case2 name prelude r hh =>
    intro h
    cases h
    obtain ⟨htake, hdrop⟩ := readAtRule_name hh rest'
    have hh' := closeHeader_local hh rest'
    refine ⟨name ++ (prelude ++ HeaderEnd.semicolon.mark :: rest'), by simp [AtForm.text, HeaderEnd.mark], ?_⟩
    simp only [readAtRule, name, htake, hdrop, hh']
  | case3 => simp
  | case4 name prelude r hh body r' hb =>
    intro h
    cases h
    obtain ⟨htake, hdrop⟩ := readAtRule_name hh (body ++ '}' :: rest')
    have hh' := closeHeader_local hh (body ++ '}' :: rest')
    have hb' := closeBlock_local hb rest'
    refine ⟨name ++ (prelude ++ HeaderEnd.brace.mark :: (body ++ '}' :: rest')), by simp [AtForm.text, HeaderEnd.mark], ?_⟩
    simp only [readAtRule, name, htake, hdrop, hh', hb']

/-- Any text that its brace closes can stand in the block of an at-rule. -/
theorem readAtRule_block {t rest name header body body' : Text}
    (h : readAtRule t = some (.block name header body, rest))
    (hbody : closeBlock 0 (body' ++ ['}']) = some (body', [])) (rest' : Text) :
    ∃ t', header ++ (body' ++ '}' :: rest') = '@' :: t' ∧ readAtRule t' = some (.block name header body', rest') := by
  revert h
  fun_cases readAtRule t with
  | case1 => simp
  | case2 => simp
  | case3 => simp
  | case4 name prelude r hh body r' hb =>
    intro h
    cases h
    obtain ⟨htake, hdrop⟩ := readAtRule_name hh (body' ++ '}' :: rest')
    have hh' := closeHeader_local hh (body' ++ '}' :: rest')
    have hb' := closeBlock_local hbody rest'
    refine ⟨name ++ (prelude ++ HeaderEnd.brace.mark :: (body' ++ '}' :: rest')), by simp [HeaderEnd.mark], ?_⟩
    simp only [readAtRule, name, htake, hdrop, hh', hb']

/-- What begins neither a comment nor an at-rule is a blank or a plain rule. -/
theorem readConstruct_cons {c : Char} {t : Text} (hat : c ≠ '@') (hstar : c = '/' → t.head? ≠ some '*') :
    readConstruct (c :: t) =
      if isAsciiBlank c then some (.blank c, t)
      else (readPlain (c :: t)).map fun (header, body, rest) => (.plain header body, rest) := by
  rw [readConstruct]
  · rintro t' rfl rfl
    exact hstar rfl rfl
  · exact hat

theorem readConstruct_block {t rest name header body body' : Text}
    (h : readConstruct t = some (.atRule (.block name header body), rest))
    (hbody : closeBlock 0 (body' ++ ['}']) = some (body', [])) (rest' : Text) :
    readConstruct (header ++ (body' ++ '}' :: rest')) = some (.atRule (.block name header body'), rest') := by
  obtain ⟨t, -, hr⟩ := readConstruct_atRule h
  obtain ⟨t', ht', hr'⟩ := readAtRule_block hr hbody rest'
  rw [ht', readConstruct, hr']
  rfl

/-- A construct is read the same way in front of any text. -/
theorem readConstruct_text_append {t rest : Text} {c : Construct} (h : readConstruct t = some (c, rest))
    (rest' : Text) : readConstruct (c.text ++ rest') = some (c, rest') := by
  rcases readConstruct_cases h with ⟨inner, t, rfl, rfl, hc⟩ | ⟨form, t, rfl, rfl, hr⟩ | ⟨d, rfl, rfl, hb⟩ |
    ⟨header, body, d, t, rfl, rfl, hr, hat, hstar, hb⟩
  · simp [Construct.text, readConstruct, closeComment_local hc]
  · obtain ⟨t', ht, hr'⟩ := readAtRule_local hr rest'
    simp [Construct.text, ht, readConstruct, hr']
  · have hat : d ≠ '@' := by
      rintro rfl
      cases hb
    have hslash : d ≠ '/' := by
      rintro rfl
      cases hb
    rw [Construct.text, List.singleton_append, readConstruct_cons hat fun h => absurd h hslash, if_pos hb]
  · have happend := readPlain_append hr
    have hlocal := readPlain_local hr rest'
    rw [Construct.text, List.append_assoc, List.cons_append, List.append_assoc, List.singleton_append]
    cases header with
    | nil =>
      rw [List.nil_append, List.cons.injEq] at happend
      rw [List.nil_append] at hlocal ⊢
      obtain ⟨rfl, -⟩ := happend
      rw [readConstruct_cons hat fun h => absurd h (by decide), if_neg (by simp [hb]), hlocal]
      rfl
    | cons e header =>
      rw [List.cons_append, List.cons.injEq] at happend
      rw [List.cons_append] at hlocal ⊢
      obtain ⟨rfl, rfl⟩ := happend
      rw [readConstruct_cons hat, if_neg (by simp [hb]), hlocal]
      · rfl
      · -- what follows the first character of the header is the same as before
        intro hslash hhead
        refine hstar hslash ?_
        cases header with
        | nil => simp at hhead
        | cons f header => simpa using hhead

end Cull.Stylesheet
