import Cull.Stylesheet.Lexical

/-!
# Lexemes

The readers that close a block or a header go through a text lexeme by lexeme:
a comment, a string, or a single character. `closeBlock_eq` and
`closeHeader_eq` say what each does with a lexeme. All that is special about
strings and comments is in `lexeme?`, and what is proved about the two readers is
proved by induction on lexemes.
-/

namespace Cull.Stylesheet

open Text

/-- The lexeme at the front of a text; there is none when a string or a comment does not end. -/
def lexeme? : Text → Option (Text × Text)
  | [] => none
  | '/' :: '*' :: t => (closeComment t).map fun (a, rest) => ('/' :: '*' :: a, rest)
  | c :: t => if isQuote c then (closeString c t).map fun (a, rest) => (c :: a, rest) else some ([c], t)

theorem lexeme?_quote {c : Char} (hc : isQuote c = true) (t : Text) :
    lexeme? (c :: t) = (closeString c t).map fun (a, rest) => (c :: a, rest) := by
  rw [lexeme?, if_pos hc]
  rintro t' rfl rfl
  cases hc

theorem lexeme?_char {c : Char} {t : Text} (hc : isQuote c = false) (hstar : c = '/' → t.head? ≠ some '*') :
    lexeme? (c :: t) = some ([c], t) := by
  rw [lexeme?, if_neg (by simp [hc])]
  rintro t' rfl rfl
  exact hstar rfl rfl

theorem lexeme?_append {t l rest : Text} (h : lexeme? t = some (l, rest)) : l ++ rest = t := by
  revert h
  fun_cases lexeme? t with
  | case1 => simp
  | case2 t =>
    intro h
    obtain ⟨⟨a, r⟩, ha, he⟩ := Option.map_eq_some_iff.1 h
    cases he
    simp [closeComment_append ha]
  | case3 c t hc =>
    intro h
    obtain ⟨⟨a, r⟩, ha, he⟩ := Option.map_eq_some_iff.1 h
    cases he
    simp [closeString_append ha]
  | case4 c t hc =>
    intro h
    cases h
    rfl

theorem lexeme?_ne_nil {t l rest : Text} (h : lexeme? t = some (l, rest)) : l ≠ [] := by
  revert h
  fun_cases lexeme? t <;> grind [Option.map_eq_some_iff]

theorem length_lexeme?_lt {t l rest : Text} (h : lexeme? t = some (l, rest)) : rest.length < t.length := by
  have := List.length_pos_iff.2 (lexeme?_ne_nil h)
  rw [← lexeme?_append h, List.length_append]
  omega

/-- A lexeme begins with the first character of the text. -/
theorem lexeme?_head {c : Char} {t l r : Text} (h : lexeme? (c :: t) = some (l, r)) : ∃ l', l = c :: l' := by
  have happend := lexeme?_append h
  cases l with
  | nil => exact absurd rfl (lexeme?_ne_nil h)
  | cons d l =>
    rw [List.cons_append, List.cons.injEq] at happend
    exact ⟨l, by rw [happend.1]⟩

/-- What closing a block does with a lexeme: a closing brace ends the innermost open block, an
opening one opens another, anything else is passed over. -/
theorem closeBlock_eq (depth : Nat) (t : Text) :
    closeBlock depth t =
      match lexeme? t with
      | none => none
      | some (l, rest) =>
        if l = ['}'] then
          match depth with
          | 0 => some ([], rest)
          | d + 1 => (closeBlock d rest).map fun (a, r) => ('}' :: a, r)
        else (closeBlock (if l = ['\x7b'] then depth + 1 else depth) rest).map fun (a, r) => (l ++ a, r) := by
  fun_cases closeBlock depth t <;> simp_all [lexeme?, isQuote]

/-- What closing a header does with a lexeme. -/
theorem closeHeader_eq (t : Text) :
    closeHeader t =
      match lexeme? t with
      | none => none
      | some (l, rest) =>
        if l = [';'] then some ([], .semicolon, rest)
        else if l = ['\x7b'] then some ([], .brace, rest)
        else (closeHeader rest).map fun (a, e, r) => (l ++ a, e, r) := by
  fun_cases closeHeader t <;> simp_all [lexeme?, isQuote]

theorem closeBlock_close (depth : Nat) (t : Text) :
    closeBlock (depth + 1) ('}' :: t) = (closeBlock depth t).map fun (a, rest) => ('}' :: a, rest) := by
  rw [closeBlock]

theorem closeBlock_open (depth : Nat) (t : Text) :
    closeBlock depth ('\x7b' :: t) = (closeBlock (depth + 1) t).map fun (a, rest) => ('\x7b' :: a, rest) := by
  rw [closeBlock]

/-- Any lexeme but a brace is passed over. -/
theorem closeBlock_pass {t l r : Text} (h : lexeme? t = some (l, r)) (hclose : l ≠ ['}']) (hopen : l ≠ ['\x7b'])
    (depth : Nat) : closeBlock depth t = (closeBlock depth r).map fun (a, rest) => (l ++ a, rest) := by
  rw [closeBlock_eq, h]
  simp [hclose, hopen]

/-- Any lexeme but a mark that ends a header is passed over. -/
theorem closeHeader_pass {t l r : Text} (h : lexeme? t = some (l, r)) (hsemicolon : l ≠ [';']) (hopen : l ≠ ['\x7b']) :
    closeHeader t = (closeHeader r).map fun (a, e, rest) => (l ++ a, e, rest) := by
  rw [closeHeader_eq, h]
  simp [hsemicolon, hopen]

/-! ### No reader looks past the end of what it reads -/

theorem closeString_cons {q c : Char} (hc : c ≠ '\\') (t : Text) :
    closeString q (c :: t) =
      if c = q then some ([c], t) else (closeString q t).map fun (a, rest) => (c :: a, rest) := by
  rw [closeString] <;> simp_all

/-- The last clause of `closeString` is not about backslashes. -/
theorem ne_backslash {c : Char} {t : Text} (h : c = '\\' → t = [] → False)
    (h' : ∀ d t', c = '\\' → t = d :: t' → False) : c ≠ '\\' := by
  rintro rfl
  cases t with
  | nil => exact h rfl rfl
  | cons d t => exact h' d t rfl rfl

theorem closeString_local {q : Char} {t a rest : Text} (h : closeString q t = some (a, rest)) (rest' : Text) :
    closeString q (a ++ rest') = some (a, rest') := by
  fun_induction closeString q t generalizing a rest with
  | case1 => cases h
  | case2 => cases h
  | case3 c t ih =>
    obtain ⟨⟨b, r⟩, hb, he⟩ := Option.map_eq_some_iff.1 h
    cases he
    simp [closeString, ih hb]
  | case4 t hn hn' =>
    cases h
    simp [closeString_cons (ne_backslash hn hn')]
  | case5 c t hn hn' hc ih =>
    obtain ⟨⟨b, r⟩, hb, he⟩ := Option.map_eq_some_iff.1 h
    cases he
    simp [closeString_cons (ne_backslash hn hn'), hc, ih hb]

theorem closeComment_cons {c : Char} {t : Text} (hc : c = '*' → t.head? ≠ some '/') :
    closeComment (c :: t) = (closeComment t).map fun (a, rest) => (c :: a, rest) := by
  rw [closeComment]
  rintro t' rfl rfl
  exact hc rfl rfl

theorem closeComment_ne_nil {t a rest : Text} (h : closeComment t = some (a, rest)) : a ≠ [] := by
  revert h
  fun_cases closeComment t <;> grind [Option.map_eq_some_iff]

theorem closeComment_local {t a rest : Text} (h : closeComment t = some (a, rest)) (rest' : Text) :
    closeComment (a ++ rest') = some (a, rest') := by
  fun_induction closeComment t generalizing a rest with
  | case1 t =>
    cases h
    rfl
  | case2 c t hn ih =>
    obtain ⟨⟨b, r⟩, hb, he⟩ := Option.map_eq_some_iff.1 h
    cases he
    -- a comment goes on after `c`, so what follows `c` is the same in front of any rest
    have hhead : (b ++ rest').head? = t.head? := by
      obtain ⟨d, b', rfl⟩ := List.exists_cons_of_ne_nil (closeComment_ne_nil hb)
      rw [← closeComment_append hb]
      rfl
    rw [List.cons_append, closeComment_cons, ih hb]
    · rfl
    · rintro rfl hd
      obtain ⟨t', rfl⟩ := List.head?_eq_some_iff.1 (hhead ▸ hd)
      exact hn t' rfl rfl
  | case3 => cases h

/-- A lexeme is read the same way in front of any text, if a slash is not made a comment. -/
theorem lexeme?_local {t l rest : Text} (h : lexeme? t = some (l, rest)) {rest' : Text}
    (hstar : l = ['/'] → rest'.head? = some '*' → rest.head? = some '*') : lexeme? (l ++ rest') = some (l, rest') := by
  revert h
  fun_cases lexeme? t with
  | case1 => simp
  | case2 t =>
    intro h
    obtain ⟨⟨a, r⟩, ha, he⟩ := Option.map_eq_some_iff.1 h
    cases he
    simp [lexeme?, closeComment_local ha]
  | case3 c t hn hc =>
    intro h
    obtain ⟨⟨a, r⟩, ha, he⟩ := Option.map_eq_some_iff.1 h
    cases he
    rw [List.cons_append, lexeme?_quote hc, closeString_local ha]
    rfl
  | case4 c t hn hc =>
    intro h
    cases h
    refine lexeme?_char (by simpa using hc) fun hslash hstar' => ?_
    obtain ⟨t', rfl⟩ := List.head?_eq_some_iff.1 (hstar (by rw [hslash]) hstar')
    exact hn t' hslash rfl

/-- Induction along the lexemes of a text. -/
theorem lexeme_induction {motive : Text → Prop}
    (step : ∀ t, (∀ l rest, lexeme? t = some (l, rest) → motive rest) → motive t) (t : Text) : motive t := by
  induction hn : t.length using Nat.strongRecOn generalizing t with
  | ind n ih =>
    subst hn
    exact step t fun l rest h => ih rest.length (length_lexeme?_lt h) rest rfl

/-- The first lexeme of a block that is closed: the brace that closes it, a brace that closes or
opens a block inside it, or anything else. -/
theorem closeBlock_eq_some {depth : Nat} {t a rest : Text} (h : closeBlock depth t = some (a, rest)) :
    (lexeme? t = some (['}'], rest) ∧ depth = 0 ∧ a = []) ∨
    (∃ r d b, lexeme? t = some (['}'], r) ∧ depth = d + 1 ∧ closeBlock d r = some (b, rest) ∧ a = '}' :: b) ∨
    (∃ l r b, lexeme? t = some (l, r) ∧ l ≠ ['}'] ∧
      closeBlock (if l = ['\x7b'] then depth + 1 else depth) r = some (b, rest) ∧ a = l ++ b) := by
  rw [closeBlock_eq] at h
  split at h
  · cases h
  · next l r hl =>
    split at h
    · next hclose =>
      subst hclose
      split at h
      · cases h
        exact .inl ⟨hl, rfl, rfl⟩
      · next d =>
        obtain ⟨⟨b, r'⟩, hb, he⟩ := Option.map_eq_some_iff.1 h
        cases he
        exact .inr (.inl ⟨r, d, b, hl, rfl, hb, rfl⟩)
    · next hne =>
      obtain ⟨⟨b, r'⟩, hb, he⟩ := Option.map_eq_some_iff.1 h
      cases he
      exact .inr (.inr ⟨l, r, b, hl, hne, hb, rfl⟩)

theorem closeBlock_local {depth : Nat} {t a rest : Text} (h : closeBlock depth t = some (a, rest)) (rest' : Text) :
    closeBlock depth (a ++ '}' :: rest') = some (a, rest') := by
  induction t using lexeme_induction generalizing depth a with
  | step t ih =>
    have hclose : lexeme? ('}' :: rest') = some (['}'], rest') := rfl
    rcases closeBlock_eq_some h with ⟨-, rfl, rfl⟩ | ⟨r, d, b, hl, rfl, hb, rfl⟩ | ⟨l, r, b, hl, hne, hb, rfl⟩
    · rw [closeBlock_eq, List.nil_append, hclose]
      rfl
    · have hl' : lexeme? ('}' :: (b ++ '}' :: rest')) = some (['}'], b ++ '}' :: rest') := rfl
      rw [closeBlock_eq, List.cons_append, hl']
      simp [ih _ _ hl hb]
    · -- what follows the lexeme begins as it did
      have hhead : (b ++ '}' :: rest').head? = some '*' → r.head? = some '*' := by
        rw [← closeBlock_append hb]
        cases b <;> simp
      rw [List.append_assoc, closeBlock_eq, lexeme?_local hl fun _ => hhead]
      simp [hne, ih _ _ hl hb]

theorem closeHeader_eq_some {t a rest : Text} {e : HeaderEnd} (h : closeHeader t = some (a, e, rest)) :
    (lexeme? t = some ([e.mark], rest) ∧ a = []) ∨
    (∃ l r b, lexeme? t = some (l, r) ∧ l ≠ [';'] ∧ l ≠ ['\x7b'] ∧ closeHeader r = some (b, e, rest) ∧ a = l ++ b) := by
  rw [closeHeader_eq] at h
  split at h
  · cases h
  · next l r hl =>
    split at h
    · next hs =>
      cases h
      exact .inl ⟨hs ▸ hl, rfl⟩
    · next hs =>
      split at h
      · next ho =>
        cases h
        exact .inl ⟨ho ▸ hl, rfl⟩
      · next ho =>
        obtain ⟨⟨b, e', r'⟩, hb, he⟩ := Option.map_eq_some_iff.1 h
        cases he
        exact .inr ⟨l, r, b, hl, hs, ho, hb, rfl⟩

theorem closeHeader_local {t a rest : Text} {e : HeaderEnd} (h : closeHeader t = some (a, e, rest)) (rest' : Text) :
    closeHeader (a ++ e.mark :: rest') = some (a, e, rest') := by
  induction t using lexeme_induction generalizing a with
  | step t ih =>
    rcases closeHeader_eq_some h with ⟨-, rfl⟩ | ⟨l, r, b, hl, hs, ho, hb, rfl⟩
    · cases e <;> rw [closeHeader_eq] <;> rfl
    · have hhead : (b ++ e.mark :: rest').head? = some '*' → r.head? = some '*' := by
        rw [← closeHeader_append hb]
        cases b <;> simp
      rw [List.append_assoc, closeHeader_eq, lexeme?_local hl fun _ => hhead]
      simp [hs, ho, ih _ _ hl hb]

end Cull.Stylesheet
