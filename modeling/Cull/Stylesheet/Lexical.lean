import Cull.Text.Blank

/-!
# Strings, comments and blocks

The closing half of each bracketed construct of a stylesheet. Every function
here is handed the text after the opening mark and returns the part up to the
end of the construct together with the rest, or nothing when the text ends
first. The two parts always make up the text that was handed in
(`closeString_append` and its companions), so nothing is lost and the rest is
shorter.
-/

namespace Cull.Stylesheet

open Text

/-- A quotation mark. -/
def isQuote (c : Char) : Bool := c = '"' || c = '\''

/-- Cuts after the closing quote `q`. A backslash takes the next character with it. -/
def closeString (q : Char) : Text → Option (Text × Text)
  | [] => none
  | ['\\'] => none
  | '\\' :: c :: t => (closeString q t).map fun (a, rest) => ('\\' :: c :: a, rest)
  | c :: t => if c = q then some ([c], t) else (closeString q t).map fun (a, rest) => (c :: a, rest)

/-- Cuts after the first `*/`. -/
def closeComment : Text → Option (Text × Text)
  | '*' :: '/' :: t => some (['*', '/'], t)
  | c :: t => (closeComment t).map fun (a, rest) => (c :: a, rest)
  | [] => none

theorem closeString_append {q : Char} {t a rest : Text} (h : closeString q t = some (a, rest)) :
    a ++ rest = t := by
  fun_induction closeString q t generalizing a rest with
  | case1 => simp at h
  | case2 => simp at h
  | case3 c t ih =>
    obtain ⟨⟨b, r⟩, hb, he⟩ := Option.map_eq_some_iff.1 h
    simp only [Prod.mk.injEq] at he
    obtain ⟨rfl, rfl⟩ := he
    simp [ih hb]
  | case4 t =>
    simp only [Option.some.injEq, Prod.mk.injEq] at h
    obtain ⟨rfl, rfl⟩ := h
    simp
  | case5 c t _ _ _ ih =>
    obtain ⟨⟨b, r⟩, hb, he⟩ := Option.map_eq_some_iff.1 h
    simp only [Prod.mk.injEq] at he
    obtain ⟨rfl, rfl⟩ := he
    simp [ih hb]

theorem closeComment_append {t a rest : Text} (h : closeComment t = some (a, rest)) :
    a ++ rest = t := by
  fun_induction closeComment t generalizing a rest with
  | case1 t =>
    simp only [Option.some.injEq, Prod.mk.injEq] at h
    obtain ⟨rfl, rfl⟩ := h
    simp
  | case2 c t _ ih =>
    obtain ⟨⟨b, r⟩, hb, he⟩ := Option.map_eq_some_iff.1 h
    simp only [Prod.mk.injEq] at he
    obtain ⟨rfl, rfl⟩ := he
    simp [ih hb]
  | case3 => simp at h

theorem length_closeString_le {q : Char} {t a rest : Text} (h : closeString q t = some (a, rest)) :
    rest.length ≤ t.length := by
  have := congrArg List.length (closeString_append h)
  simp at this
  omega

theorem length_closeComment_le {t a rest : Text} (h : closeComment t = some (a, rest)) :
    rest.length ≤ t.length := by
  have := congrArg List.length (closeComment_append h)
  simp at this
  omega

/-- Cuts at the brace that closes the block whose opening brace has just been read, with `depth`
further blocks open inside it. The brace itself is in neither part. Braces in strings and
comments do not count. -/
def closeBlock (depth : Nat) : Text → Option (Text × Text)
  | [] => none
  | '}' :: t =>
    match depth with
    | 0 => some ([], t)
    | d + 1 => (closeBlock d t).map fun (a, rest) => ('}' :: a, rest)
  | '\x7b' :: t => (closeBlock (depth + 1) t).map fun (a, rest) => ('\x7b' :: a, rest)
  | '/' :: '*' :: t =>
    match h : closeComment t with
    | none => none
    | some (c, t') =>
      have := length_closeComment_le h
      (closeBlock depth t').map fun (a, rest) => ('/' :: '*' :: (c ++ a), rest)
  | c :: t =>
    if isQuote c then
      match h : closeString c t with
      | none => none
      | some (s, t') =>
        have := length_closeString_le h
        (closeBlock depth t').map fun (a, rest) => (c :: (s ++ a), rest)
    else (closeBlock depth t).map fun (a, rest) => (c :: a, rest)
  termination_by t => t.length
  decreasing_by all_goals simp_wf; try omega

/-- What ends the header of an at-rule. -/
inductive HeaderEnd where
  /-- A semicolon: the at-rule is a statement. -/
  | semicolon
  /-- An opening brace: a block follows. -/
  | brace
  deriving DecidableEq

/-- The mark itself. -/
def HeaderEnd.mark : HeaderEnd → Char
  | semicolon => ';'
  | brace => '\x7b'

/-- Cuts the header of an at-rule at the first semicolon or opening brace outside strings and
comments. The mark itself is in neither part. -/
def closeHeader : Text → Option (Text × HeaderEnd × Text)
  | [] => none
  | ';' :: t => some ([], .semicolon, t)
  | '\x7b' :: t => some ([], .brace, t)
  | '/' :: '*' :: t =>
    match h : closeComment t with
    | none => none
    | some (c, t') =>
      have := length_closeComment_le h
      (closeHeader t').map fun (a, rest) => ('/' :: '*' :: (c ++ a), rest)
  | c :: t =>
    if isQuote c then
      match h : closeString c t with
      | none => none
      | some (s, t') =>
        have := length_closeString_le h
        (closeHeader t').map fun (a, rest) => (c :: (s ++ a), rest)
    else (closeHeader t).map fun (a, rest) => (c :: a, rest)
  termination_by t => t.length
  decreasing_by all_goals simp_wf; try omega

theorem closeBlock_append {depth : Nat} {t a rest : Text} (h : closeBlock depth t = some (a, rest)) :
    a ++ '}' :: rest = t := by
  fun_induction closeBlock depth t generalizing a rest <;>
    grind [closeString_append, closeComment_append, Option.map_eq_some_iff]

theorem closeHeader_append {t a rest : Text} {e : HeaderEnd} (h : closeHeader t = some (a, e, rest)) :
    a ++ e.mark :: rest = t := by
  fun_induction closeHeader t generalizing a rest <;>
    grind [closeString_append, closeComment_append, Option.map_eq_some_iff, HeaderEnd.mark]

theorem length_closeBlock_lt {d : Nat} {t a rest : Text} (h : closeBlock d t = some (a, rest)) :
    a.length + rest.length < t.length := by
  have := congrArg List.length (closeBlock_append h)
  simp at this
  omega

theorem length_closeHeader_lt {t a rest : Text} {e : HeaderEnd} (h : closeHeader t = some (a, e, rest)) :
    rest.length < t.length := by
  have := congrArg List.length (closeHeader_append h)
  simp at this
  omega

end Cull.Stylesheet
