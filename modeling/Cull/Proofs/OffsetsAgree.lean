import Cull.Proofs.Offsets
import Cull.Proofs.Tree

/-!
# Reading by offsets never goes wrong

The reader by offsets gives the stylesheet that `parse` gives, for every text: every
loop gets on, no offset leaves the buffer, no cut falls inside a character, no span
is inverted and no block is closed that is not open. Each loop over bytes is tied to
the reader of characters that it corresponds to, on a buffer that holds the
characters read before (`pre`) and the text that is left.
-/

namespace Cull.Stylesheet.Offsets

open Text

/-! ### The byte at an offset -/

theorem lt_length_of_getElem? {bs : List UInt8} {pos : Nat} {b : UInt8} (h : bs[pos]? = some b) :
    pos < bs.length :=
  (List.getElem?_eq_some_iff.1 h).1

theorem byteAt_of_getElem? {bs : List UInt8} {pos : Nat} {b : UInt8} (h : bs[pos]? = some b) :
    byteAt bs pos = pure b := by
  simp [byteAt, h]

variable {bs : List UInt8} {pre t : Text} {c : Char}

theorem getElem?_lead (hbs : bs = bytes (pre ++ c :: t)) : bs[byteLength pre]? = some (lead c) := by
  rw [hbs, getElem?_bytes_lead]

theorem byteAt_lead (hbs : bs = bytes (pre ++ c :: t)) : byteAt bs (byteLength pre) = pure (lead c) :=
  byteAt_of_getElem? (getElem?_lead hbs)

theorem lt_length_lead (hbs : bs = bytes (pre ++ c :: t)) : byteLength pre < bs.length :=
  lt_length_of_getElem? (getElem?_lead hbs)

theorem not_lt_length_end (hbs : bs = bytes (pre ++ [])) : ¬ byteLength pre < bs.length := by
  simp [hbs]

theorem byteLength_lt_append {w : Text} (hw : w ≠ []) (s : Text) : byteLength s < byteLength (s ++ w) := by
  rw [byteLength_append]
  exact Nat.lt_add_of_pos_right (byteLength_pos hw)

/-- The same buffer, one character further on. -/
theorem next_char (hbs : bs = bytes (pre ++ c :: t)) : bs = bytes ((pre ++ [c]) ++ t) := by
  simpa using hbs

/-! ### Strings and comments -/

section

variable {q : Char}

theorem skipString_skip (hq : q.val.toNat < 128) (pos : Nat) (b : UInt8) (h : bs[pos]? = some b)
    (hb : 128 ≤ b.toNat) : skipString bs (mark q) pos = skipString bs (mark q) (pos + 1) := by
  conv => lhs; rw [skipString]
  simp [lt_length_of_getElem? h, byteAt_of_getElem? h, ne_mark hq hb, ne_mark (m := '\\') (by decide) hb]

theorem skipString_lead (hq : q.val.toNat < 128) (hbs : bs = bytes (pre ++ c :: t)) :
    skipString bs (mark q) (byteLength pre) =
      if c = '\\' then skipString bs (mark q) (byteLength pre + 2)
      else if c = q then pure (some (byteLength pre + 1))
      else skipString bs (mark q) (byteLength pre + 1) := by
  conv => lhs; rw [skipString]
  simp only [lt_length_lead hbs, if_true, byteAt_lead hbs, pure_bind, lead_eq_mark_iff hq,
    lead_eq_mark_iff (m := '\\') (by decide)]

theorem skipString_eq (hq : q.val.toNat < 128) (hbs : bs = bytes (pre ++ t)) :
    skipString bs (mark q) (byteLength pre) =
      pure ((closeString q t).map fun p => byteLength pre + byteLength p.1) := by
  have hback : '\\'.utf8Size = 1 := rfl
  fun_induction closeString q t generalizing pre with
  | case1 =>
    rw [skipString]
    simp [not_lt_length_end hbs]
  | case2 =>
    -- the escaped character is missing: the offset is past the end
    have hlt : ¬ byteLength pre + 2 < bs.length := by simp [hbs, hback]
    rw [skipString_lead hq hbs, if_pos rfl, skipString]
    simp [hlt]
  | case3 c t ih =>
    -- the offset may now lie inside the escaped character
    have hnext := next_char hbs
    have hpos : byteLength (pre ++ ['\\']) + 1 = byteLength pre + 2 := by simp [hback]
    rw [skipString_lead hq hbs, if_pos rfl, ← hpos, skip_char (skipString_skip hq) hnext, ih (next_char hnext)]
    simp [Function.comp_def, Nat.add_assoc]
  | case4 t hn hn' =>
    rw [skipString_lead hq hbs, if_neg (ne_backslash hn hn'), if_pos rfl]
    simp [utf8Size_of_lt hq]
  | case5 c t hn hn' hc ih =>
    rw [skipString_lead hq hbs, if_neg (ne_backslash hn hn'), if_neg hc, skip_char (skipString_skip hq) hbs,
      ih (next_char hbs)]
    simp [Function.comp_def, Nat.add_assoc]

end

/-- Where no comment ends, the search for its end goes on with the next byte. -/
theorem skipComment_step {pos : Nat} (h : ¬ (bs[pos]? = some (mark '*') ∧ bs[pos + 1]? = some (mark '/'))) :
    skipComment bs pos = skipComment bs (pos + 1) := by
  conv => lhs; rw [skipComment]
  by_cases hlt : pos + 1 < bs.length
  · have hpos : bs[pos]? = some bs[pos] := List.getElem?_eq_getElem (by omega)
    have hnext : bs[pos + 1]? = some bs[pos + 1] := List.getElem?_eq_getElem hlt
    rw [hpos, hnext] at h
    simp only [Option.some.injEq] at h
    simp [hlt, byteAt_of_getElem? hpos, byteAt_of_getElem? hnext, h]
  · rw [skipComment]
    have hlt' : ¬ pos + 1 + 1 < bs.length := by omega
    simp [hlt, hlt']

theorem skipComment_skip (pos : Nat) (b : UInt8) (h : bs[pos]? = some b) (hb : 128 ≤ b.toNat) :
    skipComment bs pos = skipComment bs (pos + 1) := by
  refine skipComment_step ?_
  rintro ⟨hstar, -⟩
  rw [h, Option.some.injEq] at hstar
  exact ne_mark (by decide) hb hstar

/-- The byte behind a mark is the first byte of what follows. -/
theorem getElem?_next (hc : c.val.toNat < 128) (hbs : bs = bytes (pre ++ c :: t)) {m : Char} (hm : m.val.toNat < 128) :
    bs[byteLength pre + 1]? = some (mark m) ↔ t.head? = some m := by
  have hpos : byteLength pre + 1 = byteLength (pre ++ [c]) := by simp [utf8Size_of_lt hc]
  rw [hpos]
  cases t with
  | nil => simp [next_char hbs]
  | cons d t =>
    rw [getElem?_lead (next_char hbs), Option.some.injEq, lead_eq_mark_iff hm]
    simp

theorem skipComment_eq (hbs : bs = bytes (pre ++ t)) :
    skipComment bs (byteLength pre) =
      pure ((closeComment t).map fun p => byteLength pre + byteLength p.1) := by
  have hstar : '*'.utf8Size = 1 := rfl
  have hslash : '/'.utf8Size = 1 := rfl
  fun_induction closeComment t generalizing pre with
  | case1 t =>
    have hpos : byteLength pre + 1 = byteLength (pre ++ ['*']) := by simp [hstar]
    have hnext := next_char hbs
    have hlt : byteLength pre + 1 < bs.length := hpos ▸ lt_length_lead hnext
    rw [skipComment]
    simp only [hlt, if_true, byteAt_lead hbs, pure_bind]
    rw [hpos, byteAt_lead hnext]
    simp [lead_eq_mark_iff, hstar, hslash]
  | case2 c t hn ih =>
    have hstep : skipComment bs (byteLength pre) = skipComment bs (byteLength pre + 1) := by
      refine skipComment_step ?_
      rintro ⟨hc, hd⟩
      rw [getElem?_lead hbs, Option.some.injEq, lead_eq_mark_iff (by decide)] at hc
      subst hc
      rw [getElem?_next (by decide) hbs (by decide)] at hd
      obtain ⟨t', rfl⟩ := List.head?_eq_some_iff.1 hd
      exact hn t' rfl rfl
    rw [hstep, skip_char skipComment_skip hbs, ih (next_char hbs)]
    simp [Function.comp_def, Nat.add_assoc]
  | case3 =>
    have hlt : ¬ byteLength pre + 1 < bs.length := by simp [hbs]
    rw [skipComment]
    simp [hlt]

/-- Two bytes say whether a comment begins. -/
theorem opensComment_lead (hbs : bs = bytes (pre ++ c :: t)) :
    lead c = mark '/' ∧ bs[byteLength pre + 1]? = some (mark '*') ↔ c = '/' ∧ t.head? = some '*' := by
  rw [lead_eq_mark_iff (by decide)]
  constructor
  · rintro ⟨rfl, hstar⟩
    exact ⟨rfl, (getElem?_next (by decide) hbs (by decide)).1 hstar⟩
  · rintro ⟨rfl, hstar⟩
    exact ⟨rfl, (getElem?_next (by decide) hbs (by decide)).2 hstar⟩

/-- The search for the end of a comment, from behind its opening mark. -/
theorem skipComment_open (hbs : bs = bytes (pre ++ '/' :: '*' :: t)) :
    skipComment bs (byteLength pre + 2) =
      pure ((closeComment t).map fun p => byteLength (pre ++ '/' :: '*' :: p.1)) := by
  have hslash : '/'.utf8Size = 1 := rfl
  have hstar : '*'.utf8Size = 1 := rfl
  have hpos : byteLength pre + 2 = byteLength (pre ++ ['/'] ++ ['*']) := by simp [hslash, hstar]
  rw [hpos, skipComment_eq (next_char (next_char hbs))]
  simp [Nat.add_assoc]

/-! ### Lexemes -/

theorem isBlankByte_lead (c : Char) : isBlankByte (lead c) = isAsciiBlank c := by
  simp [isBlankByte, isAsciiBlank, lead_eq_mark_iff]

theorem isQuoteByte_lead (c : Char) : isQuoteByte (lead c) = isQuote c := by
  simp [isQuoteByte, isQuote, lead_eq_mark_iff]

theorem lt_of_isQuote (hc : isQuote c = true) : c.val.toNat < 128 := by
  simp only [isQuote, Bool.or_eq_true, decide_eq_true_eq] at hc
  rcases hc with rfl | rfl <;> decide

theorem not_isQuoteByte {b : UInt8} (hb : 128 ≤ b.toNat) : isQuoteByte b = false := by
  simp [isQuoteByte, ne_mark (m := '"') (by decide) hb, ne_mark (m := '\'') (by decide) hb]

/-- A loop that goes on behind a string, a comment or a byte goes on behind a lexeme. -/
theorem skipLexeme_bind {β : Type} {f : Nat → Scan β} {stop : Scan β}
    (hskip : ∀ pos b, bs[pos]? = some b → 128 ≤ b.toNat → f pos = f (pos + 1)) (hbs : bs = bytes (pre ++ c :: t)) :
    (do match ← skipLexeme bs (byteLength pre) (lead c) with
        | none => stop
        | some next => if byteLength pre < next then f next else throw (.stalled (byteLength pre))) =
      match lexeme? (c :: t) with
      | none => stop
      | some (l, _) => f (byteLength (pre ++ l)) := by
  by_cases hq : isQuote c = true
  · have hc := lt_of_isQuote hq
    have hpos : byteLength pre + 1 = byteLength (pre ++ [c]) := by simp [utf8Size_of_lt hc]
    rw [skipLexeme, isQuoteByte_lead, if_pos hq, lead_eq_mark hc, hpos, skipString_eq hc (next_char hbs),
      lexeme?_quote hq]
    cases closeString c t <;> simp [utf8Size_of_lt hc, Nat.add_assoc]
  · rw [skipLexeme, isQuoteByte_lead, if_neg hq]
    simp only [Bool.and_eq_true, decide_eq_true_eq, opensComment_lead hbs]
    by_cases hcomment : c = '/' ∧ t.head? = some '*'
    · rw [if_pos hcomment]
      obtain ⟨rfl, hstar⟩ := hcomment
      obtain ⟨t', rfl⟩ := List.head?_eq_some_iff.1 hstar
      rw [skipComment_open hbs, lexeme?]
      cases closeComment t' with
      | none => rfl
      | some p => exact if_pos (byteLength_lt_append (by simp) pre)
    · have hlex := lexeme?_char (by simpa using hq) fun hslash hstar => hcomment ⟨hslash, hstar⟩
      rw [if_neg hcomment, hlex, pure_bind]
      exact (if_pos (Nat.lt_succ_self _)).trans (skip_char hskip hbs)

theorem findBrace_skip {depth : Nat} (pos : Nat) (b : UInt8) (h : bs[pos]? = some b) (hb : 128 ≤ b.toNat) :
    findBrace bs depth pos = findBrace bs depth (pos + 1) := by
  conv => lhs; rw [findBrace]
  simp [lt_length_of_getElem? h, byteAt_of_getElem? h, skipLexeme, not_isQuoteByte hb, ne_mark (m := '\x7b') (by decide) hb,
    ne_mark (m := '}') (by decide) hb, ne_mark (m := '/') (by decide) hb]

/-- The loop that closes a block, at the first byte of a character. -/
theorem findBrace_lead {depth : Nat} (hbs : bs = bytes (pre ++ c :: t)) :
    findBrace bs (depth + 1) (byteLength pre) =
      if c = '\x7b' then findBrace bs (depth + 2) (byteLength (pre ++ [c]))
      else if c = '}' then
        if depth = 0 then pure (some (byteLength pre)) else findBrace bs depth (byteLength (pre ++ [c]))
      else
        match lexeme? (c :: t) with
        | none => pure none
        | some (l, _) => findBrace bs (depth + 1) (byteLength (pre ++ l)) := by
  rw [findBrace]
  simp only [lt_length_lead hbs, if_true, byteAt_lead hbs, pure_bind, lead_eq_mark_iff (m := '\x7b') (by decide),
    lead_eq_mark_iff (m := '}') (by decide), Nat.add_sub_cancel, Nat.add_one_ne_zero, if_false]
  by_cases hopen : c = '\x7b'
  · rw [if_pos hopen, if_pos hopen, skip_char findBrace_skip hbs]
  by_cases hclose : c = '}'
  · rw [if_neg hopen, if_neg hopen, if_pos hclose, if_pos hclose, skip_char findBrace_skip hbs]
  rw [if_neg hopen, if_neg hopen, if_neg hclose, if_neg hclose]
  exact skipLexeme_bind (f := findBrace bs (depth + 1)) findBrace_skip hbs

/-- The buffer behind a lexeme. -/
theorem next_lexeme {l rest : Text} (hl : lexeme? t = some (l, rest)) (hbs : bs = bytes (pre ++ t)) :
    bs = bytes ((pre ++ l) ++ rest) := by
  rw [List.append_assoc, lexeme?_append hl, hbs]

/-- With `depth` blocks open inside the one that is closed, the depth is never zero. -/
theorem findBrace_eq (depth : Nat) (hbs : bs = bytes (pre ++ t)) :
    findBrace bs (depth + 1) (byteLength pre) =
      pure ((closeBlock depth t).map fun p => byteLength pre + byteLength p.1) := by
  induction t using lexeme_induction generalizing depth pre with
  | step t ih =>
    cases t with
    | nil =>
      rw [findBrace, closeBlock]
      simp [not_lt_length_end hbs]
    | cons c t =>
      rw [findBrace_lead hbs]
      by_cases hopen : c = '\x7b'
      · subst hopen
        rw [if_pos rfl, closeBlock_open, ih _ _ rfl (depth + 1) (next_char hbs)]
        simp [Function.comp_def, Nat.add_assoc]
      by_cases hclose : c = '}'
      · subst hclose
        rw [if_neg hopen, if_pos rfl]
        cases depth with
        | zero => simp [closeBlock]
        | succ d =>
          rw [if_neg (Nat.succ_ne_zero d), closeBlock_close, ih _ _ rfl d (next_char hbs)]
          simp [Function.comp_def, Nat.add_assoc]
      rw [if_neg hopen, if_neg hclose]
      cases hl : lexeme? (c :: t) with
      | none => simp [closeBlock_eq, hl]
      | some p =>
        obtain ⟨l, rest⟩ := p
        dsimp only
        rw [ih l rest hl depth (next_lexeme hl hbs)]
        obtain ⟨l', rfl⟩ := lexeme?_head hl
        rw [closeBlock_pass hl (by simp [hclose]) (by simp [hopen])]
        simp [Function.comp_def, Nat.add_assoc]

theorem matchingBrace_eq (hbs : bs = bytes (pre ++ '\x7b' :: t)) :
    matchingBrace bs (byteLength pre) =
      pure ((closeBlock 0 t).map fun p => byteLength (pre ++ ['\x7b']) + byteLength p.1) := by
  have hpos : byteLength pre + 1 = byteLength (pre ++ ['\x7b']) := by
    simp [utf8Size_of_lt (m := '\x7b') (by decide)]
  rw [matchingBrace, if_pos (by rw [getElem?_lead hbs, lead_eq_mark (by decide)]), findBrace]
  simp only [lt_length_lead hbs, if_true, byteAt_lead hbs, pure_bind, lead_eq_mark (c := '\x7b') (by decide)]
  rw [Nat.zero_add, hpos, findBrace_eq 0 (next_char hbs)]

theorem findHeaderEnd_skip (pos : Nat) (b : UInt8) (h : bs[pos]? = some b) (hb : 128 ≤ b.toNat) :
    findHeaderEnd bs pos = findHeaderEnd bs (pos + 1) := by
  conv => lhs; rw [findHeaderEnd]
  simp [lt_length_of_getElem? h, byteAt_of_getElem? h, skipLexeme, not_isQuoteByte hb, ne_mark (m := '\x7b') (by decide) hb,
    ne_mark (m := ';') (by decide) hb, ne_mark (m := '/') (by decide) hb]

theorem findHeaderEnd_lead (hbs : bs = bytes (pre ++ c :: t)) :
    findHeaderEnd bs (byteLength pre) =
      if c = '\x7b' then pure (some (.brace, byteLength pre))
      else if c = ';' then pure (some (.semicolon, byteLength pre))
      else
        match lexeme? (c :: t) with
        | none => pure none
        | some (l, _) => findHeaderEnd bs (byteLength (pre ++ l)) := by
  rw [findHeaderEnd]
  simp only [lt_length_lead hbs, if_true, byteAt_lead hbs, pure_bind, lead_eq_mark_iff (m := '\x7b') (by decide),
    lead_eq_mark_iff (m := ';') (by decide)]
  by_cases hopen : c = '\x7b'
  · rw [if_pos hopen, if_pos hopen]
  by_cases hsemi : c = ';'
  · rw [if_neg hopen, if_neg hopen, if_pos hsemi, if_pos hsemi]
  rw [if_neg hopen, if_neg hopen, if_neg hsemi, if_neg hsemi]
  exact skipLexeme_bind (f := findHeaderEnd bs) findHeaderEnd_skip hbs

theorem findHeaderEnd_eq (hbs : bs = bytes (pre ++ t)) :
    findHeaderEnd bs (byteLength pre) =
      pure ((closeHeader t).map fun p => (p.2.1, byteLength pre + byteLength p.1)) := by
  induction t using lexeme_induction generalizing pre with
  | step t ih =>
    cases t with
    | nil =>
      rw [findHeaderEnd, closeHeader]
      simp [not_lt_length_end hbs]
    | cons c t =>
      rw [findHeaderEnd_lead hbs]
      by_cases hopen : c = '\x7b'
      · subst hopen
        rw [if_pos rfl, closeHeader]
        simp
      by_cases hsemi : c = ';'
      · subst hsemi
        rw [if_neg hopen, if_pos rfl, closeHeader]
        simp
      rw [if_neg hopen, if_neg hsemi]
      cases hl : lexeme? (c :: t) with
      | none => simp [closeHeader_eq, hl]
      | some p =>
        obtain ⟨l, rest⟩ := p
        dsimp only
        rw [ih l rest hl (next_lexeme hl hbs)]
        obtain ⟨l', rfl⟩ := lexeme?_head hl
        rw [closeHeader_pass hl (by simp [hsemi]) (by simp [hopen])]
        simp [Function.comp_def, Nat.add_assoc]

/-! ### Names and headers -/

theorem nameEnd_skip (pos : Nat) (b : UInt8) (h : bs[pos]? = some b) (hb : 128 ≤ b.toNat) :
    nameEnd bs pos = nameEnd bs (pos + 1) := by
  have hblank : isBlankByte b = false := by
    simp [isBlankByte, ne_mark (m := ' ') (by decide) hb, ne_mark (m := '\t') (by decide) hb,
      ne_mark (m := '\n') (by decide) hb, ne_mark (m := '\x0c') (by decide) hb, ne_mark (m := '\r') (by decide) hb]
  conv => lhs; rw [nameEnd]
  simp [lt_length_of_getElem? h, byteAt_of_getElem? h, hblank, ne_mark (m := '\x7b') (by decide) hb,
    ne_mark (m := ';') (by decide) hb]

theorem nameEnd_eq (hbs : bs = bytes (pre ++ t)) :
    nameEnd bs (byteLength pre) = pure (byteLength (pre ++ t.takeWhile isAtNameChar)) := by
  induction t generalizing pre with
  | nil =>
    rw [nameEnd]
    simp [not_lt_length_end hbs]
  | cons c t ih =>
    have hstop : (lead c = mark '\x7b' || lead c = mark ';' || isBlankByte (lead c)) = !isAtNameChar c := by
      simp [isAtNameChar, isBlankByte_lead, lead_eq_mark_iff]
    rw [nameEnd]
    simp only [lt_length_lead hbs, if_true, byteAt_lead hbs, pure_bind, hstop]
    cases hc : isAtNameChar c with
    | true =>
      simp only [Bool.not_true, Bool.false_eq_true, if_false]
      rw [skip_char nameEnd_skip hbs, ih (next_char hbs), List.takeWhile_cons_of_pos hc, List.append_assoc,
        List.singleton_append]
    | false => simp [hc]

theorem findOpen_skip (pos : Nat) (b : UInt8) (h : bs[pos]? = some b) (hb : 128 ≤ b.toNat) :
    findOpen bs pos = findOpen bs (pos + 1) := by
  conv => lhs; rw [findOpen]
  simp [lt_length_of_getElem? h, byteAt_of_getElem? h, ne_mark (m := '\x7b') (by decide) hb]

theorem findOpen_lead (hbs : bs = bytes (pre ++ c :: t)) :
    findOpen bs (byteLength pre) =
      if c = '\x7b' then pure (some (byteLength pre)) else findOpen bs (byteLength (pre ++ [c])) := by
  rw [findOpen]
  simp only [lt_length_lead hbs, if_true, byteAt_lead hbs, pure_bind, lead_eq_mark_iff (m := '\x7b') (by decide)]
  rw [skip_char findOpen_skip hbs]

theorem findOpen_header {header : Text} (hheader : ∀ c ∈ header, c ≠ '\x7b')
    (hbs : bs = bytes (pre ++ (header ++ '\x7b' :: t))) :
    findOpen bs (byteLength pre) = pure (some (byteLength (pre ++ header))) := by
  induction header generalizing pre with
  | nil =>
    rw [findOpen_lead hbs, if_pos rfl]
    simp
  | cons c header ih =>
    rw [findOpen_lead hbs, if_neg (hheader c (.head _)), ih (fun d hd => hheader d (.tail _ hd)) (next_char hbs)]
    simp

theorem findOpen_none (ht : ∀ c ∈ t, c ≠ '\x7b') (hbs : bs = bytes (pre ++ t)) :
    findOpen bs (byteLength pre) = pure none := by
  induction t generalizing pre with
  | nil =>
    rw [findOpen]
    simp [not_lt_length_end hbs]
  | cons c t ih =>
    rw [findOpen_lead hbs, if_neg (ht c (.head _)), ih (fun d hd => ht d (.tail _ hd)) (next_char hbs)]

/-! ### Cuts and spans -/

section

variable {source post w : Text}

theorem bytesBefore_eq (hsource : source = pre ++ post) : bytesBefore source (byteLength pre) = pure (bytes pre) := by
  rw [hsource, bytesBefore, if_pos (by simp), bytes_append, List.take_append_of_le_length (by simp),
    List.take_of_length_le (by simp)]

theorem cut_eq (pre w post : Text) (hsource : source = pre ++ (w ++ post)) :
    cut source (byteLength pre) (byteLength (pre ++ w)) = pure w := by
  rw [hsource, cut, byteLength_append, if_pos (Nat.le_add_right _ _), slice?_append]

theorem spanOf_eq (pre w : Text) :
    spanOf (byteLength pre) (byteLength (pre ++ w)) = pure (.ofText (byteLength pre) w) := by
  rw [byteLength_append]
  simp [spanOf, Span.ofEnds, Span.ofText]

/-- The marks of a stylesheet take up one byte each. -/
theorem byteLength_mark (hc : c.val.toNat < 128) (s : Text) : byteLength s + 1 = byteLength (s ++ [c]) := by
  simp [utf8Size_of_lt hc]

/-- The ends of a block that begins behind `s`: behind the opening brace, at the closing one, behind it. -/
theorem block_ends (s body : Text) :
    byteLength s + 1 = byteLength (s ++ ['\x7b']) ∧
    byteLength (s ++ ['\x7b']) + byteLength body = byteLength (s ++ ['\x7b'] ++ body) ∧
    byteLength (s ++ ['\x7b'] ++ body) + 1 = byteLength (s ++ '\x7b' :: (body ++ ['}'])) := by
  refine ⟨byteLength_mark (by decide) s, (byteLength_append _ _).symm, ?_⟩
  rw [byteLength_mark (c := '}') (by decide)]
  simp

/-- A block lies inside the text that its rule is in. -/
theorem block_inside (pre header body rest : Text) :
    byteLength pre ≤ byteLength (pre ++ header) ∧
    byteLength (pre ++ header) < byteLength (pre ++ header ++ ['\x7b'] ++ body) ∧
    byteLength (pre ++ header ++ ['\x7b'] ++ body) <
      byteLength (pre ++ header ++ ['\x7b'] ++ body ++ '}' :: rest) := by
  refine ⟨?_, ?_, byteLength_lt_append (by simp) _⟩
  · rw [byteLength_append]
    exact Nat.le_add_right _ _
  · rw [List.append_assoc (pre ++ header)]
    exact byteLength_lt_append (by simp) _

/-! ### Rules -/

theorem readPlainAt_eq (hsource : source = pre ++ t ++ post) :
    readPlainAt source (byteLength pre) (byteLength (pre ++ t)) =
      pure ((readPlain t).map fun p =>
        ((Construct.plain p.1 p.2.1).rules (byteLength pre),
          byteLength (pre ++ (Construct.plain p.1 p.2.1).text))) := by
  rw [readPlainAt, bytesBefore_eq hsource, cut_eq pre t post (hsource.trans (List.append_assoc _ _ _))]
  simp only [pure_bind]
  by_cases hopen : '\x7b' ∈ t
  · obtain ⟨header, t', rfl, hnot⟩ := List.eq_append_cons_of_mem hopen
    have hheader : ∀ c ∈ header, c ≠ '\x7b' := fun c hc he => hnot (he ▸ hc)
    have hbs : bytes (pre ++ (header ++ '\x7b' :: t')) = bytes (pre ++ header ++ '\x7b' :: t') := by
      rw [List.append_assoc]
    rw [readPlain_header hheader, findOpen_header hheader rfl]
    simp only [pure_bind, matchingBrace_eq hbs]
    cases hb : closeBlock 0 t' with
    | none => rfl
    | some p =>
      obtain ⟨body, rest⟩ := p
      have ht' := closeBlock_append hb
      obtain ⟨hinner, hclose, hend⟩ := block_ends (pre ++ header) body
      rw [List.append_assoc pre header ('\x7b' :: (body ++ ['}']))] at hend
      -- the cuts that the rule is put together from
      have hcutHeader : cut source (byteLength pre) (byteLength (pre ++ header)) = pure header :=
        cut_eq _ _ ('\x7b' :: (t' ++ post)) (by rw [hsource]; simp)
      have hcutBody : cut source (byteLength (pre ++ header ++ ['\x7b']))
          (byteLength (pre ++ header ++ ['\x7b'] ++ body)) = pure body :=
        cut_eq _ _ ('}' :: (rest ++ post)) (by rw [hsource, ← ht']; simp)
      have hcutText : cut source (byteLength pre) (byteLength (pre ++ (header ++ '\x7b' :: (body ++ ['}'])))) =
          pure (header ++ '\x7b' :: (body ++ ['}'])) :=
        cut_eq _ _ (rest ++ post) (by rw [hsource, ← ht']; simp)
      simp only [Option.map_some, hinner, hclose, hend, hcutHeader, hcutBody, hcutText, spanOf_eq, pure_bind,
        Construct.rules, Construct.text, plainRule?]
      split <;> rfl
  · have ht : ∀ c ∈ t, c ≠ '\x7b' := fun c hc he => hopen (he ▸ hc)
    rw [readPlain_none ht, findOpen_none ht rfl]
    rfl

theorem readAtRuleAt_eq (hsource : source = pre ++ '@' :: t ++ post)
    (hbody : ∀ name header body rest, readAtRule t = some (.block name header body, rest) →
      readRange source (byteLength (pre ++ header)) (byteLength (pre ++ header ++ body)) =
        pure (readRules (byteLength (pre ++ header)) body)) :
    readAtRuleAt source (byteLength pre) (byteLength (pre ++ '@' :: t)) =
      pure ((readAtRule t).map fun p =>
        ((Construct.atRule p.1).rules (byteLength pre), byteLength (pre ++ p.1.text))) := by
  generalize hnm : t.takeWhile isAtNameChar = nm at *
  generalize htl : t.dropWhile isAtNameChar = tl at *
  have ht : nm ++ tl = t := by rw [← hnm, ← htl, List.takeWhile_append_dropWhile]
  have hbs : bytes (pre ++ '@' :: t) = bytes ((pre ++ '@' :: nm) ++ tl) := by
    rw [← ht]
    simp
  have hfront : cut source 0 (byteLength (pre ++ '@' :: t)) = pure (pre ++ '@' :: t) :=
    cut_eq [] _ post hsource
  have hnameEnd : nameEnd (bytes (pre ++ '@' :: t)) (byteLength pre + 1) = pure (byteLength (pre ++ '@' :: nm)) := by
    rw [byteLength_mark (c := '@') (by decide), nameEnd_eq (next_char rfl), hnm]
    simp
  have hcutName : cut source (byteLength pre) (byteLength (pre ++ '@' :: nm)) = pure ('@' :: nm) :=
    cut_eq _ _ (tl ++ post) (by rw [hsource, ← ht]; simp)
  rw [readAtRuleAt, bytesBefore_eq hsource, hfront]
  simp only [pure_bind, hnameEnd, hcutName, findHeaderEnd_eq hbs]
  rw [readAtRule] at hbody ⊢
  simp only [hnm, htl] at hbody ⊢
  cases hh : closeHeader tl with
  | none => rfl
  | some p =>
    obtain ⟨prelude, mark, rest⟩ := p
    have htl' := closeHeader_append hh
    cases mark with
    | semicolon =>
      have hend : byteLength (pre ++ '@' :: nm) + byteLength prelude + 1 =
          byteLength (pre ++ '@' :: (nm ++ prelude ++ [';'])) := by
        simp [utf8Size_of_lt (m := ';') (by decide), Nat.add_assoc]
      have hcutText : cut source (byteLength pre) (byteLength (pre ++ '@' :: (nm ++ prelude ++ [';']))) =
          pure ('@' :: (nm ++ prelude ++ [';'])) :=
        cut_eq _ _ (rest ++ post) (by rw [hsource, ← ht, ← htl']; simp [HeaderEnd.mark])
      simp only [Option.map_some, hend, spanOf_eq, hcutText, pure_bind]
      rfl
    | brace =>
      have hbrace : byteLength (pre ++ '@' :: nm) + byteLength prelude =
          byteLength (pre ++ '@' :: (nm ++ prelude)) := by
        simp [Nat.add_assoc]
      have hbs' : bytes (pre ++ '@' :: t) = bytes (pre ++ '@' :: (nm ++ prelude) ++ '\x7b' :: rest) := by
        rw [← ht, ← htl']
        simp [HeaderEnd.mark]
      simp only [Option.map_some, hbrace, matchingBrace_eq hbs', pure_bind]
      cases hb : closeBlock 0 rest with
      | none => rfl
      | some p =>
        obtain ⟨body, rest'⟩ := p
        have hrest := closeBlock_append hb
        obtain ⟨hinner, hclose, hend⟩ := block_ends (pre ++ '@' :: (nm ++ prelude)) body
        have hheader : pre ++ '@' :: (nm ++ prelude) ++ ['\x7b'] = pre ++ '@' :: (nm ++ prelude ++ ['\x7b']) := by simp
        have htext : pre ++ '@' :: (nm ++ prelude) ++ '\x7b' :: (body ++ ['}']) =
            pre ++ ('@' :: (nm ++ prelude ++ ['\x7b']) ++ (body ++ ['}'])) := by simp
        have hcutText : cut source (byteLength pre)
            (byteLength (pre ++ ('@' :: (nm ++ prelude ++ ['\x7b']) ++ (body ++ ['}'])))) =
              pure ('@' :: (nm ++ prelude ++ ['\x7b']) ++ (body ++ ['}'])) :=
          cut_eq _ _ (rest' ++ post) (by rw [hsource, ← ht, ← htl', ← hrest]; simp [HeaderEnd.mark])
        have hblock := hbody ('@' :: nm) ('@' :: (nm ++ prelude ++ ['\x7b'])) body rest' (by simp only [hh, hb])
        rw [hheader] at hinner hclose hend
        rw [htext] at hend
        have hinside := block_inside pre ('@' :: (nm ++ prelude)) body rest'
        have hwhole : pre ++ '@' :: (nm ++ prelude ++ ['\x7b']) ++ body ++ '}' :: rest' = pre ++ '@' :: t := by
          rw [← ht, ← htl', ← hrest]
          simp [HeaderEnd.mark]
        rw [hheader, hwhole] at hinside
        simp only [Option.map_some, hheader, hinner, hclose, hend, spanOf_eq, hcutText, if_pos hinside, hblock,
          pure_bind, Construct.rules, AtForm.text]
        split
        · simp only [byteLength_append]
        · rfl

theorem lt_of_isAsciiBlank (hc : isAsciiBlank c = true) : c.val.toNat < 128 := by
  simp only [isAsciiBlank, Bool.or_eq_true, decide_eq_true_eq] at hc
  rcases hc with (((rfl | rfl) | rfl) | rfl) | rfl <;> decide

/-- One round of the loop over the constructs of a text. -/
theorem readRange_step (hsource : source = pre ++ t ++ post) (hne : t ≠ [])
    (hbody : ∀ name header body rest, readConstruct t = some (.atRule (.block name header body), rest) →
      readRange source (byteLength (pre ++ header)) (byteLength (pre ++ header ++ body)) =
        pure (readRules (byteLength (pre ++ header)) body)) :
    readRange source (byteLength pre) (byteLength (pre ++ t)) =
      match readConstruct t with
      | none => pure ([], some (.ofText (byteLength pre) t))
      | some (c, _) =>
        readRange source (byteLength (pre ++ c.text)) (byteLength (pre ++ t)) >>= fun r =>
          pure (c.rules (byteLength pre) ++ r.1, r.2) := by
  have hlt := byteLength_lt_append hne pre
  obtain ⟨c, t, rfl⟩ := List.exists_cons_of_ne_nil hne
  rw [readRange, bytesBefore_eq hsource]
  simp only [pure_bind, hlt, if_true, byteAt_lead rfl, isBlankByte_lead]
  by_cases hblank : isAsciiBlank c = true
  · have hc := lt_of_isAsciiBlank hblank
    have hat : c ≠ '@' := by
      rintro rfl
      cases hblank
    have hslash : c ≠ '/' := by
      rintro rfl
      cases hblank
    rw [if_pos hblank, readConstruct_cons hat fun h => absurd h hslash, if_pos hblank, byteLength_mark hc]
    simp [Construct.rules, Construct.text]
  rw [if_neg hblank]
  simp only [Bool.and_eq_true, decide_eq_true_eq, opensComment_lead rfl]
  by_cases hcomment : c = '/' ∧ t.head? = some '*'
  · rw [if_pos hcomment]
    obtain ⟨rfl, hstar⟩ := hcomment
    obtain ⟨t, rfl⟩ := List.head?_eq_some_iff.1 hstar
    rw [skipComment_open rfl, readConstruct]
    cases closeComment t with
    | none => simp only [Option.map_none, pure_bind, spanOf_eq]
    | some p =>
      simp only [Option.map_some, pure_bind, Construct.rules, Construct.text, List.nil_append]
      rw [if_pos (byteLength_lt_append (by simp) pre)]
      exact (bind_pure _).symm
  rw [if_neg hcomment]
  by_cases hat : c = '@'
  · subst hat
    have hrule := readAtRuleAt_eq hsource fun name header body rest h =>
      hbody name header body rest (by rw [readConstruct, h]; rfl)
    rw [if_pos (lead_eq_mark (by decide)), hrule]
    cases hform : readAtRule t with
    | none => simp only [readConstruct, hform, Option.map_none, pure_bind, spanOf_eq]
    | some p =>
      have hread : readConstruct ('@' :: t) = some (.atRule p.1, p.2) := by rw [readConstruct, hform, Option.map_some]
      have hnext : byteLength pre < byteLength (pre ++ p.1.text) :=
        byteLength_lt_append (readConstruct_text_ne_nil hread) pre
      simp only [hread, Option.map_some, pure_bind, if_pos hnext, Construct.text]
  · rw [if_neg (by rwa [lead_eq_mark_iff (by decide)]), readPlainAt_eq hsource,
      readConstruct_cons hat fun hslash hstar => hcomment ⟨hslash, hstar⟩, if_neg hblank]
    cases readPlain (c :: t) with
    | none => simp only [Option.map_none, pure_bind, spanOf_eq]
    | some p =>
      have hnext : byteLength pre < byteLength (pre ++ (Construct.plain p.1 p.2.1).text) :=
        byteLength_lt_append (by simp [Construct.text]) pre
      simp only [Option.map_some, pure_bind, if_pos hnext]

/-- Between the ends of a text, reading by offsets gives what reading the text gives. -/
theorem readRange_eq (t : Text) : ∀ pre post : Text, source = pre ++ t ++ post →
    readRange source (byteLength pre) (byteLength (pre ++ t)) = pure (readRules (byteLength pre) t) := by
  induction t using construct_induction with
  | stop t h =>
    intro pre post hsource
    rw [readRules_of_readConstruct_eq_none h]
    by_cases hne : t = []
    · subst hne
      rw [readRange, bytesBefore_eq hsource]
      simp [leftover]
    · rw [readRange_step hsource hne (by simp [h]), h]
      simp [leftover, hne]
  | step t c rest h ihbody ih =>
    intro pre post hsource
    have hne : t ≠ [] := by
      rintro rfl
      cases h
    have happend := readConstruct_append h
    rw [readRange_step hsource hne, h, readRules_of_readConstruct h]
    · have hrest : source = (pre ++ c.text) ++ rest ++ post := by
        rw [hsource, ← happend]
        simp
      have hstop : byteLength (pre ++ t) = byteLength (pre ++ c.text ++ rest) := by
        rw [← happend]
        simp
      dsimp only
      rw [hstop, ih _ post hrest, pure_bind, byteLength_append]
    · intro name header body rest' h'
      cases h.symm.trans h'
      refine ihbody name header body rfl _ ('}' :: (rest ++ post)) ?_
      rw [hsource, ← happend]
      simp [Construct.text, AtForm.text]

/-- Reading by offsets ends, never goes wrong, and gives the stylesheet. -/
theorem parse_eq (source : Text) : parse source = pure (Stylesheet.parse source) := by
  have h : readRange source (byteLength []) (byteLength ([] ++ source)) = pure (readRules (byteLength []) source) :=
    readRange_eq source [] [] (by simp)
  rw [List.nil_append, byteLength_nil] at h
  rw [parse, h]
  rfl

end

end Cull.Stylesheet.Offsets

namespace Cull.Stylesheet

/-- Every text can be read by offsets without a fault; the tree that this gives is in order at every
depth, and the gaps and rules of its top level make up the text. -/
theorem reading_safe_and_wellFormed (source : Text) :
    Offsets.parse source = pure (parse source) ∧ (parse source).WellFormed ∧
      ∃ spans texts, (parse source).gaps.mapM (fun g => Span.ofEnds g.1 g.2) = .ok spans ∧
        spans.mapM (·.slice? source) = some texts ∧ weave texts ((parse source).rules.map Rule.text) = source :=
  ⟨Offsets.parse_eq source, wellFormed_parse source, weave_gaps source⟩

end Cull.Stylesheet
