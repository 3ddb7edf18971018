import Cull.Proofs.BlankLines
import Cull.Proofs.Constructs

/-!
# Reading squeezed text

Leaving out spare blanks changes nothing about how a text is read, as long as no
construct begins with one of them: a spare character is blank, it has a newline
before it and one behind it that stay, and so it is never the character behind a
backslash, never joins two marks or two names, and never opens or closes
anything. Each reader therefore gives on squeezed text the squeezed parts of what
it gives on the text.
-/

namespace Cull.Stylesheet

open Text

/-! ### Strings and comments -/

theorem isBlank_of_isQuote {q : Char} (hq : isQuote q = true) : isBlank q = false := by
  simp only [isQuote, Bool.or_eq_true, decide_eq_true_eq] at hq
  rcases hq with rfl | rfl
  · rfl
  · rfl

theorem closeString_endsSolid {q : Char} (hq : isQuote q = true) {t a rest : Text}
    (h : closeString q t = some (a, rest)) : EndsSolid a := by
  fun_induction closeString q t generalizing a rest with
  | case1 => cases h
  | case2 => cases h
  | case3 c t ih =>
    obtain ⟨⟨b, r⟩, hb, he⟩ := Option.map_eq_some_iff.1 h
    cases he
    exact ((ih hb).cons c).cons '\\'
  | case4 t =>
    cases h
    exact endsSolid_singleton (isBlank_of_isQuote hq)
  | case5 c t _ _ _ ih =>
    obtain ⟨⟨b, r⟩, hb, he⟩ := Option.map_eq_some_iff.1 h
    cases he
    exact (ih hb).cons c

theorem closeComment_endsSolid {t a rest : Text} (h : closeComment t = some (a, rest)) : EndsSolid a := by
  fun_induction closeComment t generalizing a rest with
  | case1 t =>
    cases h
    exact (endsSolid_singleton (c := '/') (by decide)).cons '*'
  | case2 c t _ ih =>
    obtain ⟨⟨b, r⟩, hb, he⟩ := Option.map_eq_some_iff.1 h
    cases he
    exact (ih hb).cons c
  | case3 => cases h

theorem closeString_squeeze {q : Char} (hq : isQuote q = true) (k j : Nat) (t : Text) :
    closeString q (squeeze k j t) = (closeString q t).map fun (a, rest) => (squeeze k 0 a, squeeze 0 j rest) := by
  fun_induction closeString q t generalizing k with
  | case1 => rfl
  | case2 => rfl
  | case3 c t ih =>
    rw [squeeze_solid (by decide), squeeze_zero_cons, closeString, ih]
    cases closeString q t with
    | none => rfl
    | some p => simp [squeeze_solid (c := '\\') (by decide), squeeze_zero_cons]
  | case4 t hn hn' =>
    have hsolid := isBlank_of_isQuote hq
    rw [squeeze_solid hsolid, closeString_cons (ne_backslash hn hn'), if_pos rfl]
    simp [squeeze_solid hsolid]
  | case5 c t hn hn' hc ih =>
    have hcons := closeString_cons (q := q) (ne_backslash hn hn')
    by_cases hspare : isSpare k (newlinesAhead j t) c = true
    · rw [squeeze_spare hspare, ih]
      cases ht : closeString q t with
      | none => rfl
      | some p =>
        have hsolid := closeString_endsSolid hq ht
        rw [← closeString_append ht, hsolid.isSpare_eq] at hspare
        simp [squeeze_spare hspare]
    · have hkept : isSpare k (newlinesAhead j t) c = false := by simpa using hspare
      rw [squeeze_kept hkept, hcons, if_neg hc, ih]
      cases ht : closeString q t with
      | none => rfl
      | some p =>
        have hsolid := closeString_endsSolid hq ht
        rw [← closeString_append ht, hsolid.isSpare_eq] at hkept
        simp [squeeze_kept hkept]

theorem closeComment_squeeze (k j : Nat) (t : Text) :
    closeComment (squeeze k j t) = (closeComment t).map fun (a, rest) => (squeeze k 0 a, squeeze 0 j rest) := by
  fun_induction closeComment t generalizing k with
  | case1 t =>
    have hmark : squeeze k 0 ['*', '/'] = ['*', '/'] := by
      rw [squeeze_solid (by decide), squeeze_solid (by decide), squeeze_nil]
    rw [squeeze_solid (by decide), squeeze_solid (by decide), closeComment]
    simp [hmark]
  | case2 c t hn ih =>
    by_cases hspare : isSpare k (newlinesAhead j t) c = true
    · rw [squeeze_spare hspare, ih]
      cases ht : closeComment t with
      | none => rfl
      | some p =>
        rw [← closeComment_append ht, (closeComment_endsSolid ht).isSpare_eq] at hspare
        simp [squeeze_spare hspare]
    · have hkept : isSpare k (newlinesAhead j t) c = false := by simpa using hspare
      have hslash : c = '*' → (squeeze (runAfter k c) j t).head? ≠ some '/' := by
        rintro rfl hhead
        rw [runAfter_solid (by decide), head?_squeeze_zero] at hhead
        obtain ⟨t', rfl⟩ := List.head?_eq_some_iff.1 hhead
        exact hn t' rfl rfl
      rw [squeeze_kept hkept, closeComment_cons hslash, ih]
      cases ht : closeComment t with
      | none => rfl
      | some p =>
        rw [← closeComment_append ht, (closeComment_endsSolid ht).isSpare_eq] at hkept
        simp [squeeze_kept hkept]
  | case3 => rfl

/-! ### Blocks and headers -/

/-- A spare character is a lexeme of its own. -/
theorem lexeme?_blank {c : Char} (hc : isBlank c = true) (t : Text) : lexeme? (c :: t) = some ([c], t) := by
  refine lexeme?_char ?_ ?_
  · rw [Bool.eq_false_iff]
    intro hq
    rw [isBlank_of_isQuote hq] at hc
    cases hc
  · rintro rfl
    cases hc

/-- What begins with a character that stays is read as the squeezed lexeme. -/
theorem lexeme?_squeeze {k j : Nat} {c : Char} {t : Text} (hkept : isSpare k (newlinesAhead j t) c = false) :
    lexeme? (squeeze k j (c :: t)) = (lexeme? (c :: t)).map fun (l, rest) =>
      (squeeze k (newlinesAhead j rest) l, squeeze (newlinesBehind k l) j rest) := by
  rw [squeeze_kept hkept]
  by_cases hcomment : c = '/' ∧ t.head? = some '*'
  · obtain ⟨rfl, hhead⟩ := hcomment
    obtain ⟨t, rfl⟩ := List.head?_eq_some_iff.1 hhead
    rw [runAfter_solid (by decide), squeeze_zero_cons, runAfter_solid (by decide), lexeme?, lexeme?,
      closeComment_squeeze]
    cases ht : closeComment t with
    | none => rfl
    | some p =>
      have hsolid := ((closeComment_endsSolid ht).cons '*').cons '/'
      have hzero := hsolid.squeeze_eq k
      simp [hzero, hsolid.newlinesBehind_eq, squeeze_solid (c := '/') (by decide), squeeze_solid (c := '*') (by decide)]
  · have hstar : c = '/' → t.head? ≠ some '*' := fun hc hhead => hcomment ⟨hc, hhead⟩
    by_cases hquote : isQuote c = true
    · have hc := isBlank_of_isQuote hquote
      rw [runAfter_solid hc, lexeme?_quote hquote, lexeme?_quote hquote, closeString_squeeze hquote]
      cases ht : closeString c t with
      | none => rfl
      | some p =>
        have hsolid := (closeString_endsSolid hquote ht).cons c
        have hzero := hsolid.squeeze_eq k
        simp [hzero, hsolid.newlinesBehind_eq, squeeze_solid hc]
    · have hstar' : c = '/' → (squeeze (runAfter k c) j t).head? ≠ some '*' := by
        rintro rfl
        rw [runAfter_solid (by decide), head?_squeeze_zero]
        exact hstar rfl
      have hone : squeeze k (newlinesAhead j t) [c] = [c] := by
        rw [squeeze_kept (by simpa using hkept), squeeze_nil]
      rw [lexeme?_char (by simpa using hquote) hstar, lexeme?_char (by simpa using hquote) hstar']
      simp [hone]

/-- The first lexeme of a text either is a spare character, or becomes the first lexeme of the squeezed
text, with the same first character. -/
theorem lexeme?_squeeze_cases {c : Char} {t l r : Text} (k j : Nat) (h : lexeme? (c :: t) = some (l, r)) :
    (squeeze k (newlinesAhead j r) l = [] ∧ squeeze k j (c :: t) = squeeze (newlinesBehind k l) j r) ∨
    ∃ l', squeeze k (newlinesAhead j r) l = c :: l' ∧
      lexeme? (squeeze k j (c :: t)) = some (c :: l', squeeze (newlinesBehind k l) j r) := by
  by_cases hspare : isSpare k (newlinesAhead j t) c = true
  · rw [lexeme?_blank (isSpare_iff.1 hspare).1, Option.some.injEq, Prod.mk.injEq] at h
    obtain ⟨rfl, rfl⟩ := h
    exact .inl ⟨squeeze_spare hspare, squeeze_spare hspare⟩
  · have hkept : isSpare k (newlinesAhead j t) c = false := by simpa using hspare
    obtain ⟨l', rfl⟩ := lexeme?_head h
    have hahead : newlinesAhead (newlinesAhead j r) l' = newlinesAhead j t := by
      have happend := lexeme?_append h
      rw [List.cons_append, List.cons.injEq] at happend
      rw [← newlinesAhead_append, happend.2]
    have hl : squeeze k (newlinesAhead j r) (c :: l') = c :: squeeze (runAfter k c) (newlinesAhead j r) l' :=
      squeeze_kept (by rw [hahead, hkept])
    exact .inr ⟨_, hl, by simp only [lexeme?_squeeze hkept, h, Option.map_some, hl]⟩

theorem lexeme?_squeeze_none {c : Char} {t : Text} (k j : Nat) (h : lexeme? (c :: t) = none) :
    lexeme? (squeeze k j (c :: t)) = none := by
  have hkept : isSpare k (newlinesAhead j t) c = false := by
    rw [Bool.eq_false_iff]
    intro hspare
    rw [lexeme?_blank (isSpare_iff.1 hspare).1] at h
    cases h
  rw [lexeme?_squeeze hkept, h, Option.map_none]

/-- In front of a mark, what follows the mark does not count. -/
theorem squeeze_append_mark {m : Char} (hm : isBlank m = false) (k j : Nat) (l a rest : Text) :
    squeeze k (newlinesAhead j (a ++ m :: rest)) l ++ squeeze (newlinesBehind k l) 0 a = squeeze k 0 (l ++ a) := by
  rw [squeeze_append, newlinesAhead_append, newlinesAhead_solid hm]

theorem closeBlock_squeeze (depth k j : Nat) (t : Text) :
    closeBlock depth (squeeze k j t) = (closeBlock depth t).map fun (a, rest) => (squeeze k 0 a, squeeze 0 j rest) := by
  induction t using lexeme_induction generalizing depth k with
  | step t ih =>
    cases t with
    | nil => simp [closeBlock]
    | cons c t =>
      by_cases hclose : c = '}'
      · subst hclose
        rw [squeeze_solid (by decide)]
        cases depth with
        | zero => simp [closeBlock]
        | succ depth =>
          rw [closeBlock_close, closeBlock_close, ih _ t rfl]
          cases closeBlock depth t with
          | none => rfl
          | some p => simp [squeeze_solid (c := '}') (by decide)]
      by_cases hopen : c = '\x7b'
      · subst hopen
        rw [squeeze_solid (by decide), closeBlock_open, closeBlock_open, ih _ t rfl]
        cases closeBlock (depth + 1) t with
        | none => rfl
        | some p => simp [squeeze_solid (c := '\x7b') (by decide)]
      -- any other lexeme is passed over, or left out
      cases hl : lexeme? (c :: t) with
      | none => rw [closeBlock_eq, lexeme?_squeeze_none k j hl, closeBlock_eq, hl, Option.map_none]
      | some p =>
        obtain ⟨l, r⟩ := p
        have hpass : closeBlock depth (squeeze k j (c :: t)) =
            (closeBlock depth (squeeze (newlinesBehind k l) j r)).map fun (a, rest) =>
              (squeeze k (newlinesAhead j r) l ++ a, rest) := by
          rcases lexeme?_squeeze_cases k j hl with ⟨hnil, hsqueeze⟩ | ⟨l', hl', hlexeme⟩
          · rw [hnil, hsqueeze]
            simp
          · rw [hl', closeBlock_pass hlexeme (by simp [hclose]) (by simp [hopen])]
        obtain ⟨l', rfl⟩ := lexeme?_head hl
        rw [hpass, closeBlock_pass hl (by simp [hclose]) (by simp [hopen]), ih _ r hl]
        cases hr : closeBlock depth r with
        | none => rfl
        | some q =>
          have hjoin := squeeze_append_mark (m := '}') (by decide) k j (c :: l') q.1 q.2
          rw [closeBlock_append hr] at hjoin
          simp only [Option.map_some, hjoin]

theorem closeHeader_squeeze (k j : Nat) (t : Text) :
    closeHeader (squeeze k j t) =
      (closeHeader t).map fun (a, e, rest) => (squeeze k 0 a, e, squeeze 0 j rest) := by
  induction t using lexeme_induction generalizing k with
  | step t ih =>
    cases t with
    | nil => simp [closeHeader]
    | cons c t =>
      by_cases hsemicolon : c = ';'
      · subst hsemicolon
        rw [squeeze_solid (by decide)]
        simp [closeHeader]
      by_cases hopen : c = '\x7b'
      · subst hopen
        rw [squeeze_solid (by decide)]
        simp [closeHeader]
      cases hl : lexeme? (c :: t) with
      | none => rw [closeHeader_eq, lexeme?_squeeze_none k j hl, closeHeader_eq, hl, Option.map_none]
      | some p =>
        obtain ⟨l, r⟩ := p
        have hpass : closeHeader (squeeze k j (c :: t)) =
            (closeHeader (squeeze (newlinesBehind k l) j r)).map fun (a, e, rest) =>
              (squeeze k (newlinesAhead j r) l ++ a, e, rest) := by
          rcases lexeme?_squeeze_cases k j hl with ⟨hnil, hsqueeze⟩ | ⟨l', hl', hlexeme⟩
          · rw [hnil, hsqueeze]
            simp
          · rw [hl', closeHeader_pass hlexeme (by simp [hsemicolon]) (by simp [hopen])]
        obtain ⟨l', rfl⟩ := lexeme?_head hl
        rw [hpass, closeHeader_pass hl (by simp [hsemicolon]) (by simp [hopen]), ih _ r hl]
        cases hr : closeHeader r with
        | none => rfl
        | some q =>
          have hmark : isBlank q.2.1.mark = false := by cases q.2.1 <;> decide
          have hjoin := squeeze_append_mark hmark k j (c :: l') q.1 q.2.2
          rw [closeHeader_append hr] at hjoin
          simp only [Option.map_some, hjoin]

/-! ### Rules -/

/-- The at-rule squeezed; nothing that is spare stands in front of it. -/
def AtForm.squeezed : AtForm → AtForm
  | statement name text => .statement name (squeeze 0 0 text)
  | block name header body => .block name (squeeze 0 0 header) (squeeze 0 0 body)

theorem isAtNameChar_newline : isAtNameChar '\n' = false := rfl

/-- The name and the prelude of an at-rule are squeezed one by one. -/
theorem squeeze_name_append {m : Char} (hm : isBlank m = false) (t a : Text) :
    squeeze 0 0 ('@' :: (t.takeWhile isAtNameChar ++ a ++ [m])) =
      '@' :: (t.takeWhile isAtNameChar ++ squeeze 0 0 a ++ [m]) := by
  have hname : ∀ c ∈ t.takeWhile isAtNameChar, c ≠ '\n' := by
    rintro c hc rfl
    exact absurd (List.all_eq_true.1 List.all_takeWhile _ hc) (by decide)
  rw [squeeze_solid (by decide), squeeze_append, squeeze_append, newlinesAhead_solid hm, squeeze_line hname,
    newlinesBehind_line hname, squeeze_solid hm, squeeze_nil]

theorem readAtRule_squeeze (j : Nat) (t : Text) :
    readAtRule (squeeze 0 j t) = (readAtRule t).map fun (form, rest) => (form.squeezed, squeeze 0 j rest) := by
  have htake := takeWhile_squeeze isAtNameChar_newline j t
  have hdrop := dropWhile_squeeze isAtNameChar_newline j t
  simp only [readAtRule, htake, hdrop, closeHeader_squeeze]
  cases closeHeader (t.dropWhile isAtNameChar) with
  | none => rfl
  | some p =>
    obtain ⟨a, e, rest⟩ := p
    cases e with
    | semicolon => simp only [Option.map_some, AtForm.squeezed, squeeze_name_append (m := ';') (by decide)]
    | brace =>
      simp only [Option.map_some, closeBlock_squeeze]
      cases closeBlock 0 rest with
      | none => rfl
      | some q => simp only [Option.map_some, AtForm.squeezed, squeeze_name_append (m := '\x7b') (by decide)]

theorem readPlain_squeeze (k j : Nat) (t : Text) :
    readPlain (squeeze k j t) = (readPlain t).map fun (header, body, rest) =>
      (squeeze k 0 header, squeeze 0 0 body, squeeze 0 j rest) := by
  have hsqueezed : ∀ k j w, (∀ c ∈ w, c ≠ '\x7b') → ∀ c ∈ squeeze k j w, c ≠ '\x7b' :=
    fun k j w hw c hc => hw c ((squeeze_sublist k j w).subset hc)
  by_cases hopen : '\x7b' ∈ t
  · obtain ⟨header, rest, rfl, hnot⟩ := List.eq_append_cons_of_mem hopen
    have hheader : ∀ c ∈ header, c ≠ '\x7b' := by
      rintro c hc rfl
      exact hnot hc
    rw [squeeze_append, newlinesAhead_solid (by decide), squeeze_solid (by decide), readPlain_header hheader,
      readPlain_header (hsqueezed k 0 header hheader), closeBlock_squeeze]
    cases closeBlock 0 rest with
    | none => rfl
    | some p => rfl
  · have hnone : ∀ c ∈ t, c ≠ '\x7b' := by
      rintro c hc rfl
      exact hopen hc
    rw [readPlain_none hnone, readPlain_none (hsqueezed k j t hnone), Option.map_none]

/-! ### Constructs -/

/-- The text begins an at-rule or a comment. -/
def opensMark : Text → Bool
  | '@' :: _ => true
  | '/' :: '*' :: _ => true
  | _ => false

theorem opensMark_cons_eq_false_iff {c : Char} {t : Text} :
    opensMark (c :: t) = false ↔ c ≠ '@' ∧ (c = '/' → t.head? ≠ some '*') := by
  constructor
  · intro h
    constructor
    · rintro rfl
      cases h
    · rintro rfl hhead
      obtain ⟨t, rfl⟩ := List.head?_eq_some_iff.1 hhead
      cases h
  · rintro ⟨hat, hstar⟩
    rw [opensMark]
    · rintro t' ⟨⟩
      exact hat rfl
    · rintro t' ⟨⟩
      exact hstar rfl rfl

theorem opensMark_append {x : Text} (h : opensMark x = true) (y : Text) : opensMark (x ++ y) = true := by
  revert h
  fun_cases opensMark x with
  | case1 => exact fun _ => rfl
  | case2 => exact fun _ => rfl
  | case3 => simp

theorem opensMark_squeeze {t : Text} (h : opensMark t = false) (j : Nat) : opensMark (squeeze 0 j t) = false := by
  cases t with
  | nil => rfl
  | cons c t =>
    obtain ⟨hat, hstar⟩ := opensMark_cons_eq_false_iff.1 h
    rw [squeeze_zero_cons]
    refine opensMark_cons_eq_false_iff.2 ⟨hat, ?_⟩
    rintro rfl
    rw [runAfter_solid (by decide), head?_squeeze_zero]
    exact hstar rfl

/-- What follows the header of a plain rule does not make a mark of it. -/
theorem opensMark_header {header : Text} (h : opensMark header = false) (t : Text) :
    opensMark (header ++ '\x7b' :: t) = false := by
  cases header with
  | nil => rfl
  | cons c header =>
    obtain ⟨hat, hstar⟩ := opensMark_cons_eq_false_iff.1 h
    refine opensMark_cons_eq_false_iff.2 ⟨hat, fun hslash => ?_⟩
    cases header with
    | nil => simp
    | cons d header => simpa using hstar hslash

/-- The construct squeezed; nothing that is spare stands in front of it. -/
def Construct.squeezed : Construct → Construct
  | blank c => .blank c
  | comment inner => .comment (squeeze 0 0 inner)
  | atRule form => .atRule form.squeezed
  | plain header body => .plain (squeeze 0 0 header) (squeeze 0 0 body)

/-- A comment and an at-rule are read as they were, squeezed. -/
theorem readConstruct_squeeze {t : Text} (h : opensMark t = true) (k j : Nat) :
    readConstruct (squeeze k j t) = (readConstruct t).map fun (c, rest) => (c.squeezed, squeeze 0 j rest) := by
  revert h
  fun_cases opensMark t with
  | case1 t =>
    rw [squeeze_solid (by decide), readConstruct, readConstruct, readAtRule_squeeze]
    cases readAtRule t with
    | none => simp
    | some p => simp [Construct.squeezed]
  | case2 t =>
    rw [squeeze_solid (by decide), squeeze_solid (by decide), readConstruct, readConstruct, closeComment_squeeze]
    cases closeComment t with
    | none => simp
    | some p => simp [Construct.squeezed]
  | case3 => simp

/-- What begins neither a comment nor an at-rule nor with an ASCII blank is a plain rule. -/
theorem readConstruct_plain {t : Text} (hmark : opensMark t = false) (hblank : ∀ c ∈ t.head?, isAsciiBlank c = false) :
    readConstruct t = (readPlain t).map fun (header, body, rest) => (.plain header body, rest) := by
  cases t with
  | nil => rfl
  | cons c t =>
    obtain ⟨hat, hstar⟩ := opensMark_cons_eq_false_iff.1 hmark
    rw [readConstruct_cons hat hstar, if_neg (by simp [hblank c rfl])]

/-- A construct other than a blank ends with no blank. -/
theorem endsSolid_of_readConstruct {t rest : Text} {c : Construct} (h : readConstruct t = some (c, rest))
    (hc : ∀ d, c ≠ .blank d) : EndsSolid c.text := by
  rcases readConstruct_cases h with ⟨inner, t, rfl, rfl, hcomment⟩ | ⟨form, t, rfl, rfl, hrule⟩ | ⟨d, rfl, -⟩ |
    ⟨header, body, -, -, rfl, -⟩
  · exact ((closeComment_endsSolid hcomment).cons '*').cons '/'
  · cases form with
    | block name header body =>
      refine ⟨header ++ body, '}', ?_, by decide⟩
      simp [Construct.text, AtForm.text]
    | statement name text =>
      obtain ⟨w, hw⟩ := readAtRule_statement hrule
      exact ⟨w, ';', hw, by decide⟩
  · exact absurd rfl (hc d)
  · refine ⟨header ++ '\x7b' :: body, '}', ?_, by decide⟩
    simp [Construct.text]

end Cull.Stylesheet
