import Mathlib.Data.List.TakeDrop
import Cull.Glob.Parser
import Cull.Markup.Page
import Cull.Proofs.TokenSizes
import Cull.Settings.Parser

/-!
# Enough rounds

The readers of globs, of settings, of character references, of attributes and of whole pages go on in
rounds of which each takes up at least a character. They are given a number of rounds that covers the
text, and so the number is not what ends them: any two numbers that cover the text lead to the same.
-/

namespace Cull

/-! ### Globs -/

namespace Glob

theorem suffix_of_readClass {ranges ranges' : List (Char × Char)} {first inRange : Bool} {t rest : Text}
    (h : readClass ranges first inRange t = .ok (ranges', rest)) : rest <:+ t := by
  fun_induction readClass ranges first inRange t
  case case1 | case3 => cases h
  case case2 =>
    cases h
    exact List.suffix_cons _ _
  case case4 ih | case5 ih | case6 ih | case7 ih => exact (ih h).trans (List.suffix_cons _ _)

theorem readNegation_suffix (t : Text) : (readNegation t).2 <:+ t := by
  fun_cases readNegation t with
  | case1 c t _ => exact List.suffix_cons c t
  | case2 | case3 => exact List.suffix_refl _

/-- Once there are as many rounds as characters, how many there are makes no difference. -/
theorem readFrom_congr {p : Progress} {t : Text} {n m : Nat} (hn : t.length ≤ n) (hm : t.length ≤ m) :
    readFrom p n t = readFrom p m t := by
  induction n generalizing p t m with
  | zero =>
    obtain rfl := List.length_eq_zero_iff.1 (Nat.le_zero.1 hn)
    cases m <;> rfl
  | succ n ih =>
    cases t with
    | nil => cases m <;> rfl
    | cons c rest =>
      obtain ⟨m, rfl⟩ := Nat.exists_eq_succ_of_ne_zero (Nat.ne_zero_of_lt hm)
      have hless {p : Progress} {t : Text} (ht : t <:+ rest) : readFrom p n t = readFrom p m t :=
        ih (Nat.le_trans ht.length_le (Nat.le_of_succ_le_succ hn))
          (Nat.le_trans ht.length_le (Nat.le_of_succ_le_succ hm))
      unfold readFrom
      dsimp only
      -- in each case there is an error, or what is left to read is a part of `rest`
      repeat' split
      all_goals first
        | rfl
        | exact hless (List.suffix_refl _)
        | exact hless (List.suffix_cons _ _)
        | exact hless ((List.tail_suffix _).trans (List.suffix_cons _ _))
        | exact hless ((suffix_of_readClass ‹_›).trans (readNegation_suffix _))

end Glob

/-! ### Settings -/

namespace Settings

variable {t s rest : Text}

theorem length_of_consRead {c : Char} {read : Option (Text × Text)} {n : Nat}
    (hread : ∀ {s rest}, read = some (s, rest) → List.length rest < n) (h : consRead c read = some (s, rest)) :
    rest.length < n := by
  unfold consRead at h
  split at h
  · cases h
    exact hread rfl
  · cases h

theorem length_of_bind_consRead {c? : Option Char} {read : Option (Text × Text)} {n : Nat}
    (hread : ∀ {s rest}, read = some (s, rest) → List.length rest < n)
    (h : (c?.bind fun c => consRead c read) = some (s, rest)) : rest.length < n := by
  obtain ⟨c, _, hc⟩ := Option.bind_eq_some_iff.1 h
  exact length_of_consRead hread hc

theorem closeLines_suffix (quote : Char) (t : Text) : (closeLines quote t).2 <:+ t := by
  fun_cases closeLines quote t with
  | case1 c₁ c₂ rest => exact ⟨[c₁, c₂], rfl⟩
  | case2 => exact List.suffix_cons _ _
  | case4 => exact List.nil_suffix
  | case3 | case5 | case6 => exact List.suffix_refl _

theorem length_readBasic_lt (h : readBasic t = some (s, rest)) : rest.length < t.length := by
  fun_induction readBasic t generalizing s rest
  case case1 | case7 => cases h
  case case2 =>
    cases h
    exact Nat.lt_succ_self _
  case case3 ih | case4 ih | case5 ih =>
    have hrest := length_of_bind_consRead ih h
    simp only [List.length_cons]
    omega
  case case6 ih => exact Nat.lt_succ_of_lt (length_of_consRead ih h)

theorem length_readLiteral_lt (h : readLiteral t = some (s, rest)) : rest.length < t.length := by
  fun_induction readLiteral t generalizing s rest
  case case1 | case4 => cases h
  case case2 =>
    cases h
    exact Nat.lt_succ_self _
  case case3 ih => exact Nat.lt_succ_of_lt (length_of_consRead ih h)

theorem length_readBasicLines_lt {skipping : Bool} (h : readBasicLines skipping t = some (s, rest)) :
    rest.length < t.length := by
  fun_induction readBasicLines skipping t generalizing s rest
  case case1 | case11 => cases h
  case case2 inside =>
    have hclose := (closeLines_suffix '"' inside).length_le
    rw [Option.some.inj h] at hclose
    dsimp only [List.length_cons] at hclose ⊢
    omega
  case case3 ih =>
    have hrest := ih h
    simp only [List.length_cons]
    omega
  case case7 ih | case9 ih => exact Nat.lt_succ_of_lt (ih h)
  case case5 ih | case6 ih | case8 ih =>
    have hrest := length_of_bind_consRead ih h
    simp only [List.length_cons]
    omega
  case case4 ih =>
    have hrest := length_of_consRead ih h
    simp only [List.length_cons]
    omega
  case case10 ih => exact Nat.lt_succ_of_lt (length_of_consRead ih h)

theorem length_readLiteralLines_lt (h : readLiteralLines t = some (s, rest)) : rest.length < t.length := by
  fun_induction readLiteralLines t generalizing s rest
  case case1 | case5 => cases h
  case case2 inside =>
    have hclose := (closeLines_suffix '\'' inside).length_le
    rw [Option.some.inj h] at hclose
    dsimp only [List.length_cons] at hclose ⊢
    omega
  case case3 ih =>
    have hrest := length_of_consRead ih h
    simp only [List.length_cons]
    omega
  case case4 ih => exact Nat.lt_succ_of_lt (length_of_consRead ih h)

theorem dropLineEnd_suffix (t : Text) : dropLineEnd t <:+ t := by
  fun_cases dropLineEnd t with
  | case1 => exact List.suffix_cons _ _
  | case2 rest => exact ⟨['\r', '\n'], rfl⟩
  | case3 => exact List.suffix_refl _

theorem length_readLine_lt (h : readLine t = some (s, rest)) : rest.length < t.length := by
  unfold readLine at h
  split at h
  · exact Nat.lt_succ_of_lt (length_readBasic_lt h)
  · exact Nat.lt_succ_of_lt (length_readLiteral_lt h)
  · cases h

theorem length_readString_lt (h : readString t = some (s, rest)) : rest.length < t.length := by
  unfold readString at h
  split at h
  · next inside =>
    have hstart := (dropLineEnd_suffix inside).length_le
    have hread := length_readBasicLines_lt h
    simp only [List.length_cons]
    omega
  · next inside =>
    have hstart := (dropLineEnd_suffix inside).length_le
    have hread := length_readLiteralLines_lt h
    simp only [List.length_cons]
    omega
  · exact length_readLine_lt h

theorem length_skipFiller_le {comment : Bool} (h : skipFiller comment t = some rest) : rest.length ≤ t.length := by
  fun_induction skipFiller comment t
  case case1 | case8 =>
    cases h
    exact Nat.le_refl _
  case case2 ih =>
    have hrest := ih h
    simp only [List.length_cons]
    omega
  case case5 => cases h
  case case3 ih | case4 ih | case6 ih | case7 ih => exact Nat.le_succ_of_le (ih h)

/-- A list has fewer items than characters. -/
theorem readItems_congr {n m : Nat} (hn : t.length < n) (hm : t.length < m) : readItems n t = readItems m t := by
  induction n generalizing t m with
  | zero => exact absurd hn (Nat.not_lt_zero _)
  | succ n ih =>
    obtain ⟨m, rfl⟩ := Nat.exists_eq_succ_of_ne_zero (Nat.ne_zero_of_lt hm)
    unfold readItems
    cases hfront : skipFiller false t with
    | none => rfl
    | some front =>
      have hfrontLe := length_skipFiller_le hfront
      dsimp only [Option.bind_eq_bind, Option.bind_some]
      split
      · rfl
      · cases hitem : readString front with
        | none => rfl
        | some read =>
          have hreadLt := length_readString_lt hitem
          dsimp only [Option.bind_some]
          cases hback : skipFiller false read.2 with
          | none => rfl
          | some back =>
            have hbackLe := length_skipFiller_le hback
            dsimp only [Option.bind_some]
            split
            · rw [List.length_cons] at hbackLe
              rw [ih (m := m) (by omega) (by omega)]
            · rfl
            · rfl

theorem length_readItems_lt {n : Nat} {items : List Text} (h : readItems n t = some (items, rest)) :
    rest.length < t.length := by
  induction n generalizing t items rest with
  | zero => cases h
  | succ n ih =>
    obtain ⟨front, hfront, h⟩ := Option.bind_eq_some_iff.1 h
    have hfrontLe := length_skipFiller_le hfront
    split at h
    · cases h
      exact hfrontLe
    · obtain ⟨read, hread, h⟩ := Option.bind_eq_some_iff.1 h
      have hreadLt := length_readString_lt hread
      obtain ⟨back, hback, h⟩ := Option.bind_eq_some_iff.1 h
      have hbackLe := length_skipFiller_le hback
      split at h
      · obtain ⟨more, hmore, h⟩ := Option.bind_eq_some_iff.1 h
        have hmoreLt := ih hmore
        cases h
        rw [List.length_cons] at hbackLe
        omega
      · cases h
        rw [List.length_cons] at hbackLe
        omega
      · cases h

theorem length_readValue_lt {value : Value} (h : readValue t = some (value, rest)) : rest.length < t.length := by
  unfold readValue at h
  split at h
  · cases h
    simp only [List.length_cons]
    omega
  · cases h
    simp only [List.length_cons]
    omega
  · obtain ⟨read, hread, h⟩ := Option.map_eq_some_iff.1 h
    cases h
    exact Nat.lt_succ_of_lt (length_readItems_lt hread)
  · obtain ⟨read, hread, h⟩ := Option.map_eq_some_iff.1 h
    cases h
    exact length_readString_lt hread

theorem length_readKey_le {key : Text} (h : readKey t = some (key, rest)) : rest.length ≤ t.length := by
  have hkey := (List.dropWhile_suffix (l := t) isKeyChar).length_le
  unfold readKey at h
  rw [List.span_eq_takeWhile_dropWhile] at h
  split at h
  · next hspan =>
    rw [(Prod.mk.inj hspan).2] at hkey
    exact Nat.le_trans (Nat.le_of_lt (length_readLine_lt h)) hkey
  · next hspan =>
    cases h
    rwa [(Prod.mk.inj hspan).2] at hkey

theorem length_readEntry_lt {entry : Text × Value} (h : readEntry t = some (entry, rest)) :
    rest.length < t.length := by
  obtain ⟨⟨key, afterKey⟩, hkey, h⟩ := Option.bind_eq_some_iff.1 h
  have hkeyLe := length_readKey_le hkey
  have hblanks := (List.dropWhile_suffix (l := afterKey) isInlineBlank).length_le
  dsimp only at h
  split at h
  · next afterMark hmark =>
    rw [hmark, List.length_cons] at hblanks
    have hmarkBlanks := (List.dropWhile_suffix (l := afterMark) isInlineBlank).length_le
    obtain ⟨⟨value, afterValue⟩, hvalue, h⟩ := Option.bind_eq_some_iff.1 h
    have hvalueLt := length_readValue_lt hvalue
    have hend := (List.dropWhile_suffix (l := afterValue) isInlineBlank).length_le
    dsimp only at h
    split at h
    · cases h
      exact Nat.lt_of_lt_of_le (Nat.zero_lt_of_lt hblanks) hkeyLe
    · next hlineEnd =>
      cases h
      simp only [hlineEnd, List.length_cons] at hend
      omega
    · next hlineEnd =>
      split at h
      · cases h
        rw [hlineEnd] at hend
        omega
      · cases h
  · cases h

/-- A file has no more entries than characters. -/
theorem readEntries_congr {n m : Nat} (hn : t.length < n) (hm : t.length < m) : readEntries n t = readEntries m t := by
  induction n generalizing t m with
  | zero => exact absurd hn (Nat.not_lt_zero _)
  | succ n ih =>
    obtain ⟨m, rfl⟩ := Nat.exists_eq_succ_of_ne_zero (Nat.ne_zero_of_lt hm)
    unfold readEntries
    cases hfront : skipFiller false t with
    | none => rfl
    | some front =>
      have hfrontLe := length_skipFiller_le hfront
      dsimp only [Option.bind_eq_bind, Option.bind_some]
      split
      · rfl
      · cases hentry : readEntry front with
        | none => rfl
        | some read =>
          have hreadLt := length_readEntry_lt hentry
          dsimp only [Option.bind_some]
          rw [ih (m := m) (by omega) (by omega)]

end Settings

namespace Markup

open Lexer

/-! ### Character references -/

theorem length_rest_readDigits_le (base : Nat) (digit? : Char → Option Nat) {whole t : Text} (before : Nat)
    (h : t.length ≤ whole.length) : (readDigits base digit? whole before t).rest.length ≤ whole.length := by
  have hnumber := length_readNumber_le base digit? 0 t
  unfold readDigits
  split
  · split
    · dsimp only
      split
      · next hrest =>
        rw [hrest, List.length_cons] at hnumber
        dsimp only
        omega
      · exact Nat.le_trans hnumber h
    · exact Nat.le_refl _
  · exact Nat.le_refl _

theorem length_rest_readName_le (inAttribute : Bool) (t : Text) :
    (readName inAttribute t).rest.length ≤ t.length := by
  unfold readName
  split
  · exact Nat.le_refl _
  · extract_lets bare runsOn
    split
    · exact Nat.le_refl _
    · exact (List.drop_suffix _ t).length_le

theorem length_rest_readRef_le (inAttribute : Bool) (t : Text) : (readRef inAttribute t).rest.length ≤ t.length := by
  unfold readRef
  split
  · exact length_rest_readDigits_le _ _ _ (by simp; omega)
  · exact length_rest_readDigits_le _ _ _ (by simp; omega)
  · exact length_rest_readDigits_le _ _ _ (by simp)
  · split
    · exact length_rest_readName_le _ _
    · exact Nat.le_refl _
  · exact Nat.le_refl _

/-- A reference takes up its `&`, whatever it stands for. -/
theorem decodeRefsFrom_congr {inAttribute : Bool} {t : Text} {n m : Nat} (hn : t.length ≤ n) (hm : t.length ≤ m) :
    decodeRefsFrom inAttribute n t = decodeRefsFrom inAttribute m t := by
  induction n generalizing t m with
  | zero =>
    obtain rfl := List.length_eq_zero_iff.1 (Nat.le_zero.1 hn)
    cases m <;> rfl
  | succ n ih =>
    cases t with
    | nil => cases m <;> rfl
    | cons c t =>
      obtain ⟨m, rfl⟩ := Nat.exists_eq_succ_of_ne_zero (Nat.ne_zero_of_lt hm)
      have href := length_rest_readRef_le inAttribute t
      have hrest : t.length ≤ n ∧ t.length ≤ m := ⟨Nat.le_of_succ_le_succ hn, Nat.le_of_succ_le_succ hm⟩
      simp only [decodeRefsFrom, ih (Nat.le_trans href hrest.1) (Nat.le_trans href hrest.2), ih hrest.1 hrest.2]

/-! ### Attributes -/

/-- An attribute takes up its first character, even if that is a mark. -/
theorem readAttributes_congr {attributes : List Attribute} {t : Text} {n m : Nat} (hn : t.length ≤ n)
    (hm : t.length ≤ m) : readAttributes attributes n t = readAttributes attributes m t := by
  induction n generalizing attributes t m with
  | zero =>
    obtain rfl := List.length_eq_zero_iff.1 (Nat.le_zero.1 hn)
    cases m <;> rfl
  | succ n ih =>
    cases m with
    | zero =>
      obtain rfl := List.length_eq_zero_iff.1 (Nat.le_zero.1 hm)
      rfl
    | succ m =>
      have hless {c : Char} {more rest : Text} {attributes : List Attribute}
          (hdrop : t.dropWhile Text.isAsciiBlank = c :: more) (hrest : rest <:+ more) :
          readAttributes attributes n rest = readAttributes attributes m rest := by
        have hblanks := (List.dropWhile_suffix (l := t) Text.isAsciiBlank).length_le
        have hlength := hrest.length_le
        rw [hdrop, List.length_cons] at hblanks
        exact ih (by omega) (by omega)
      unfold readAttributes
      split
      · rfl
      · rfl
      · rfl
      · next hdrop => exact hless hdrop (List.suffix_refl _)
      · next hdrop =>
        split
        · rfl
        · next hattribute => exact hless hdrop (suffix_of_readAttribute hattribute)

/-! ### Pages -/

theorem length_readMarkup_le (foreign : Bool) (t : Text) : (readMarkup foreign t).2.text.length ≤ t.length := by
  unfold readMarkup
  split
  · exact Nat.le_refl _
  · next t =>
    have hdeclaration := costs_readDeclaration_le foreign t
    exact Nat.le_succ_of_le (Nat.le_of_add_left_le hdeclaration)
  · next t => exact Nat.le_succ_of_le (skipBogusComment_suffix t).length_le
  · exact Nat.zero_le _
  · next c t =>
    split
    · split
      · exact Nat.zero_le _
      · next hread => exact Nat.le_succ_of_le (suffix_of_readTag hread).length_le
    · split
      · exact Nat.le_succ_of_le (Nat.le_succ_of_le (Nat.le_refl _))
      · exact Nat.le_succ_of_le (skipBogusComment_suffix (c :: t)).length_le
  · next c t _ _ _ _ =>
    split
    · split
      · exact Nat.zero_le _
      · next hread => exact (suffix_of_readTag hread).length_le
    · exact Nat.le_refl _

theorem length_readRefTokens_le (t : Text) : (readRefTokens t).2.text.length ≤ t.length := by
  have href := length_rest_readRef_le false t
  unfold readRefTokens
  dsimp only
  split <;> exact href

/-- A step takes up at least a character. -/
theorem length_step_lt {s s' : Source} {foreign : Bool} {tokens : List Token}
    (h : s.step foreign = some (tokens, s')) : s'.text.length < s.text.length := by
  unfold Source.step at h
  split at h
  · cases h
  · next c taken t hnext =>
    refine Nat.lt_of_lt_of_le (Nat.lt_succ_of_le ?_) (Source.length_of_next? hnext)
    dsimp only at h
    split at h
    · cases h
      exact Nat.le_refl _
    · split at h
      · rw [← (Prod.mk.inj (Option.some.inj h)).2]
        exact length_readRefTokens_le t
      · split at h
        · rw [← (Prod.mk.inj (Option.some.inj h)).2]
          exact length_readMarkup_le foreign t
        · split at h
          · cases h
            exact Nat.le_refl _
          · split at h
            · cases h
              exact Nat.le_refl _
            · cases h
              exact (List.drop_suffix _ t).length_le

/-- Once there are more rounds than characters, how many there are makes no difference. -/
theorem Build.consume_congr {source : Source} {s : State} {n m : Nat} (hn : source.text.length < n)
    (hm : source.text.length < m) : (consume source n).run s = (consume source m).run s := by
  induction n generalizing source s m with
  | zero => exact absurd hn (Nat.not_lt_zero _)
  | succ n ih =>
    obtain ⟨m, rfl⟩ := Nat.exists_eq_succ_of_ne_zero (Nat.ne_zero_of_lt hm)
    have hless {source' : Source} {s' : State} (h : source'.text.length < source.text.length) :
        (consume source' n).run s' = (consume source' m).run s' := ih (by omega) (by omega)
    unfold consume
    cases hstep : source.step (inForeign s) with
    | none => simp only [StateT.run_bind, StateT.run_get, pure_bind, hstep]
    | some step =>
      obtain ⟨tokens, source'⟩ := step
      have hlength := length_step_lt hstep
      simp only [StateT.run_bind, StateT.run_get, pure_bind, hstep]
      generalize (feedAll tokens).run s = r
      obtain ⟨effect, s'⟩ := r
      cases effect with
      | none => exact hless hlength
      | scriptEnd => exact hless (Nat.lt_of_le_of_lt (length_dropByteOrderMark_le source'.text) hlength)
      | raw content =>
        have hraw := costs_readRawText_le content (startName tokens) source'.text
        exact hless (Nat.lt_of_le_of_lt (Nat.le_of_add_left_le hraw) hlength)

/-- A page is read to its end: with any more rounds the same document comes out. -/
theorem Document.ofPage_eq_of_lt {page : Text} {n : Nat} (h : (dropByteOrderMark page).length < n) :
    ofPage page = ((Build.consume (.ofText (dropByteOrderMark page)) n).run .start).2.doc := by
  have hrun : (Build.consume (.ofText (dropByteOrderMark page)) _).run .start =
      (Build.consume (.ofText (dropByteOrderMark page)) n).run .start := Build.consume_congr (Nat.lt_succ_self _) h
  exact congrArg (fun r => State.doc r.2) hrun

end Markup

end Cull
