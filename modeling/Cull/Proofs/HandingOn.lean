import Mathlib.Data.List.TakeWhile
import Cull.Proofs.TokenWay

/-!
# Handing a token on

The rules of every mode use up a token, split it, or shorten its way (`handsOn_rules`), and so do the
rules for foreign elements (`leaves_applyRules`).
-/

namespace Cull.Markup.Build

variable {token : Token} {mode : Mode}

/-! ### Up to the body -/

theorem handsOn_initial (token : Token) : HandsOn token .initial (initial token) := by
  have hstart : HandsOn token .initial (do
      modify fun s => { s with legacy := true }
      return .again .beforeHtml) := .bind (fun _ => Nat.le_refl _) fun _ => handsOn_again (by simp [rank])
  unfold initial
  cases token with
  | text t => exact handsOn_text handsOn_done hstart
  | comment => exact (settles_putCommentUnder _).handsOn
  | _ => exact hstart

theorem handsOn_beforeHtml (token : Token) : HandsOn token .beforeHtml (beforeHtml token) := by
  have hstart : HandsOn token .beforeHtml (do
      createRoot []
      return .again .beforeHead) := .bind (lowers_createRoot []) fun _ => handsOn_again (by simp [rank])
  unfold beforeHtml
  cases token with
  | text t => exact handsOn_text handsOn_done hstart
  | comment => exact (settles_putCommentUnder _).handsOn
  | startTag tag => exact .ite (fun _ => Settles.handsOn (.bind fun _ => .bind fun _ => settles_done)) fun _ => hstart
  | endTag name => exact .ite (fun _ => hstart) fun _ => handsOn_done
  | _ => exact hstart

theorem handsOn_beforeHead (token : Token) : HandsOn token .beforeHead (beforeHead token) := by
  have hstart : HandsOn token .beforeHead (do
      openHead ⟨"head", [], false⟩
      return .again .inHead) :=
    .bind (.bind (lowers_openTag (by decide)) fun _ _ => Nat.le_refl _) fun _ => handsOn_again (by simp [rank])
  unfold beforeHead
  cases token with
  | text t => exact handsOn_text handsOn_done hstart
  | comment => exact settles_putComment.handsOn
  | startTag tag =>
    refine .ite (fun _ => (settles_addRootAttributes tag).handsOn) fun _ => ?_
    exact .ite (fun _ => Settles.handsOn (.bind fun _ => .bind fun _ => settles_done)) fun _ => hstart
  | endTag name => exact .ite (fun _ => hstart) fun _ => handsOn_done
  | _ => exact hstart

theorem handsOn_inHead (token : Token) : HandsOn token .inHead (inHead token) := by
  have hleave : HandsOn token .inHead (do
      pop
      return .again .afterHead) := .bind lowers_pop fun _ => handsOn_again (by simp [rank])
  unfold inHead
  cases token with
  | text t => exact handsOn_text (settles_putText t).handsOn hleave
  | comment => exact settles_putComment.handsOn
  | startTag tag =>
    refine .ite (fun _ => (settles_addRootAttributes tag).handsOn) fun _ => ?_
    refine .ite (fun _ => (settles_voidTag tag).handsOn) fun _ => ?_
    refine .ite (fun _ => (settles_openRaw tag _).handsOn) fun _ => ?_
    refine .ite (fun _ => (settles_openRaw tag _).handsOn) fun _ => ?_
    refine .ite (fun _ => (settles_openRaw tag _).handsOn) fun _ => ?_
    refine .ite (fun _ => Settles.handsOn (.bind fun _ => settles_done)) fun _ => ?_
    exact .ite (fun _ => handsOn_done) fun _ => hleave
  | endTag name =>
    refine .ite (fun _ => Settles.handsOn (.bind fun _ => .bind fun _ => settles_done)) fun _ => ?_
    refine .ite (fun _ => Settles.handsOn (.bind fun _ => ?_)) fun _ => .ite (fun _ => hleave) fun _ => handsOn_done
    exact .ite (fun _ => .bind fun _ => .bind fun _ => settles_done) fun _ => settles_done
  | _ => exact hleave

theorem handsOn_afterHead (token : Token) : HandsOn token .afterHead (afterHead token) := by
  have hstart : HandsOn token .afterHead (do
      let _ ← openImplied "body"
      return .again .inBody) := .bind (lowers_openTag (by decide)) fun _ => handsOn_again (by simp [rank])
  unfold afterHead
  cases token with
  | text t => exact handsOn_text (settles_putText t).handsOn hstart
  | comment => exact settles_putComment.handsOn
  | startTag tag =>
    refine .ite (fun _ => (settles_addRootAttributes tag).handsOn) fun _ => ?_
    refine .ite (fun _ => Settles.handsOn (.bind fun _ => .bind fun _ => .bind fun _ => settles_done)) fun _ => ?_
    refine .ite (fun _ => Settles.handsOn (.bind fun _ => .bind fun _ => settles_done)) fun _ => ?_
    refine .ite (fun hhead => Settles.handsOn (.bind fun s => ?_)) fun _ => .ite (fun _ => handsOn_done) fun _ => hstart
    split
    · exact settles_done
    · exact .bind fun _ s => settles_inHead hhead s
  | endTag name =>
    refine .ite (fun h => (h ▸ settles_inHead_template).handsOn) fun _ => ?_
    exact .ite (fun _ => hstart) fun _ => handsOn_done
  | _ => exact hstart

/-! ### In the body -/

/-- The rules in the body hand on the end tag of the root element, and else only what ends a template. -/
theorem handsOn_inBody (h : token.isEndOf "html" = false) : HandsOn token mode (inBody token) := by
  cases token with
  | nul | doctype | fault => exact handsOn_done
  | text t =>
    refine Settles.handsOn (.bind fun _ => ?_)
    exact .ite (fun _ => .bind fun _ => settles_putText t) fun _ => settles_putText t
  | comment => exact settles_putComment.handsOn
  | startTag tag => exact (settles_startInBody tag).handsOn
  | endTag name => exact (settles_endInBody (of_decide_eq_false h)).handsOn
  | eof => exact .bind lowers_get fun _ => .ite (fun _ => handsOn_done) fun _ => handsOn_endInTemplate (by simp)

theorem handsOn_inBody_self (token : Token) : HandsOn token .inBody (inBody token) := by
  by_cases h : token.isEndOf "html" = true
  · cases token with
    | endTag name =>
      cases of_decide_eq_true h
      refine .bind (lowers_hasInScope _ _) fun _ => .ite (fun _ => handsOn_again ?_) fun _ => handsOn_done
      simp [rank, Token.isEndOf]
    | _ => cases h
  · exact handsOn_inBody (Bool.eq_false_iff.2 h)

theorem handsOn_fosterInBody (h : token.isEndOf "html" = false) : HandsOn token mode (fosterInBody token) :=
  fun s => handsOn_inBody h { s with fostering := true }

/-! ### Formulas and graphics -/

/-- What is handed over to the rules that apply otherwise is handed on by these. -/
theorem handsOn_foreign {ordinary : Token → Build Outcome} (h : HandsOn token mode (ordinary token)) :
    HandsOn token mode (foreign ordinary token) := by
  cases token with
  | nul => exact (settles_putText _).handsOn
  | text t =>
    refine Settles.handsOn ?_
    exact .ite (fun _ => .bind fun _ => settles_putText t) fun _ => settles_putText t
  | comment => exact settles_putComment.handsOn
  | startTag tag =>
    refine .ite (fun _ => .bind (lowers_popWhile _) fun _ => h) fun _ => .bind lowers_get fun s => ?_
    split
    · exact handsOn_done
    · exact (settles_openForeign _ _ _).handsOn
  | endTag name =>
    refine .ite (fun _ => .bind (lowers_popWhile _) fun _ => h) fun _ => .bind lowers_get fun s => ?_
    split
    · exact Settles.handsOn (.bind fun _ => settles_done)
    · exact h
    · exact handsOn_done
  | doctype | fault | eof => exact handsOn_done

/-! ### In a table -/

theorem handsOn_textInTable (hend : token.isEndOf "html" = false) (hrank : 0 < rank token mode) :
    HandsOn token mode (textInTable token) := by
  refine .bind (lowers_currentIs _) fun _ => .ite (fun _ => ?_) fun _ => handsOn_fosterInBody hend
  exact .bind (fun _ => Nat.le_refl _) fun _ => handsOn_again hrank

theorem handsOn_startInTable {tag : Tag} (h : mode = .inTable ∨ tablePartTags.contains tag.name = false) :
    HandsOn (.startTag tag) mode (startInTable tag) := by
  unfold startInTable
  refine .ite (fun _ => Settles.handsOn ?_) fun _ => ?_
  · exact .bind fun _ => .bind fun _ => .bind fun _ => .bind fun _ => settles_done
  refine .ite (fun _ => Settles.handsOn (.bind fun _ => .bind fun _ => .bind fun _ => settles_done)) fun _ => ?_
  refine .ite (fun hcol => ?_) fun _ => ?_
  · obtain rfl : mode = .inTable := by simpa [tablePartTags, hcol] using h
    refine .bind (lowers_popWhile _) fun _ => .bind (lowers_openTag (by decide)) fun _ => handsOn_again ?_
    simp [rank, Token.opensOneOf, hcol]
  refine .ite (fun _ => Settles.handsOn (.bind fun _ => .bind fun _ => .bind fun _ => settles_done)) fun _ => ?_
  refine .ite (fun hrow => ?_) fun _ => ?_
  · simp only [Bool.or_eq_true, decide_eq_true_eq] at hrow
    obtain rfl : mode = .inTable := by rcases hrow with (hrow | hrow) | hrow <;> simpa [tablePartTags, hrow] using h
    refine .bind (lowers_popWhile _) fun _ => .bind (lowers_openTag (by decide)) fun _ => handsOn_again ?_
    rcases hrow with (h | h) | h <;> simp [rank, Token.opensOneOf, h]
  refine .ite (fun _ => handsOn_closeInScope (by simp) (by decide) _) fun _ => ?_
  refine .ite (fun hhead => (settles_inHead ?_).handsOn) fun _ => ?_
  · simp only [Bool.or_eq_true, decide_eq_true_eq] at hhead
    rcases hhead with (h | h) | h <;> simp [headTags, h]
  refine .ite (fun _ => (settles_voidTag tag).handsOn) fun _ => ?_
  refine .ite (fun _ => Settles.handsOn ?_) fun _ => handsOn_fosterInBody rfl
  refine .bind fun _ => .bind fun _ => .ite (fun _ => ?_) fun _ => settles_done
  exact .bind fun _ => .bind fun _ => settles_done

/-- The parts of a table are handed on by the rules in a table only, and not by those in its parts. -/
theorem handsOn_inTable_of (hmode : mode ∈ [.inTable, .inColumnGroup, .inTableBody, .inRow])
    (h : mode = .inTable ∨ token.opensOneOf tablePartTags = false) : HandsOn token mode (inTable token) := by
  have hrank : 0 < rank token mode := Nat.zero_lt_of_lt (rank_tableMode token hmode).1
  cases token with
  | text t => exact handsOn_textInTable rfl hrank
  | nul => exact handsOn_textInTable rfl hrank
  | comment => exact settles_putComment.handsOn
  | startTag tag => exact handsOn_startInTable h
  | endTag name =>
    refine .ite (fun _ => Settles.handsOn (.bind fun _ => ?_)) fun _ => ?_
    · exact .ite (fun _ => .bind fun _ => .bind fun _ => settles_done) fun _ => settles_done
    refine .ite (fun _ => handsOn_done) fun hother => ?_
    refine .ite (fun htemplate => (htemplate ▸ settles_inHead_template).handsOn) fun _ => handsOn_fosterInBody ?_
    simp only [Bool.or_eq_true, decide_eq_true_eq, not_or] at hother
    simpa [Token.isEndOf] using hother.1.2
  | eof => exact handsOn_inBody rfl
  | doctype | fault => exact handsOn_done

theorem handsOn_inTable (token : Token) : HandsOn token .inTable (inTable token) :=
  handsOn_inTable_of (by simp) (.inl rfl)

theorem handsOn_inCaption (token : Token) : HandsOn token .inCaption (inCaption token) := by
  have hleave : HandsOn token .inCaption (do
      if ← hasInTable ["caption"] then
        closeCaption
        return .again .inTable
      else return .done) := by
    refine .bind (lowers_hasInScope _ _) fun _ => .ite (fun _ => ?_) fun _ => handsOn_done
    have hclose : Lowers closeCaption :=
      .bind (lowers_popWhile _) fun _ => .bind (lowers_popThrough _) fun _ => lowers_clearToMarker
    exact .bind hclose fun _ => handsOn_again (rank_tableMode token (by simp)).2
  unfold inCaption
  cases token with
  | startTag tag => exact .ite (fun _ => hleave) fun _ => handsOn_inBody rfl
  | endTag name =>
    refine .ite (fun _ => Settles.handsOn (.bind fun _ => ?_)) fun _ => .ite (fun _ => hleave) fun _ => ?_
    · exact .ite (fun _ => .bind fun _ => .bind fun _ => settles_done) fun _ => settles_done
    refine .ite (fun _ => handsOn_done) fun hother => handsOn_inBody ?_
    simp only [Bool.or_eq_true, decide_eq_true_eq, not_or] at hother
    simpa [Token.isEndOf] using hother.1.2
  | _ => exact handsOn_inBody rfl

theorem handsOn_inColumnGroup (token : Token) : HandsOn token .inColumnGroup (inColumnGroup token) := by
  have hleave : token.opensOneOf ["col"] = false → HandsOn token .inColumnGroup (do
      if ← currentIsOneOf ["colgroup"] then
        pop
        return .again .inTable
      else return .done) := by
    intro hcol
    refine .bind (lowers_currentIsOneOf _) fun _ => .ite (fun _ => .bind lowers_pop fun _ => handsOn_again ?_) fun _ =>
      handsOn_done
    simp only [rank, hcol]
    split <;> decide
  unfold inColumnGroup
  cases token with
  | text t => exact handsOn_text (settles_putText t).handsOn (hleave rfl)
  | comment => exact settles_putComment.handsOn
  | startTag tag =>
    refine .ite (fun _ => (settles_addRootAttributes tag).handsOn) fun _ => ?_
    refine .ite (fun _ => (settles_voidTag tag).handsOn) fun hcol => ?_
    refine .ite (fun h => (settles_inHead (by simp [headTags, h])).handsOn) fun _ => hleave ?_
    simpa [Token.opensOneOf] using hcol
  | endTag name =>
    refine .ite (fun _ => Settles.handsOn (.bind fun _ => ?_)) fun _ => ?_
    · exact .ite (fun _ => .bind fun _ => .bind fun _ => settles_done) fun _ => settles_done
    refine .ite (fun _ => handsOn_done) fun _ => ?_
    exact .ite (fun h => (h ▸ settles_inHead_template).handsOn) fun _ => hleave rfl
  | eof => exact handsOn_inBody rfl
  | _ => exact hleave rfl

theorem handsOn_inTableBody (token : Token) : HandsOn token .inTableBody (inTableBody token) := by
  have hleave : token.opensOneOf ["td", "th", "tr"] = false → HandsOn token .inTableBody (do
      if ← hasInTable ["table", "tbody", "tfoot"] then
        clearToRowContext
        pop
        return .again .inTable
      else return .done) := by
    intro hrow
    refine .bind (lowers_hasInScope _ _) fun _ => .ite (fun _ => ?_) fun _ => handsOn_done
    refine .bind (lowers_popWhile _) fun _ => .bind lowers_pop fun _ => handsOn_again ?_
    simp [rank, hrow]
  unfold inTableBody
  cases token with
  | startTag tag =>
    refine .ite (fun _ => Settles.handsOn (.bind fun _ => .bind fun _ => .bind fun _ => settles_done)) fun htr => ?_
    refine .ite (fun hcell => ?_) fun hcell => ?_
    · refine .bind (lowers_popWhile _) fun _ => .bind (lowers_openTag (by decide)) fun _ => handsOn_again ?_
      simp only [Bool.or_eq_true, decide_eq_true_eq] at hcell
      rcases hcell with h | h <;> simp [rank, Token.opensOneOf, h]
    · refine .ite (fun _ => hleave ?_) fun hpart => handsOn_inTable_of (by simp) (.inr (Bool.eq_false_iff.2 hpart))
      simp only [Bool.or_eq_true, decide_eq_true_eq, not_or] at hcell
      simp [Token.opensOneOf, htr, hcell]
  | endTag name =>
    refine .ite (fun _ => Settles.handsOn (.bind fun _ => ?_)) fun _ => ?_
    · exact .ite (fun _ => .bind fun _ => .bind fun _ => .bind fun _ => settles_done) fun _ => settles_done
    refine .ite (fun _ => hleave rfl) fun _ => ?_
    exact .ite (fun _ => handsOn_done) fun _ => handsOn_inTable_of (by simp) (.inr rfl)
  | _ => exact handsOn_inTable_of (by simp) (.inr rfl)

theorem handsOn_inRow (token : Token) : HandsOn token .inRow (inRow token) := by
  have hleave : token.opensOneOf ["td", "th"] = false → HandsOn token .inRow (do
      if ← hasInTable ["tr"] then
        clearToCellContext
        pop
        return .again .inTableBody
      else return .done) := by
    intro hcell
    refine .bind (lowers_hasInScope _ _) fun _ => .ite (fun _ => ?_) fun _ => handsOn_done
    refine .bind (lowers_popWhile _) fun _ => .bind lowers_pop fun _ => handsOn_again ?_
    simp only [rank, hcell]
    split <;> decide
  unfold inRow
  cases token with
  | startTag tag =>
    refine .ite (fun _ => Settles.handsOn ?_) fun hcell => ?_
    · exact .bind fun _ => .bind fun _ => .bind fun _ => .bind fun _ => settles_done
    refine .ite (fun _ => hleave ?_) fun hpart => handsOn_inTable_of (by simp) (.inr (Bool.eq_false_iff.2 hpart))
    simp only [Bool.or_eq_true, decide_eq_true_eq, not_or] at hcell
    simp [Token.opensOneOf, hcell]
  | endTag name =>
    refine .ite (fun _ => Settles.handsOn (.bind fun _ => ?_)) fun _ => ?_
    · exact .ite (fun _ => .bind fun _ => .bind fun _ => .bind fun _ => settles_done) fun _ => settles_done
    refine .ite (fun _ => hleave rfl) fun _ => ?_
    refine .ite (fun _ => .bind (lowers_hasInScope _ _) fun _ => ?_) fun _ => ?_
    · exact .ite (fun _ => hleave rfl) fun _ => handsOn_done
    exact .ite (fun _ => handsOn_done) fun _ => handsOn_inTable_of (by simp) (.inr rfl)
  | _ => exact handsOn_inTable_of (by simp) (.inr rfl)

theorem handsOn_inCell (token : Token) : HandsOn token .inCell (inCell token) := by
  have hleave : HandsOn token .inCell (do
      implyEnds
      popThrough (·.isCell)
      clearToMarker
      return .again .inRow) := by
    refine .bind (lowers_popWhile _) fun _ => .bind (lowers_popThrough _) fun _ => ?_
    exact .bind lowers_clearToMarker fun _ => handsOn_again (rank_tableMode token (by simp)).2
  have hleaveIf (tags : List String) : HandsOn token .inCell (do
      if ← hasInTable tags then
        implyEnds
        popThrough (·.isCell)
        clearToMarker
        return .again .inRow
      else return .done) :=
    .bind (lowers_hasInScope _ _) fun _ => .ite (fun _ => hleave) fun _ => handsOn_done
  unfold inCell
  cases token with
  | startTag tag => exact .ite (fun _ => hleaveIf _) fun _ => handsOn_inBody rfl
  | endTag name =>
    refine .ite (fun _ => Settles.handsOn (.bind fun _ => ?_)) fun _ => ?_
    · refine .ite (fun _ => ?_) fun _ => settles_done
      exact .bind fun _ => .bind fun _ => .bind fun _ => .bind fun _ => settles_done
    refine .ite (fun _ => hleaveIf _) fun _ => .ite (fun _ => handsOn_done) fun hother => handsOn_inBody ?_
    simp at hother
    simpa [Token.isEndOf] using hother.2.2.2.2
  | _ => exact handsOn_inBody rfl

/-! ### The remaining rules -/

/-- The rules in a selection hand on only what ends it or a template. -/
theorem handsOn_inSelect (token : Token) (mode : Mode) : HandsOn token mode (inSelect token) := by
  unfold inSelect
  cases token with
  | nul | doctype | fault => exact handsOn_done
  | text t => exact (settles_putText t).handsOn
  | comment => exact settles_putComment.handsOn
  | startTag tag =>
    refine .ite (fun _ => (settles_addRootAttributes tag).handsOn) fun _ => ?_
    refine .ite (fun _ => Settles.handsOn (.bind fun _ => ?_)) fun _ => ?_
    · exact .ite (fun _ => .bind fun _ => .bind fun _ => settles_done) fun _ => .bind fun _ => settles_done
    refine .ite (fun _ => Settles.handsOn (.bind fun _ => .bind fun _ => settles_done)) fun _ => ?_
    refine .ite (fun _ => Settles.handsOn (.bind fun _ => settles_voidTag tag)) fun _ => ?_
    refine .ite (fun _ => Settles.handsOn (.bind fun _ => ?_)) fun _ => ?_
    · exact .ite (fun _ => .bind fun _ => .bind fun _ => settles_done) fun _ => settles_done
    refine .ite (fun _ => handsOn_closeInScope (by simp) (by decide) _) fun _ => ?_
    refine .ite (fun hhead => (settles_inHead ?_).handsOn) fun _ => handsOn_done
    simp only [Bool.or_eq_true, decide_eq_true_eq] at hhead
    rcases hhead with h | h <;> simp [headTags, h]
  | endTag name =>
    refine .ite (fun _ => Settles.handsOn (.bind fun s => ?_)) fun _ => ?_
    · repeat' first
        | with_reducible refine .ite (fun _ => ?_) fun _ => ?_
        | with_reducible refine .bind fun _ => ?_
        | split
        | exact settles_done
    refine .ite (fun _ => Settles.handsOn (.bind fun _ => ?_)) fun _ => ?_
    · exact .ite (fun _ => .bind fun _ => settles_done) fun _ => settles_done
    refine .ite (fun _ => Settles.handsOn (.bind fun _ => ?_)) fun _ => ?_
    · exact .ite (fun _ => .bind fun _ => .bind fun _ => settles_done) fun _ => settles_done
    exact .ite (fun h => (h ▸ settles_inHead_template).handsOn) fun _ => handsOn_done
  | eof => exact handsOn_inBody rfl

theorem handsOn_inSelectInTable (token : Token) : HandsOn token .inSelectInTable (inSelectInTable token) := by
  have hleave : (∀ t, token ≠ .text t) → HandsOn token .inSelectInTable (do
      closeSelect
      return .again (← fitting)) := by
    intro htext s
    by_cases hopen : s.stack.any (·.name.isOneOf ["select"]) = true
    · exact leaves_popThroughTag htext (by decide) hopen
    · -- without an open selection everything is closed
      have hclosed : s.stack.dropWhile (!·.name.isOneOf ["select"]) = [] := by
        simpa [List.dropWhile_eq_nil_iff] using hopen
      have hrun : (closeSelect.run s).2 = { s with stack := [] } :=
        congrArg (fun stack : List Opened => { s with stack := stack.tail }) hclosed
      show way token (fittingMode (closeSelect.run s).2 (closeSelect.run s).2.stack) (closeSelect.run s).2 < _
      rw [hrun]
      exact way_lt_of_rank_lt (Nat.zero_le _) (by simp [rank, fittingMode])
  unfold inSelectInTable
  cases token with
  | startTag tag => exact .ite (fun _ => hleave (by simp)) fun _ => handsOn_inSelect _ _
  | endTag name =>
    refine .ite (fun _ => .bind (lowers_hasInScope _ _) fun _ => ?_) fun _ => handsOn_inSelect _ _
    exact .ite (fun _ => hleave (by simp)) fun _ => handsOn_done
  | _ => exact handsOn_inSelect _ _

theorem handsOn_inTemplate (token : Token) : HandsOn token .inTemplate (inTemplate token) := by
  have hbecome (next : Mode) (h : rank token next < 6) : HandsOn token .inTemplate (do
      modify fun s => { s with templateModes := next :: s.templateModes.tail }
      return .again next) := .bind (fun _ => Nat.le_refl _) fun _ => handsOn_again (Nat.lt_succ_of_lt h)
  unfold inTemplate
  cases token with
  | text | comment => exact handsOn_inBody rfl
  | startTag tag =>
    refine .ite (fun h => (settles_inHead h).handsOn) fun _ => ?_
    refine .ite (fun _ => hbecome .inTable (rank_tableMode _ (by simp)).2) fun _ => ?_
    refine .ite (fun _ => hbecome .inColumnGroup (rank_tableMode _ (by simp)).2) fun _ => ?_
    refine .ite (fun _ => hbecome .inTableBody (rank_tableMode _ (by simp)).2) fun _ => ?_
    exact .ite (fun _ => hbecome .inRow (rank_tableMode _ (by simp)).2) fun _ => hbecome .inBody (by simp [rank])
  | endTag name => exact .ite (fun h => (h ▸ settles_inHead_template).handsOn) fun _ => handsOn_done
  | eof => exact handsOn_endInTemplate (by simp)
  | nul | doctype | fault => exact handsOn_done

theorem handsOn_afterBody (token : Token) : HandsOn token .afterBody (afterBody token) := by
  have hback (h : token.isEndOf "html" = false) : HandsOn token .afterBody (pure (.again .inBody)) :=
    handsOn_again (by simp [rank, h])
  unfold afterBody
  cases token with
  | text t => exact handsOn_text (handsOn_inBody rfl) (hback rfl)
  | comment => exact settles_putCommentUnderRoot.handsOn
  | startTag tag => exact .ite (fun _ => handsOn_inBody rfl) fun _ => hback rfl
  | endTag name =>
    refine .ite (fun _ => Settles.handsOn (.bind fun _ => settles_done)) fun h => hback ?_
    simpa [Token.isEndOf] using h
  | eof => exact handsOn_done
  | _ => exact hback rfl

theorem handsOn_afterAfterBody (token : Token) : HandsOn token .afterAfterBody (afterAfterBody token) := by
  have hback : HandsOn token .afterAfterBody (pure (.again .inBody)) := handsOn_again (by simp [rank])
  unfold afterAfterBody
  cases token with
  | text t => exact handsOn_text (handsOn_inBody rfl) hback
  | comment => exact (settles_putCommentUnder _).handsOn
  | startTag tag => exact .ite (fun _ => handsOn_inBody rfl) fun _ => hback
  | eof => exact handsOn_done
  | _ => exact hback

theorem settles_noframes {tag : Tag} (h : tag.name = "noframes") : Settles (inHead (.startTag tag)) :=
  settles_inHead (by simp [headTags, h])

theorem handsOn_inFrameset (token : Token) : HandsOn token .inFrameset (inFrameset token) := by
  unfold inFrameset
  cases token with
  | text t => exact handsOn_text (settles_putText t).handsOn handsOn_done
  | comment => exact settles_putComment.handsOn
  | startTag tag =>
    refine .ite (fun _ => handsOn_inBody rfl) fun _ => ?_
    refine .ite (fun _ => Settles.handsOn (.bind fun _ => settles_done)) fun _ => ?_
    refine .ite (fun _ => (settles_voidTag tag).handsOn) fun _ => ?_
    exact .ite (fun h => (settles_noframes h).handsOn) fun _ => handsOn_done
  | endTag name =>
    refine Settles.handsOn (.bind fun _ => .ite (fun _ => .bind fun _ => .bind fun _ => ?_) fun _ => settles_done)
    exact .ite (fun _ => .bind fun _ => settles_done) fun _ => settles_done
  | _ => exact handsOn_done

theorem handsOn_afterFrameset (token : Token) : HandsOn token .afterFrameset (afterFrameset token) := by
  unfold afterFrameset
  cases token with
  | text t => exact handsOn_text (settles_putText t).handsOn handsOn_done
  | comment => exact settles_putComment.handsOn
  | startTag tag =>
    refine .ite (fun _ => handsOn_inBody rfl) fun _ => ?_
    exact .ite (fun h => (settles_noframes h).handsOn) fun _ => handsOn_done
  | endTag name => exact .ite (fun _ => Settles.handsOn (.bind fun _ => settles_done)) fun _ => handsOn_done
  | _ => exact handsOn_done

theorem handsOn_afterAfterFrameset (token : Token) :
    HandsOn token .afterAfterFrameset (afterAfterFrameset token) := by
  unfold afterAfterFrameset
  cases token with
  | text t => exact handsOn_text (handsOn_inBody rfl) handsOn_done
  | comment => exact (settles_putCommentUnder _).handsOn
  | startTag tag =>
    refine .ite (fun _ => handsOn_inBody rfl) fun _ => ?_
    exact .ite (fun h => (settles_noframes h).handsOn) fun _ => handsOn_done
  | _ => exact handsOn_done

theorem settles_inText (token : Token) : Settles (inText token) := by
  refine .bind fun s => ?_
  cases token with
  | text t => exact settles_putText t
  | endTag name =>
    refine .bind fun _ => .bind fun _ => settles_pure.2 ?_
    split <;> rfl
  | _ => exact settles_done

theorem settles_inTableText (token : Token) : Settles (inTableText token) := by
  cases token with
  | text t => exact .bind fun _ => settles_done
  | _ => exact settles_done

/-- The rules of every mode use up a token or shorten its way. -/
theorem handsOn_rules (mode : Mode) (token : Token) : HandsOn token mode (rules mode token) := by
  cases mode with
  | initial => exact handsOn_initial token
  | beforeHtml => exact handsOn_beforeHtml token
  | beforeHead => exact handsOn_beforeHead token
  | inHead => exact handsOn_inHead token
  | afterHead => exact handsOn_afterHead token
  | inBody => exact handsOn_inBody_self token
  | text => exact (settles_inText token).handsOn
  | inTable => exact handsOn_inTable token
  | inTableText => exact (settles_inTableText token).handsOn
  | inCaption => exact handsOn_inCaption token
  | inColumnGroup => exact handsOn_inColumnGroup token
  | inTableBody => exact handsOn_inTableBody token
  | inRow => exact handsOn_inRow token
  | inCell => exact handsOn_inCell token
  | inSelect => exact handsOn_inSelect token .inSelect
  | inSelectInTable => exact handsOn_inSelectInTable token
  | inTemplate => exact handsOn_inTemplate token
  | afterBody => exact handsOn_afterBody token
  | inFrameset => exact handsOn_inFrameset token
  | afterFrameset => exact handsOn_afterFrameset token
  | afterAfterBody => exact handsOn_afterAfterBody token
  | afterAfterFrameset => exact handsOn_afterAfterFrameset token

theorem leaves_applyRules (token : Token) (s : State) :
    Leaves token (way token s.mode s) ((applyRules token).run s) := by
  show Leaves token (way token s.mode s)
    ((if isForeignToken s token = true then _ else _ : Build Outcome).run s)
  split
  · exact handsOn_foreign (handsOn_rules s.mode token) s
  · exact handsOn_rules s.mode token s

end Cull.Markup.Build
