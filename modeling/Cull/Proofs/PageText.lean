import Mathlib
import Cull.Markup.Page
import Cull.Proofs.ConstructionRules
import Cull.Proofs.TokenRounds

/-!
# How much text a page gives

A document has no more text than the page that it has been made from, and less if any of its elements
has attributes, because a start tag takes up characters that give no text. The bound is kept from
token to token (`feed_spec`) and so through the whole page (`consume_spec`).
-/

set_option mvcgen.warning false

open Std.Do

namespace Cull.Markup

open Lexer

variable {k : Known} {s : State} {n m : Nat}

/-- The text fits into so many characters, with one to spare if there may be attributes. -/
def Known.Within (k : Known) (n : Nat) : Prop := k.chars ≤ n ∧ (k.attributed → k.chars < n)

theorem Known.Within.mono (h : k.Within n) (hle : n ≤ m) : k.Within m :=
  ⟨Nat.le_trans h.1 hle, fun ha => Nat.lt_of_lt_of_le (h.2 ha) hle⟩

theorem Known.Within.spend (h : k.Within n) (m : Nat) : (k.spend m).Within (n + m) :=
  ⟨Nat.add_le_add_right h.1 m, fun ha => Nat.add_lt_add_right (h.2 ha) m⟩

/-- What is known about the state bounds its text. -/
def State.Within (s : State) (n : Nat) : Prop := ∃ k, s.Meets k ∧ k.Within n

theorem State.Within.mono (h : s.Within n) (hle : n ≤ m) : s.Within m := by
  obtain ⟨k, hs, hk⟩ := h
  exact ⟨k, hs, hk.mono hle⟩

namespace Build

/-! ### One token -/

/-- A token and the text after it are placed once, however many rules see them. -/
theorem exhaust_spec (token : Token) (later : Text) (fuel : Nat) (h : k.Allows token) :
    ⦃fun s => ⌜s.Meets k⌝⦄
    exhaust token later fuel
    ⦃⇓ _ s => ⌜s.Meets (k.spend (token.size + later.length))⌝⦄ := by
  induction fuel generalizing token later k with
  | zero => exact fun s hs => hs.spend _
  | succ fuel ih =>
    unfold exhaust
    refine Triple.bind _ _ (applyRules_spec token h) fun outcome => ?_
    cases outcome with
    | again mode => exact Triple.bind _ _ (setMode_spec mode) fun _ => ih token later h
    | split =>
      cases token with
      | text t =>
        have hrun := ih (k := k) (.text (firstRun t).1) ((firstRun t).2 ++ later) trivial
        have hsize : (firstRun t).1.length + ((firstRun t).2 ++ later).length = t.length + later.length := by
          rw [List.length_append, ← Nat.add_assoc, length_firstRun]
        simp only [Token.size, hsize] at hrun
        exact hrun
      | _ => exact fun s hs => hs.spend _
    | done =>
      have hlater := ih (k := k.spend token.size) (.text later) [] trivial
      rw [Known.spend_spend] at hlater
      by_cases hempty : later.isEmpty
      · simp only [hempty, if_true]
        exact fun s hs => hs.spend_mono (Nat.le_add_right _ _)
      · simp only [hempty]
        exact hlater
    | raw content => exact fun s hs => hs.spend _
    | scriptEnd => exact fun s hs => hs.spend _

theorem exhaustText_spec {t rest : Text} (fuel : Nat) (hle : rest.length ≤ t.length) :
    ⦃fun s => ⌜s.Meets k⌝⦄
    if rest.isEmpty then pure .none else exhaust (.text rest) [] fuel
    ⦃⇓ _ s => ⌜s.Meets (k.spend t.length)⌝⦄ := by
  mvcgen [exhaust_spec]
  · next hs => exact hs.spend _
  · exact fun hs => hs.spend_mono hle
  · exact fun _ _ => trivial

theorem feed_meets (token : Token) (h : k.Allows token) :
    ⦃fun s => ⌜s.Meets k⌝⦄ feed token ⦃⇓ _ s => ⌜s.Meets (k.spend token.size)⌝⦄ := by
  mvcgen [feed, exhaust_spec]
  case vc4 hs _ t _ rest =>
    have hle : rest.length ≤ t.length := by
      simp only [rest]
      split <;> simp
    exact exhaustText_spec _ hle _ hs
  all_goals grind

/-- A start tag allows attributes and takes up a character; any other token takes up its text. -/
theorem feed_spec (token : Token) :
    ⦃fun s => ⌜s.Within n⌝⦄ feed token ⦃⇓ _ s => ⌜s.Within (n + token.cost)⌝⦄ := by
  rintro s ⟨k, hs, hk⟩
  have hfed : ∀ k, k.Allows token → s.Meets k → State.Meets ((feed token).run s).2 (k.spend token.size) :=
    fun _ ha hs => feed_meets token ha s hs
  show State.Within ((feed token).run s).2 (n + token.cost)
  cases token with
  | startTag tag =>
    have hmore : s.Meets { k with attributed := True } := hs.mono (Nat.le_refl _) (List.Subset.refl _) fun _ => trivial
    exact ⟨_, hfed _ (fun _ => trivial) hmore, Nat.le_succ_of_le hk.1, fun _ => Nat.lt_succ_of_le hk.1⟩
  | _ => exact ⟨_, hfed k trivial hs, hk.spend _⟩

/-! ### The whole page -/

theorem feedAll_spec (tokens : List Token) :
    ⦃fun s => ⌜s.Within n⌝⦄ feedAll tokens ⦃⇓ _ s => ⌜s.Within (n + costs tokens)⌝⦄ := by
  induction tokens generalizing n with
  | nil => exact fun s hs => hs
  | cons token tokens ih =>
    rw [costs_cons, ← Nat.add_assoc]
    cases tokens with
    | nil => exact feed_spec token
    | cons => exact Triple.bind _ _ (feed_spec token) fun _ => ih

theorem get_within : ⦃fun s => ⌜s.Within n⌝⦄ (get : Build State) ⦃⇓ _ s => ⌜s.Within n⌝⦄ := fun _ hs => hs

theorem within_mono {α : Type} {x : Build α} {l : Nat} (h : ⦃fun s => ⌜s.Within n⌝⦄ x ⦃⇓ _ s => ⌜s.Within m⌝⦄)
    (hle : m ≤ l) : ⦃fun s => ⌜s.Within n⌝⦄ x ⦃⇓ _ s => ⌜s.Within l⌝⦄ :=
  fun s hs => State.Within.mono (h s hs) hle

/-- What is left to read bounds the text that is still to come. -/
theorem consume_spec (source : Source) (fuel : Nat) :
    ⦃fun s => ⌜s.Within n⌝⦄ consume source fuel ⦃⇓ _ s => ⌜s.Within (n + source.text.length)⌝⦄ := by
  induction fuel generalizing source n with
  | zero => exact fun s hs => hs.mono (Nat.le_add_right _ _)
  | succ fuel ih =>
    unfold consume
    refine Triple.bind _ _ get_within fun s => ?_
    cases hstep : source.step (inForeign s) with
    | none => exact Triple.bind _ _ (feed_spec .eof) fun _ s hs => hs.mono (Nat.le_add_right _ _)
    | some step =>
      obtain ⟨tokens, source'⟩ := step
      have hcosts := costs_step_le hstep
      refine Triple.bind _ _ (feedAll_spec tokens) fun effect => ?_
      cases effect with
      | none => exact within_mono (ih source') (by omega)
      | scriptEnd =>
        have hmark := length_dropByteOrderMark_le source'.text
        exact within_mono (ih _) (by simp only [Source.ofText]; omega)
      | raw content =>
        dsimp only
        have hraw := costs_readRawText_le content (startName tokens) source'.text
        generalize readRawText content (startName tokens) source'.text = read at hraw ⊢
        refine Triple.bind _ _ (feedAll_spec _) fun _ => ?_
        exact within_mono (ih _) (by simp only [Source.ofText]; omega)

end Build

theorem State.within_start : State.start.Within 0 := by
  have hsound : State.start.Meets ⟨False, 0, []⟩ :=
    { linked := Document.linked_empty, root := Nat.one_pos, nodes := nofun, stack := nofun, formatting := nofun,
      head := nofun, attributes := Document.allElements_empty, chars := Nat.le_of_eq Document.size_empty }
  exact ⟨_, hsound, Nat.le_refl _, fun h => h.elim⟩

namespace Document

/-- What is known about a page when it has been read. -/
theorem within_ofPage (page : Text) : ∃ s : State, s.doc = ofPage page ∧ s.Within page.length := by
  have hread := Build.consume_spec (.ofText (dropByteOrderMark page)) ((dropByteOrderMark page).length + 1) _
    State.within_start
  refine ⟨_, rfl, State.Within.mono hread ?_⟩
  simpa [Source.ofText] using length_dropByteOrderMark_le page

theorem linked_ofPage (page : Text) : (ofPage page).Linked := by
  obtain ⟨s, hdoc, k, hs, -⟩ := within_ofPage page
  exact hdoc ▸ hs.linked

/-- A document has less text than its page if an element of it has attributes. -/
theorem size_ofPage_lt {page : Text} {id : NodeId} {e : Element} (he : ((ofPage page).node id).kind = .element e)
    (hattributes : e.attributes ≠ []) : (ofPage page).size < page.length := by
  obtain ⟨s, hdoc, k, hs, hk⟩ := within_ofPage page
  have hattributed : k.attributed := hs.attributes id e (hdoc ▸ he) hattributes
  rw [← hdoc]
  exact Nat.lt_of_le_of_lt (Nat.le_of_add_right_le hs.chars) (hk.2 hattributed)

end Document

end Cull.Markup
