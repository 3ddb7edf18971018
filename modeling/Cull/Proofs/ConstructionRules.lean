import Mathlib
import Cull.Markup.Construction.Rules
import Cull.Proofs.ConstructionSteps

/-!
# The rules of construction

Each rule keeps what is known about a state, apart from the text of the token, which counts as placed
if the rule has disposed of it. A rule is a list of cases by the name of a tag, and in most of them
what is to be shown follows from the steps alone. The cases that take more are those in which a rule
changes the document or the open elements without a step for it.
-/

set_option mvcgen.warning false

open Std.Do

namespace Cull.Markup.Build

variable {k : Known}

/-! ### Up to the body -/

@[spec]
theorem addRootAttributes_spec (tag : Tag) (h : k.Permits tag.attributes) :
    ⦃fun s => ⌜s.Meets k⌝⦄ addRootAttributes tag ⦃⇓ _ s => ⌜s.Meets k⌝⦄ := by
  mvcgen [addRootAttributes]
  next hs _ _ e _ _ => exact hs.addMissingAttributes e.id h

@[spec]
theorem createRoot_spec (attributes : List Attribute) (h : k.Permits attributes) :
    ⦃fun s => ⌜s.Meets k⌝⦄ createRoot attributes ⦃⇓ _ s => ⌜s.Meets k⌝⦄ := by
  mvcgen [createRoot] with grind

@[spec]
theorem openHead_spec (tag : Tag) (h : k.Permits tag.attributes) :
    ⦃fun s => ⌜s.Meets k⌝⦄ openHead tag ⦃⇓ _ s => ⌜s.Meets k⌝⦄ := by
  mvcgen [openHead, -openTag_spec, openTag_learn]
  next hs _ => exact (hs.setHead (hs.nodes _ List.mem_cons_self)).forget

@[spec]
theorem leaveTemplate_spec : ⦃fun s => ⌜s.Meets k⌝⦄ leaveTemplate ⦃⇓ _ s => ⌜s.Meets k⌝⦄ := by
  mvcgen [leaveTemplate]

@[spec]
theorem enterTemplate_spec (tag : Tag) (h : k.Permits tag.attributes) :
    ⦃fun s => ⌜s.Meets k⌝⦄ enterTemplate tag ⦃⇓ _ s => ⌜s.Meets k⌝⦄ := by
  mvcgen [enterTemplate]

@[spec]
theorem initial_spec (token : Token) :
    ⦃fun s => ⌜s.Meets k⌝⦄ initial token ⦃⇓ o s => ⌜s.Meets (k.spend (o.uses token))⌝⦄ := by
  mvcgen [initial] with grind

@[spec]
theorem beforeHtml_spec (token : Token) (h : k.Allows token) :
    ⦃fun s => ⌜s.Meets k⌝⦄ beforeHtml token ⦃⇓ o s => ⌜s.Meets (k.spend (o.uses token))⌝⦄ := by
  mvcgen [beforeHtml] with grind

@[spec]
theorem beforeHead_spec (token : Token) (h : k.Allows token) :
    ⦃fun s => ⌜s.Meets k⌝⦄ beforeHead token ⦃⇓ o s => ⌜s.Meets (k.spend (o.uses token))⌝⦄ := by
  mvcgen [beforeHead] with grind

@[spec]
theorem inHead_spec (token : Token) (h : k.Allows token) :
    ⦃fun s => ⌜s.Meets k⌝⦄ inHead token ⦃⇓ o s => ⌜s.Meets (k.spend (o.uses token))⌝⦄ := by
  mvcgen [inHead] with grind

@[spec]
theorem afterHead_spec (token : Token) (h : k.Allows token) :
    ⦃fun s => ⌜s.Meets k⌝⦄ afterHead token ⦃⇓ o s => ⌜s.Meets (k.spend (o.uses token))⌝⦄ := by
  mvcgen [afterHead, -push_spec, push_inner] with grind

/-! ### Formulas and graphics -/

theorem permits_map {attributes : List Attribute} (h : k.Permits attributes) (f : Attribute → Attribute) :
    k.Permits (attributes.map f) := fun hne => h fun hnil => hne (by rw [hnil, List.map_nil])

@[spec]
theorem openForeign_spec (ns : Namespace) (name : String) (tag : Tag) (h : k.Permits tag.attributes) :
    ⦃fun s => ⌜s.Meets k⌝⦄ openForeign ns name tag ⦃⇓ _ s => ⌜s.Meets k⌝⦄ := by
  mvcgen [openForeign] with grind [permits_map]

@[spec]
theorem leaveForeign_spec : ⦃fun s => ⌜s.Meets k⌝⦄ leaveForeign ⦃⇓ _ s => ⌜s.Meets k⌝⦄ := by
  mvcgen [leaveForeign]

theorem sublist_of_foreignEnd {name : String} {first : Bool} {stack rest : List Opened}
    (h : foreignEnd name first stack = .closed rest) : rest.Sublist stack := by
  fun_induction foreignEnd name first stack with
  | case1 | case2 | case3 => cases h
  | case4 first e below _ _ =>
    cases h
    exact List.sublist_cons_self e _
  | case5 first e below _ _ _ ih => exact (ih h).cons e

/-- The rules for foreign elements keep what the rules keep that apply otherwise. -/
theorem foreign_spec (ordinary : Token → Build Outcome) (token : Token) (h : k.Allows token)
    (hordinary : ⦃fun s => ⌜s.Meets k⌝⦄ ordinary token ⦃⇓ o s => ⌜s.Meets (k.spend (o.uses token))⌝⦄) :
    ⦃fun s => ⌜s.Meets k⌝⦄ foreign ordinary token ⦃⇓ o s => ⌜s.Meets (k.spend (o.uses token))⌝⦄ := by
  cases token <;> mvcgen [foreign, hordinary]
  case vc4.endTag.isFalse.h_1 hs stack hend _ => exact (hs.sublist (sublist_of_foreignEnd hend)).spend _
  all_goals grind

/-! ### In the body -/

@[spec]
theorem openListItem_spec (tag : Tag) (items : List String) (h : k.Permits tag.attributes) :
    ⦃fun s => ⌜s.Meets k⌝⦄ openListItem tag items ⦃⇓ _ s => ⌜s.Meets k⌝⦄ := by
  mvcgen [openListItem]

@[spec]
theorem closeAnchor_spec : ⦃fun s => ⌜s.Meets k⌝⦄ closeAnchor ⦃⇓ _ s => ⌜s.Meets k⌝⦄ := by
  mvcgen [closeAnchor]

@[spec]
theorem insertVoid_spec (tag : Tag) (h : k.Permits tag.attributes) :
    ⦃fun s => ⌜s.Meets k⌝⦄ insertVoid tag ⦃⇓ _ s => ⌜s.Meets k⌝⦄ := by
  mvcgen [insertVoid] with grind

@[spec]
theorem openInline_spec (tag : Tag) (h : k.Permits tag.attributes) :
    ⦃fun s => ⌜s.Meets k⌝⦄ openInline tag ⦃⇓ _ s => ⌜s.Meets k⌝⦄ := by
  mvcgen [openInline]

@[spec]
theorem openBlock_spec (tag : Tag) (h : k.Permits tag.attributes) :
    ⦃fun s => ⌜s.Meets k⌝⦄ openBlock tag ⦃⇓ _ s => ⌜s.Meets k⌝⦄ := by
  mvcgen [openBlock]

@[spec]
theorem startInBody_spec (tag : Tag) (h : k.Permits tag.attributes) :
    ⦃fun s => ⌜s.Meets k⌝⦄ startInBody tag ⦃⇓ _ s => ⌜s.Meets k⌝⦄ := by
  mvcgen [startInBody]
  case vc9 body _ _ _ _ hs _ => exact hs.addMissingAttributes body h
  case vc13 hs _ body _ _ _ =>
    exact (hs.detach body).setStack fun e he => (hs.detach body).stack e (List.mem_of_getLast? (Option.mem_toList.1 he))
  all_goals grind

@[spec]
theorem endForm_spec : ⦃fun s => ⌜s.Meets k⌝⦄ endForm ⦃⇓ _ s => ⌜s.Meets k⌝⦄ := by
  mvcgen [endForm]

@[spec]
theorem endInBody_spec (name : String) :
    ⦃fun s => ⌜s.Meets k⌝⦄ endInBody name ⦃⇓ _ s => ⌜s.Meets k⌝⦄ := by
  mvcgen [endInBody] with grind

@[spec]
theorem endInTemplate_spec : ⦃fun s => ⌜s.Meets k⌝⦄ endInTemplate ⦃⇓ _ s => ⌜s.Meets k⌝⦄ := by
  mvcgen [endInTemplate]

@[spec]
theorem inBody_spec (token : Token) (h : k.Allows token) :
    ⦃fun s => ⌜s.Meets k⌝⦄ inBody token ⦃⇓ o s => ⌜s.Meets (k.spend (o.uses token))⌝⦄ := by
  mvcgen [inBody] with grind

@[spec]
theorem fosterInBody_spec (token : Token) (h : k.Allows token) :
    ⦃fun s => ⌜s.Meets k⌝⦄ fosterInBody token ⦃⇓ o s => ⌜s.Meets (k.spend (o.uses token))⌝⦄ := by
  mvcgen [fosterInBody]

/-! ### In a table -/

@[spec]
theorem clearToTable_spec : ⦃fun s => ⌜s.Meets k⌝⦄ clearToTable ⦃⇓ _ s => ⌜s.Meets k⌝⦄ := by
  mvcgen [clearToTable]

@[spec]
theorem clearToRowContext_spec : ⦃fun s => ⌜s.Meets k⌝⦄ clearToRowContext ⦃⇓ _ s => ⌜s.Meets k⌝⦄ := by
  mvcgen [clearToRowContext]

@[spec]
theorem clearToCellContext_spec : ⦃fun s => ⌜s.Meets k⌝⦄ clearToCellContext ⦃⇓ _ s => ⌜s.Meets k⌝⦄ := by
  mvcgen [clearToCellContext]

@[spec]
theorem hasInTable_spec (tags : List String) : ⦃fun s => ⌜s.Meets k⌝⦄ hasInTable tags ⦃⇓ _ s => ⌜s.Meets k⌝⦄ := by
  mvcgen [hasInTable]

@[spec]
theorem textInTable_spec (token : Token) (h : k.Allows token) :
    ⦃fun s => ⌜s.Meets k⌝⦄ textInTable token ⦃⇓ o s => ⌜s.Meets (k.spend (o.uses token))⌝⦄ := by
  mvcgen [textInTable] with grind

@[spec]
theorem startInTable_spec (tag : Tag) (h : k.Permits tag.attributes) :
    ⦃fun s => ⌜s.Meets k⌝⦄ startInTable tag ⦃⇓ _ s => ⌜s.Meets k⌝⦄ := by
  mvcgen [startInTable]
  case vc36 hs _ => exact hs.forget
  all_goals grind

@[spec]
theorem inTable_spec (token : Token) (h : k.Allows token) :
    ⦃fun s => ⌜s.Meets k⌝⦄ inTable token ⦃⇓ o s => ⌜s.Meets (k.spend (o.uses token))⌝⦄ := by
  mvcgen [inTable] with grind

/-- Texts that are placed one after the other are counted together. -/
theorem forIn_texts_spec {α : Type} {f : Text → Build α}
    (hf : ∀ k t, ⦃fun s => ⌜s.Meets k⌝⦄ f t ⦃⇓ _ s => ⌜s.Meets (k.spend t.length)⌝⦄) (texts : List Text) :
    ⦃fun s => ⌜s.Meets k⌝⦄
    (forIn texts PUnit.unit fun t _ => do
      let _ ← f t
      pure (.yield PUnit.unit) : Build PUnit)
    ⦃⇓ _ s => ⌜s.Meets (k.spend (textsSize texts))⌝⦄ := by
  induction texts generalizing k with
  | nil => exact fun s h => h
  | cons t texts ih =>
    rw [List.forIn_cons, bind_assoc, textsSize, ← Known.spend_spend]
    refine Triple.bind _ _ (hf k t) fun _ => ?_
    rw [pure_bind]
    exact ih

theorem fosterText_spec (t : Text) :
    ⦃fun s => ⌜s.Meets k⌝⦄ fosterInBody (.text t) ⦃⇓ _ s => ⌜s.Meets (k.spend t.length)⌝⦄ := by
  mvcgen
  · next r s => exact fun h => h.spend_mono (r.uses_text_le t)
  · exact fun _ _ => trivial

theorem placeTexts_spec (texts : List Text) :
    ⦃fun s => ⌜s.Meets k⌝⦄ placeTexts texts ⦃⇓ _ s => ⌜s.Meets (k.spend (textsSize texts))⌝⦄ := by
  unfold placeTexts
  split
  · exact Triple.bind _ _ (forIn_texts_spec (fun _ t => put_text_spec t) texts) fun _ s h => h
  · exact Triple.bind _ _ (forIn_texts_spec (fun _ t => fosterText_spec t) texts) fun _ s h => h

@[spec]
theorem placePending_spec : ⦃fun s => ⌜s.Meets k⌝⦄ placePending ⦃⇓ _ s => ⌜s.Meets k⌝⦄ := by
  intro s h
  -- what has been collected is counted twice in between, unless it is taken off first
  have hback : Known.spend { k with chars := k.chars - textsSize s.pending } (textsSize s.pending) = k := by
    have hle : textsSize s.pending ≤ k.chars := Nat.le_of_add_left_le h.chars
    simp [Known.spend, Nat.sub_add_cancel hle]
  have hrun := placeTexts_spec s.pending _ h.clearPending
  exact hback ▸ hrun

@[spec]
theorem inTableText_spec (token : Token) :
    ⦃fun s => ⌜s.Meets k⌝⦄ inTableText token ⦃⇓ o s => ⌜s.Meets (k.spend (o.uses token))⌝⦄ := by
  mvcgen [inTableText]
  case vc1 t _ _ hs _ => exact hs.addPending t
  all_goals grind

@[spec]
theorem closeCaption_spec : ⦃fun s => ⌜s.Meets k⌝⦄ closeCaption ⦃⇓ _ s => ⌜s.Meets k⌝⦄ := by
  mvcgen [closeCaption]

@[spec]
theorem inCaption_spec (token : Token) (h : k.Allows token) :
    ⦃fun s => ⌜s.Meets k⌝⦄ inCaption token ⦃⇓ o s => ⌜s.Meets (k.spend (o.uses token))⌝⦄ := by
  mvcgen [inCaption] with grind

@[spec]
theorem inColumnGroup_spec (token : Token) (h : k.Allows token) :
    ⦃fun s => ⌜s.Meets k⌝⦄ inColumnGroup token ⦃⇓ o s => ⌜s.Meets (k.spend (o.uses token))⌝⦄ := by
  mvcgen [inColumnGroup] with grind

@[spec]
theorem inTableBody_spec (token : Token) (h : k.Allows token) :
    ⦃fun s => ⌜s.Meets k⌝⦄ inTableBody token ⦃⇓ o s => ⌜s.Meets (k.spend (o.uses token))⌝⦄ := by
  mvcgen [inTableBody] with grind

@[spec]
theorem inRow_spec (token : Token) (h : k.Allows token) :
    ⦃fun s => ⌜s.Meets k⌝⦄ inRow token ⦃⇓ o s => ⌜s.Meets (k.spend (o.uses token))⌝⦄ := by
  mvcgen [inRow] with grind

@[spec]
theorem inCell_spec (token : Token) (h : k.Allows token) :
    ⦃fun s => ⌜s.Meets k⌝⦄ inCell token ⦃⇓ o s => ⌜s.Meets (k.spend (o.uses token))⌝⦄ := by
  mvcgen [inCell] with grind

/-! ### The remaining rules -/

@[spec]
theorem closeSelect_spec : ⦃fun s => ⌜s.Meets k⌝⦄ closeSelect ⦃⇓ _ s => ⌜s.Meets k⌝⦄ := by
  mvcgen [closeSelect]

@[spec]
theorem closeOptions_spec : ⦃fun s => ⌜s.Meets k⌝⦄ closeOptions ⦃⇓ _ s => ⌜s.Meets k⌝⦄ := by
  mvcgen [closeOptions]

@[spec]
theorem inSelect_spec (token : Token) (h : k.Allows token) :
    ⦃fun s => ⌜s.Meets k⌝⦄ inSelect token ⦃⇓ o s => ⌜s.Meets (k.spend (o.uses token))⌝⦄ := by
  mvcgen [inSelect] with grind

@[spec]
theorem inSelectInTable_spec (token : Token) (h : k.Allows token) :
    ⦃fun s => ⌜s.Meets k⌝⦄ inSelectInTable token ⦃⇓ o s => ⌜s.Meets (k.spend (o.uses token))⌝⦄ := by
  mvcgen [inSelectInTable] with grind

@[spec]
theorem inTemplate_spec (token : Token) (h : k.Allows token) :
    ⦃fun s => ⌜s.Meets k⌝⦄ inTemplate token ⦃⇓ o s => ⌜s.Meets (k.spend (o.uses token))⌝⦄ := by
  mvcgen [inTemplate] with grind

theorem putCommentUnder_inner (parent : NodeId) :
    ⦃fun s => ⌜s.Meets k ∧ s.doc.Inner parent⌝⦄ putCommentUnder parent ⦃⇓ _ s => ⌜s.Meets k⌝⦄ := by
  intro s h
  have hknown : s.Meets (k.learn [parent]) := h.1.learn fun id hid => List.mem_singleton.1 hid ▸ h.2
  have hrun := putCommentUnder_spec parent (.inr List.mem_cons_self) s hknown
  exact State.Meets.forget hrun

@[spec]
theorem putCommentUnderRoot_spec : ⦃fun s => ⌜s.Meets k⌝⦄ putCommentUnderRoot ⦃⇓ _ s => ⌜s.Meets k⌝⦄ := by
  mvcgen [putCommentUnderRoot, -putCommentUnder_spec, putCommentUnder_inner]
  next hs e hlast => exact ⟨hs, hs.stack e (List.mem_of_getLast? hlast)⟩

@[spec]
theorem afterBody_spec (token : Token) (h : k.Allows token) :
    ⦃fun s => ⌜s.Meets k⌝⦄ afterBody token ⦃⇓ o s => ⌜s.Meets (k.spend (o.uses token))⌝⦄ := by
  mvcgen [afterBody] with grind

@[spec]
theorem inFrameset_spec (token : Token) (h : k.Allows token) :
    ⦃fun s => ⌜s.Meets k⌝⦄ inFrameset token ⦃⇓ o s => ⌜s.Meets (k.spend (o.uses token))⌝⦄ := by
  mvcgen [inFrameset] with grind

@[spec]
theorem afterFrameset_spec (token : Token) (h : k.Allows token) :
    ⦃fun s => ⌜s.Meets k⌝⦄ afterFrameset token ⦃⇓ o s => ⌜s.Meets (k.spend (o.uses token))⌝⦄ := by
  mvcgen [afterFrameset] with grind

@[spec]
theorem afterAfterBody_spec (token : Token) (h : k.Allows token) :
    ⦃fun s => ⌜s.Meets k⌝⦄ afterAfterBody token ⦃⇓ o s => ⌜s.Meets (k.spend (o.uses token))⌝⦄ := by
  mvcgen [afterAfterBody] with grind

@[spec]
theorem afterAfterFrameset_spec (token : Token) (h : k.Allows token) :
    ⦃fun s => ⌜s.Meets k⌝⦄ afterAfterFrameset token ⦃⇓ o s => ⌜s.Meets (k.spend (o.uses token))⌝⦄ := by
  mvcgen [afterAfterFrameset] with grind

@[spec]
theorem inText_spec (token : Token) :
    ⦃fun s => ⌜s.Meets k⌝⦄ inText token ⦃⇓ o s => ⌜s.Meets (k.spend (o.uses token))⌝⦄ := by
  mvcgen [inText] with grind

@[spec]
theorem leaveText_spec (token : Token) : ⦃fun s => ⌜s.Meets k⌝⦄ leaveText token ⦃⇓ _ s => ⌜s.Meets k⌝⦄ := by
  mvcgen [leaveText]

/-- The rules of every mode keep what is known, the text of the token apart. -/
@[spec]
theorem rules_spec (mode : Mode) (token : Token) (h : k.Allows token) :
    ⦃fun s => ⌜s.Meets k⌝⦄ rules mode token ⦃⇓ o s => ⌜s.Meets (k.spend (o.uses token))⌝⦄ := by
  cases mode with
  | initial => exact initial_spec token
  | text => exact inText_spec token
  | inTableText => exact inTableText_spec token
  | beforeHtml => exact beforeHtml_spec token h
  | beforeHead => exact beforeHead_spec token h
  | inHead => exact inHead_spec token h
  | afterHead => exact afterHead_spec token h
  | inBody => exact inBody_spec token h
  | inTable => exact inTable_spec token h
  | inCaption => exact inCaption_spec token h
  | inColumnGroup => exact inColumnGroup_spec token h
  | inTableBody => exact inTableBody_spec token h
  | inRow => exact inRow_spec token h
  | inCell => exact inCell_spec token h
  | inSelect => exact inSelect_spec token h
  | inSelectInTable => exact inSelectInTable_spec token h
  | inTemplate => exact inTemplate_spec token h
  | afterBody => exact afterBody_spec token h
  | inFrameset => exact inFrameset_spec token h
  | afterFrameset => exact afterFrameset_spec token h
  | afterAfterBody => exact afterAfterBody_spec token h
  | afterAfterFrameset => exact afterAfterFrameset_spec token h

theorem applyRules_spec (token : Token) (h : k.Allows token) :
    ⦃fun s => ⌜s.Meets k⌝⦄ applyRules token ⦃⇓ o s => ⌜s.Meets (k.spend (o.uses token))⌝⦄ := by
  mvcgen [applyRules, foreign_spec] with grind

end Cull.Markup.Build
