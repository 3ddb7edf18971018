import Mathlib
import Cull.Proofs.ConstructionState
import Cull.Proofs.TokenSizes

/-!
# The steps of construction

What the steps of construction do to a state that meets what is known: those that look at it, close
elements or change the mode keep that, text is counted, and a new node is known afterwards. Where a
step uses a node, there are up to three statements about it: one for a node that is there in the state
before (`_inner`), one for a node that is among the known ones (`_known`), and one for the node that
the step before has made (`_spec`).

The only step that takes the document apart is the end of a formatting element around a block. It
uses elements that have been open before it has made copies of others, so that these elements have
to be known all the way through.
-/

set_option mvcgen.warning false

open Std.Do

namespace Cull.Markup

variable {k : Known} {s : State} {doc : Document} {id : NodeId}

/-- The number of characters of a token of which a rule has disposed with the outcome. -/
def Outcome.uses (token : Token) : Outcome → Nat
  | .done => token.size
  | _ => 0

@[simp, grind =]
theorem Outcome.uses_startTag (tag : Tag) (o : Outcome) : o.uses (.startTag tag) = 0 := by
  cases o <;> rfl

@[simp, grind =]
theorem Outcome.uses_endTag (name : String) (o : Outcome) : o.uses (.endTag name) = 0 := by
  cases o <;> rfl

theorem Outcome.uses_text_le (t : Text) (o : Outcome) : o.uses (.text t) ≤ t.length := by
  cases o with
  | done => exact Nat.le_refl _
  | _ => exact Nat.zero_le _

namespace Build

/-! ### Looking at the state -/

@[spec]
theorem currentIsOneOf_spec (tags : List String) :
    ⦃fun s => ⌜s.Meets k⌝⦄ currentIsOneOf tags ⦃⇓ _ s => ⌜s.Meets k⌝⦄ := by
  mvcgen [currentIsOneOf]

@[spec]
theorem currentIs_spec (cond : ElementName → Bool) :
    ⦃fun s => ⌜s.Meets k⌝⦄ currentIs cond ⦃⇓ _ s => ⌜s.Meets k⌝⦄ := by
  mvcgen [currentIs]

@[spec]
theorem hasInScope_spec (stop : ElementName → Bool) (tags : List String) :
    ⦃fun s => ⌜s.Meets k⌝⦄ hasInScope stop tags ⦃⇓ _ s => ⌜s.Meets k⌝⦄ := by
  mvcgen [hasInScope]

@[spec]
theorem isOpen_spec (tag : String) : ⦃fun s => ⌜s.Meets k⌝⦄ isOpen tag ⦃⇓ _ s => ⌜s.Meets k⌝⦄ := by
  mvcgen [isOpen]

@[spec]
theorem fitting_spec : ⦃fun s => ⌜s.Meets k⌝⦄ fitting ⦃⇓ _ s => ⌜s.Meets k⌝⦄ := by
  mvcgen [fitting]

/-! ### Modes and open elements -/

@[spec]
theorem setMode_spec (m : Mode) : ⦃fun s => ⌜s.Meets k⌝⦄ setMode m ⦃⇓ _ s => ⌜s.Meets k⌝⦄ := by
  mvcgen [setMode]

@[spec]
theorem forbidFrameset_spec : ⦃fun s => ⌜s.Meets k⌝⦄ forbidFrameset ⦃⇓ _ s => ⌜s.Meets k⌝⦄ := by
  mvcgen [forbidFrameset]

@[spec]
theorem resetMode_spec : ⦃fun s => ⌜s.Meets k⌝⦄ resetMode ⦃⇓ _ s => ⌜s.Meets k⌝⦄ := by
  mvcgen [resetMode]

theorem push_inner (e : Opened) :
    ⦃fun s => ⌜s.Meets k ∧ s.doc.Inner e.id⌝⦄ push e ⦃⇓ _ s => ⌜s.Meets k⌝⦄ := by
  mvcgen [push]
  next h _ => exact h.1.setStack (List.forall_mem_cons.2 ⟨h.2, h.1.stack⟩)

@[spec]
theorem push_spec (e : Opened) :
    ⦃fun s => ⌜s.Meets (k.learn [e.id])⌝⦄ push e ⦃⇓ _ s => ⌜s.Meets (k.learn [e.id])⌝⦄ := by
  mvcgen [push_inner]
  next h => exact ⟨h, h.nodes _ List.mem_cons_self⟩

@[spec]
theorem pop_spec : ⦃fun s => ⌜s.Meets k⌝⦄ pop ⦃⇓ _ s => ⌜s.Meets k⌝⦄ := by
  mvcgen [pop]
  next h _ => exact h.sublist (List.tail_sublist _)

@[spec]
theorem close_spec (id : NodeId) : ⦃fun s => ⌜s.Meets k⌝⦄ close id ⦃⇓ _ s => ⌜s.Meets k⌝⦄ := by
  mvcgen [close]
  next h _ => exact h.sublist List.eraseP_sublist

@[spec]
theorem popWhile_spec (cond : ElementName → Bool) :
    ⦃fun s => ⌜s.Meets k⌝⦄ popWhile cond ⦃⇓ _ s => ⌜s.Meets k⌝⦄ := by
  mvcgen [popWhile]
  next h _ => exact h.sublist (List.dropWhile_sublist _)

@[spec]
theorem popThrough_spec (cond : ElementName → Bool) :
    ⦃fun s => ⌜s.Meets k⌝⦄ popThrough cond ⦃⇓ _ s => ⌜s.Meets k⌝⦄ := by
  mvcgen [popThrough]
  next h _ => exact h.sublist ((List.tail_sublist _).trans (List.dropWhile_sublist _))

@[spec]
theorem popThroughTag_spec (tag : String) : ⦃fun s => ⌜s.Meets k⌝⦄ popThroughTag tag ⦃⇓ _ s => ⌜s.Meets k⌝⦄ := by
  mvcgen [popThroughTag]

@[spec]
theorem implyEndsExcept_spec (tag : String) :
    ⦃fun s => ⌜s.Meets k⌝⦄ implyEndsExcept tag ⦃⇓ _ s => ⌜s.Meets k⌝⦄ := by
  mvcgen [implyEndsExcept]

@[spec]
theorem implyEnds_spec : ⦃fun s => ⌜s.Meets k⌝⦄ implyEnds ⦃⇓ _ s => ⌜s.Meets k⌝⦄ := by
  mvcgen [implyEnds]

@[spec]
theorem closeParagraph_spec : ⦃fun s => ⌜s.Meets k⌝⦄ closeParagraph ⦃⇓ _ s => ⌜s.Meets k⌝⦄ := by
  mvcgen [closeParagraph]

@[spec]
theorem closeParagraphIfOpen_spec : ⦃fun s => ⌜s.Meets k⌝⦄ closeParagraphIfOpen ⦃⇓ _ s => ⌜s.Meets k⌝⦄ := by
  mvcgen [closeParagraphIfOpen]

/-! ### Placing nodes -/

/-- Something can be put at the place. -/
def Place.Fits (d : Document) : Place → Prop
  | .last parent => d.Has parent
  | .beforeTable _ around => d.Has around

theorem fits_fosterPlace {stack : List Opened} (hroot : doc.Has Document.root) (h : ∀ e ∈ stack, doc.Inner e.id) :
    (fosterPlace stack).Fits doc := by
  fun_induction fosterPlace stack with
  | case1 => exact hroot
  | case2 e => exact (h e (by simp)).1
  | case3 e around rest _ => exact (h e (by simp)).1
  | case4 e around rest _ _ => exact (h around (by simp)).1
  | case5 e around rest _ _ ih => exact ih fun e he => h e (List.mem_cons_of_mem _ he)

theorem fits_placeUnder (h : s.Meets k) {target : Opened} (ht : s.doc.Inner target.id) :
    (placeUnder s target).Fits s.doc := by
  unfold placeUnder
  split
  · exact fits_fosterPlace h.root h.stack
  · exact ht.1

theorem meets_insert (h : s.Meets k) {place : Place} {child : Child} (hplace : place.Fits s.doc)
    (hchild : child.Fits s.doc) : State.Meets { s with doc := place.insert s.doc child } (k.spend child.size) := by
  cases place with
  | last parent => exact h.inserted (Document.inserted_append _ _ _) hplace hchild
  | beforeTable table around =>
    refine h.inserted (Document.inserted_appendBasedOnParent _ _ _ _) ?_ hchild
    cases hparent : (s.doc.node table).parent with
    | none => exact hplace
    | some p => exact h.linked.has_parent hparent

theorem putAt_inner (place : Place) (id : NodeId) :
    ⦃fun s => ⌜s.Meets k ∧ place.Fits s.doc ∧ s.doc.Inner id⌝⦄ putAt place (.node id) ⦃⇓ _ s => ⌜s.Meets k⌝⦄ := by
  mvcgen [putAt]
  next h _ => exact meets_insert h.1 h.2.1 h.2.2

theorem putAt_text (place : Place) (t : Text) :
    ⦃fun s => ⌜s.Meets k ∧ place.Fits s.doc⌝⦄ putAt place (.text t) ⦃⇓ _ s => ⌜s.Meets (k.spend t.length)⌝⦄ := by
  mvcgen [putAt]
  next h _ => exact meets_insert h.1 h.2 trivial

theorem putAt_known (parent id : NodeId) (hparent : parent = Document.root ∨ parent ∈ k.nodes) (hid : id ∈ k.nodes) :
    ⦃fun s => ⌜s.Meets k⌝⦄ putAt (.last parent) (.node id) ⦃⇓ _ s => ⌜s.Meets k⌝⦄ := by
  mvcgen [putAt_inner]
  next h =>
    refine ⟨h, ?_, h.nodes id hid⟩
    rcases hparent with rfl | hparent
    · exact h.root
    · exact (h.nodes _ hparent).1

@[spec]
theorem putAt_spec (parent id : NodeId) (hparent : parent = Document.root ∨ parent ∈ k.nodes) :
    ⦃fun s => ⌜s.Meets (k.learn [id])⌝⦄ putAt (.last parent) (.node id) ⦃⇓ _ s => ⌜s.Meets (k.learn [id])⌝⦄ :=
  putAt_known parent id (hparent.imp_right (List.mem_cons_of_mem id)) List.mem_cons_self

theorem putUnder_inner (targets : List Opened) (id : NodeId) :
    ⦃fun s => ⌜s.Meets k ∧ (∀ e ∈ targets, s.doc.Inner e.id) ∧ s.doc.Inner id⌝⦄
    putUnder targets (.node id)
    ⦃⇓ _ s => ⌜s.Meets k⌝⦄ := by
  mvcgen [putUnder, putAt_inner]
  · next h => exact ⟨h.1, fits_placeUnder h.1 (h.2.1 _ List.mem_cons_self), h.2.2⟩
  · next h => exact h.1

theorem putUnder_known (targets : List Opened) (id : NodeId) (htargets : ∀ e ∈ targets, e.id ∈ k.nodes)
    (hid : id ∈ k.nodes) : ⦃fun s => ⌜s.Meets k⌝⦄ putUnder targets (.node id) ⦃⇓ _ s => ⌜s.Meets k⌝⦄ := by
  mvcgen [putUnder_inner]
  next h => exact ⟨h, fun e he => h.nodes _ (htargets e he), h.nodes id hid⟩

@[spec]
theorem put_node_spec (id : NodeId) :
    ⦃fun s => ⌜s.Meets (k.learn [id])⌝⦄ put (.node id) ⦃⇓ _ s => ⌜s.Meets (k.learn [id])⌝⦄ := by
  mvcgen [put, putUnder_inner]
  next h => exact ⟨h, h.stack, h.nodes id List.mem_cons_self⟩

@[spec]
theorem put_text_spec (t : Text) :
    ⦃fun s => ⌜s.Meets k⌝⦄ put (.text t) ⦃⇓ _ s => ⌜s.Meets (k.spend t.length)⌝⦄ := by
  mvcgen [put, putUnder, putAt_text]
  · next h e _ hstack => exact ⟨h, fits_placeUnder h (h.stack e (by simp [hstack]))⟩
  · next h _ => exact h.spend _

theorem create_spec (kind : NodeKind) (htext : Tree.ownText kind = [])
    (hkind : ∀ e, kind = .element e → k.Permits e.attributes) :
    ⦃fun s => ⌜s.Meets k⌝⦄ create kind ⦃⇓ id s => ⌜s.Meets (k.learn [id])⌝⦄ := by
  mvcgen [create]
  next h _ => exact h.create htext hkind

@[spec]
theorem create_comment_spec : ⦃fun s => ⌜s.Meets k⌝⦄ create .comment ⦃⇓ id s => ⌜s.Meets (k.learn [id])⌝⦄ :=
  create_spec .comment rfl nofun

@[spec]
theorem create_element_spec (e : Element) (he : k.Permits e.attributes) :
    ⦃fun s => ⌜s.Meets k⌝⦄ create (.element e) ⦃⇓ id s => ⌜s.Meets (k.learn [id])⌝⦄ :=
  create_spec (.element e) rfl fun _ h => NodeKind.element.inj h ▸ he

@[spec]
theorem putText_spec (t : Text) :
    ⦃fun s => ⌜s.Meets k⌝⦄ putText t ⦃⇓ o s => ⌜s.Meets (k.spend (o.uses (.text t)))⌝⦄ := by
  mvcgen [putText]

@[spec]
theorem putComment_spec : ⦃fun s => ⌜s.Meets k⌝⦄ putComment ⦃⇓ _ s => ⌜s.Meets k⌝⦄ := by
  mvcgen [putComment] with grind

@[spec]
theorem putCommentUnder_spec (parent : NodeId) (h : parent = Document.root ∨ parent ∈ k.nodes) :
    ⦃fun s => ⌜s.Meets k⌝⦄ putCommentUnder parent ⦃⇓ _ s => ⌜s.Meets k⌝⦄ := by
  mvcgen [putCommentUnder] with grind

@[spec]
theorem insert_spec (name : ElementName) (attributes : List Attribute) (h : k.Permits attributes) :
    ⦃fun s => ⌜s.Meets k⌝⦄ insert name attributes ⦃⇓ e s => ⌜s.Meets (k.learn [e.id])⌝⦄ := by
  mvcgen [insert]

theorem openTag_learn (tag : Tag) (h : k.Permits tag.attributes) :
    ⦃fun s => ⌜s.Meets k⌝⦄ openTag tag ⦃⇓ e s => ⌜s.Meets (k.learn [e.id])⌝⦄ := by
  mvcgen [openTag]

@[spec]
theorem openTag_spec (tag : Tag) (h : k.Permits tag.attributes) :
    ⦃fun s => ⌜s.Meets k⌝⦄ openTag tag ⦃⇓ _ s => ⌜s.Meets k⌝⦄ := by
  mvcgen [openTag_learn] with grind

@[spec]
theorem voidTag_spec (tag : Tag) (h : k.Permits tag.attributes) :
    ⦃fun s => ⌜s.Meets k⌝⦄ voidTag tag ⦃⇓ _ s => ⌜s.Meets k⌝⦄ := by
  mvcgen [voidTag] with grind

@[spec]
theorem openImplied_spec (tag : String) :
    ⦃fun s => ⌜s.Meets k⌝⦄ openImplied tag ⦃⇓ _ s => ⌜s.Meets k⌝⦄ :=
  openTag_spec _ k.permits_nil

@[spec]
theorem openRaw_spec (tag : Tag) (content : Lexer.Content) (h : k.Permits tag.attributes) :
    ⦃fun s => ⌜s.Meets k⌝⦄ openRaw tag content ⦃⇓ _ s => ⌜s.Meets k⌝⦄ := by
  mvcgen [openRaw]

/-! ### Formatting elements -/

/-- Where an entry takes the place of another, the entries are those from before and the new one. -/
theorem mem_of_mem_replace {f entry : Format} {entries : List Format} (h : f ∈ Format.replace id entry entries) :
    f = entry ∨ f ∈ entries := by
  obtain ⟨g, hg, rfl⟩ := List.mem_map.1 h
  split
  · exact .inl rfl
  · exact .inr hg

theorem mem_of_mem_insertAfter {f entry : Format} {entries : List Format}
    (h : f ∈ Format.insertAfter id entry entries) : f = entry ∨ f ∈ entries := by
  fun_induction Format.insertAfter id entry entries with
  | case1 => exact .inr h
  | case2 g rest _ => simpa using h
  | case3 g rest _ ih =>
    rcases List.mem_cons.1 h with rfl | h
    · exact .inr List.mem_cons_self
    · exact (ih h).imp_right (List.mem_cons_of_mem _)

theorem mem_of_mem_move {mark : Bookmark} {f entry : Format} {entries : List Format}
    (h : f ∈ mark.move id entry entries) : f = entry ∨ f ∈ entries := by
  cases mark with
  | itself => exact mem_of_mem_replace h
  | after other => exact mem_of_mem_insertAfter (List.mem_of_mem_eraseP h)

theorem dropToMarker_sublist (entries : List Format) : (Format.dropToMarker entries).Sublist entries := by
  fun_induction Format.dropToMarker entries with
  | case1 => exact .slnil
  | case2 rest => exact List.sublist_cons_self _ rest
  | case3 e tag rest ih => exact ih.cons _

theorem makeRoom_sublist (tag : Tag) (entries : List Format) : (Format.makeRoom tag entries).Sublist entries := by
  unfold Format.makeRoom
  grind [Format.remove, List.eraseP_sublist]

theorem mem_of_mem_visible {entries : List Format} {e : Opened} {tag : Tag} (h : (e, tag) ∈ Format.visible entries) :
    .element e tag ∈ entries := by
  fun_induction Format.visible entries with
  | case1 o t rest ih => grind
  | case2 => simp at h

theorem mem_of_find? {entries : List Format} {name : String} {e : Opened} {tag : Tag}
    (h : Format.find? entries name = some (e, tag)) : .element e tag ∈ entries :=
  mem_of_mem_visible (List.mem_of_find?_eq_some h)

theorem mem_of_mem_closedEntries {stack : List Opened} {entries : List Format} {e : Opened} {tag : Tag}
    (h : (e, tag) ∈ closedEntries stack entries) : .element e tag ∈ entries := by
  fun_induction closedEntries stack entries with
  | case1 o t rest _ => simp at h
  | case2 o t rest _ ih => grind
  | case3 => simp at h

/-- Entries can be dropped. -/
theorem modifyFormatting_sublist (f : List Format → List Format) (hf : ∀ entries, (f entries).Sublist entries) :
    ⦃fun s => ⌜s.Meets k⌝⦄ modifyFormatting f ⦃⇓ _ s => ⌜s.Meets k⌝⦄ := by
  mvcgen [modifyFormatting]
  next h _ => exact h.setFormatting fun e tag hmem => h.formatting e tag ((hf _).subset hmem)

/-- The entry of a node that is there can be added. -/
theorem modifyFormatting_add (f : List Format → List Format) {e : Opened} {tag : Tag}
    (he : e.id ∈ k.nodes) (htag : k.Permits tag.attributes)
    (hf : ∀ entries, ∀ g ∈ f entries, g = .element e tag ∨ g ∈ entries) :
    ⦃fun s => ⌜s.Meets k⌝⦄ modifyFormatting f ⦃⇓ _ s => ⌜s.Meets k⌝⦄ := by
  mvcgen [modifyFormatting]
  next h _ =>
    refine h.setFormatting fun o t hmem => ?_
    rcases hf _ _ hmem with heq | hmem
    · cases heq
      exact ⟨h.nodes _ he, htag⟩
    · exact h.formatting o t hmem

@[spec]
theorem pushMarker_spec : ⦃fun s => ⌜s.Meets k⌝⦄ pushMarker ⦃⇓ _ s => ⌜s.Meets k⌝⦄ := by
  mvcgen [pushMarker, modifyFormatting]
  next h _ => exact h.setFormatting fun e tag hmem => h.formatting e tag (by simpa using hmem)

@[spec]
theorem clearToMarker_spec : ⦃fun s => ⌜s.Meets k⌝⦄ clearToMarker ⦃⇓ _ s => ⌜s.Meets k⌝⦄ :=
  modifyFormatting_sublist _ dropToMarker_sublist

@[spec]
theorem makeRoom_spec (tag : Tag) :
    ⦃fun s => ⌜s.Meets k⌝⦄ modifyFormatting (Format.makeRoom tag) ⦃⇓ _ s => ⌜s.Meets k⌝⦄ :=
  modifyFormatting_sublist _ (makeRoom_sublist tag)

@[spec]
theorem removeEntry_spec (id : NodeId) :
    ⦃fun s => ⌜s.Meets k⌝⦄ modifyFormatting (Format.remove id) ⦃⇓ _ s => ⌜s.Meets k⌝⦄ :=
  modifyFormatting_sublist _ fun _ => List.eraseP_sublist

@[spec]
theorem pushEntry_spec (e : Opened) (tag : Tag) (htag : k.Permits tag.attributes) :
    ⦃fun s => ⌜s.Meets (k.learn [e.id])⌝⦄
    modifyFormatting (.element e tag :: ·)
    ⦃⇓ _ s => ⌜s.Meets (k.learn [e.id])⌝⦄ :=
  modifyFormatting_add _ List.mem_cons_self htag fun _ _ => List.mem_cons.1

@[spec]
theorem replaceEntry_spec (id : NodeId) (e : Opened) (tag : Tag) (htag : k.Permits tag.attributes) :
    ⦃fun s => ⌜s.Meets (k.learn [e.id])⌝⦄
    modifyFormatting (Format.replace id (.element e tag))
    ⦃⇓ _ s => ⌜s.Meets (k.learn [e.id])⌝⦄ :=
  modifyFormatting_add _ List.mem_cons_self htag fun _ _ => mem_of_mem_replace

@[spec]
theorem openFormatting_spec (tag : Tag) (h : k.Permits tag.attributes) :
    ⦃fun s => ⌜s.Meets k⌝⦄ openFormatting tag ⦃⇓ _ s => ⌜s.Meets k⌝⦄ := by
  mvcgen [openFormatting, -openTag_spec, openTag_learn] with grind

theorem permits_of_closedEntries (h : s.Meets k) {entry : Opened × Tag} {before after : List (Opened × Tag)}
    (hsplit : closedEntries s.stack s.formatting = before ++ entry :: after) : k.Permits entry.2.attributes :=
  (h.formatting entry.1 entry.2 (mem_of_mem_closedEntries (hsplit ▸ List.mem_append_right _ List.mem_cons_self))).2

@[spec]
theorem reconstruct_spec : ⦃fun s => ⌜s.Meets k⌝⦄ reconstruct ⦃⇓ _ s => ⌜s.Meets k⌝⦄ := by
  mvcgen [reconstruct, -openTag_spec, openTag_learn] invariants
  · ⇓ _ s => ⌜s.Meets k⌝
  with grind [permits_of_closedEntries]

@[spec]
theorem closeOrdinary_spec (tag : String) :
    ⦃fun s => ⌜s.Meets k⌝⦄ closeOrdinary tag ⦃⇓ _ s => ⌜s.Meets k⌝⦄ := by
  mvcgen [closeOrdinary]

/-- A step that changes the state keeps what is known if the change does. -/
theorem modify_spec {k' : Known} {f : State → State} (hf : ∀ s, s.Meets k → (f s).Meets k') :
    ⦃fun s => ⌜s.Meets k⌝⦄ (modify f : Build Unit) ⦃⇓ _ s => ⌜s.Meets k'⌝⦄ := hf

theorem putAt_parent (parent id : NodeId) (hid : id ∈ k.nodes) :
    ⦃fun s => ⌜s.Meets (k.learn [parent])⌝⦄
    putAt (.last parent) (.node id)
    ⦃⇓ _ s => ⌜s.Meets (k.learn [parent])⌝⦄ :=
  putAt_known parent id (.inr List.mem_cons_self) (List.mem_cons_of_mem parent hid)

theorem permits_of_findSome {id : NodeId} {tag : Tag} (h : s.Meets k)
    (hfind : (s.formatting.findSome? fun
      | .element o tag => if o.id = id then some tag else none
      | .marker => none) = some tag) : k.Permits tag.attributes := by
  obtain ⟨entry, hmem, hentry⟩ := List.exists_of_findSome?_eq_some hfind
  cases entry with
  | marker => cases hentry
  | element o t =>
    simp only [Option.ite_none_right_eq_some, Option.some.injEq] at hentry
    exact hentry.2 ▸ (h.formatting o t hmem).2

/-- The copies and the outermost node are there afterwards. -/
theorem copyBetween_spec (between : List Opened) (count : Nat) (last : NodeId) (mark : Bookmark)
    (hlast : last ∈ k.nodes) :
    ⦃fun s => ⌜s.Meets k⌝⦄
    copyBetween count last mark between
    ⦃⇓ r s => ⌜s.Meets (k.learn (r.2.1 :: r.1.map (·.id)))⌝⦄ := by
  induction between generalizing count last mark k with
  | nil =>
    mvcgen [copyBetween]
    next h => exact h.learn_known (by simpa using hlast)
  | cons e rest ih =>
    -- whatever holds the rest, it is known: it is the last node as before, or the copy
    have hrest := fun count id mark => ih (k := k.learn [id]) count id mark List.mem_cons_self
    mvcgen [copyBetween, hrest, -putAt_spec, putAt_parent]
    -- an element that is only closed leaves the last node as it is
    case vc1 | vc5 => exact State.Meets.learn_known ‹_› (by simpa using hlast)
    case vc2 | vc6 => exact fun h => h.relearn (List.subset_append_left _ _)
    -- the tag of a copy comes from the list of formatting elements
    case vc8 h _ tag hfind _ | vc11 h _ tag hfind _ _ _ _ _ => exact permits_of_findSome h hfind
    case vc17 h => exact h.relearn (by grind)

/-- All elements that stay open have been known before, but for the copies. -/
theorem takeOver_spec (fmt : Opened) (fmtTag : Tag) (inner : List Opened) (block : Opened)
    (between outside : List Opened) (hfmt : fmt.id ∈ k.nodes) (htag : k.Permits fmtTag.attributes)
    (hinner : ∀ e ∈ inner, e.id ∈ k.nodes) (hblock : block.id ∈ k.nodes) (houtside : ∀ e ∈ outside, e.id ∈ k.nodes) :
    ⦃fun s => ⌜s.Meets k⌝⦄ takeOver fmt fmtTag inner block between outside ⦃⇓ _ s => ⌜s.Meets k⌝⦄ := by
  unfold takeOver
  refine Triple.bind _ _ (copyBetween_spec between 0 block.id .itself hblock) fun (copies, last, mark) => ?_
  refine Triple.bind _ _ (modify_spec fun s h => h.setStack fun e he => h.nodes _ ?_) fun _ => ?_
  · grind
  refine Triple.bind _ _ (modify_spec fun s h => h.detach last) fun _ => ?_
  refine Triple.bind _ _ (putUnder_known outside last ?_ List.mem_cons_self) fun _ => ?_
  · grind
  refine Triple.bind _ _ (create_element_spec _ htag) fun id => ?_
  refine Triple.bind _ _ (modify_spec fun s h => h.takeOver block.id id ?_ List.mem_cons_self) fun _ => ?_
  · grind
  refine Triple.bind _ _ (modifyFormatting_add _ ?_ htag fun _ _ => mem_of_mem_move) fun _ => ?_
  · grind
  refine modify_spec fun s h => (h.setStack fun e he => h.nodes _ ?_).forget.forget
  grind

theorem eq_append_of_span {p : Opened → Bool} {es before after : List Opened} (h : es.span p = (before, after)) :
    es = before ++ after := by
  rw [List.span_eq_takeWhile_dropWhile, Prod.mk.injEq] at h
  rw [← h.1, ← h.2, List.takeWhile_append_dropWhile]

/-- The parts into which the open elements are divided around a formatting element and a block inside
it are among them. -/
theorem subset_of_spans {p q : Opened → Bool} {es within outside between inner : List Opened} {fmt block : Opened}
    (h : es.span p = (within, fmt :: outside)) (hwithin : within.reverse.span q = (between, block :: inner)) :
    inner.reverse ⊆ es ∧ block ∈ es ∧ outside ⊆ es := by
  have hes := eq_append_of_span h
  have hrev := eq_append_of_span hwithin
  have hblock : block :: inner ⊆ within := fun e he => List.mem_reverse.1 (hrev ▸ List.mem_append_right _ he)
  grind

/-- One round, where all open elements and formatting elements are known. -/
theorem closeFormattingOnce_known (tag : String) :
    ⦃fun s => ⌜s.Meets k ∧ s.elements ⊆ k.nodes⌝⦄ closeFormattingOnce tag ⦃⇓ _ s => ⌜s.Meets k⌝⦄ := by
  mvcgen [closeFormattingOnce, takeOver_spec]
  case vc1 h _ => exact h.1
  case vc2 h _ _ _ _ _ => exact h.1
  case vc3 h _ _ _ _ _ _ _ _ => exact h.1
  case vc4 h _ _ _ _ _ _ hspan _ _ _ _ =>
    exact h.1.setStack fun e he => h.1.stack e (eq_append_of_span hspan ▸ by simp [he])
  case vc5 h _ _ hfind _ _ _ _ _ _ _ _ _ => exact h.2 (State.mem_elements_of_entry (mem_of_find? hfind))
  case vc6 h _ _ hfind _ _ _ _ _ _ _ _ _ => exact (h.1.formatting _ _ (mem_of_find? hfind)).2
  case vc7 h _ _ _ _ _ _ hspan _ _ _ _ hwithin =>
    exact fun e he => h.2 (State.mem_elements_of_open ((subset_of_spans hspan hwithin).1 he))
  case vc8 h _ _ _ _ _ _ hspan _ _ _ _ hwithin =>
    exact h.2 (State.mem_elements_of_open (subset_of_spans hspan hwithin).2.1)
  case vc9 h _ _ _ _ _ _ hspan _ _ _ _ hwithin =>
    exact fun e he => h.2 (State.mem_elements_of_open ((subset_of_spans hspan hwithin).2.2 he))
  case vc10 h _ _ _ _ _ _ _ _ _ _ _ _ => exact h.1

@[spec]
theorem closeFormattingOnce_spec (tag : String) :
    ⦃fun s => ⌜s.Meets k⌝⦄ closeFormattingOnce tag ⦃⇓ _ s => ⌜s.Meets k⌝⦄ := by
  -- which nodes are known besides depends on the state, so that it cannot be part of the condition
  intro s h
  have hrun := closeFormattingOnce_known tag s ⟨h.learn_elements, List.subset_append_left _ _⟩
  exact State.Meets.forget hrun

theorem closeFormattingRounds_spec (tag : String) (n : Nat) :
    ⦃fun s => ⌜s.Meets k⌝⦄ closeFormattingRounds tag n ⦃⇓ _ s => ⌜s.Meets k⌝⦄ := by
  induction n with
  | zero => mvcgen [closeFormattingRounds]
  | succ n ih => mvcgen [closeFormattingRounds, ih]

@[spec]
theorem closeFormatting_spec (tag : String) :
    ⦃fun s => ⌜s.Meets k⌝⦄ closeFormatting tag ⦃⇓ _ s => ⌜s.Meets k⌝⦄ := by
  mvcgen [closeFormatting, closeFormattingRounds_spec]

end Build

end Cull.Markup
