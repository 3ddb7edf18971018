import Cull.Markup.Construction.Formatting
import Cull.Proofs.DocumentText

/-!
# What construction keeps

While a page is put together, the links of its document agree, the open elements and the formatting
elements are nodes of it other than the root, and it has no more text than has been put in. All
this is said about a state by `State.Meets`, relative to what is known about the page so far
(`Known`), and each way of changing a state is shown to keep it, text apart, which is counted.

An element has attributes only if a tag had some. Construction copies elements, but it invents no
attributes.
-/

namespace Cull.Markup

/-- The node is there and not the root. -/
def Document.Inner (d : Document) (id : NodeId) : Prop := d.Has id ∧ id ≠ Document.root

/-- What is known about a state of construction. -/
structure Known where
  /-- Elements may have attributes. -/
  attributed : Prop
  /-- There are at most so many characters of text. -/
  chars : Nat
  /-- These nodes are there, and the root is not among them. -/
  nodes : List NodeId

namespace Known

variable {k : Known}

/-- More text may have come. -/
def spend (k : Known) (n : Nat) : Known := { k with chars := k.chars + n }

/-- More nodes are there. -/
def learn (k : Known) (ids : List NodeId) : Known := { k with nodes := ids ++ k.nodes }

/-- An element may have the attributes. -/
def Permits (k : Known) (attributes : List Attribute) : Prop := attributes ≠ [] → k.attributed

/-- The attributes of the token, if it has any, are permitted. -/
@[simp, grind]
def Allows (k : Known) : Token → Prop
  | .startTag tag => k.Permits tag.attributes
  | _ => True

@[simp, grind =]
theorem spend_zero (k : Known) : k.spend 0 = k := rfl

theorem spend_spend (k : Known) (m n : Nat) : (k.spend m).spend n = k.spend (m + n) := by
  simp only [spend, Nat.add_assoc]

@[simp, grind .]
theorem permits_nil (k : Known) : k.Permits [] := fun h => absurd rfl h

@[simp, grind =]
theorem permits_spend {n : Nat} {attributes : List Attribute} :
    (k.spend n).Permits attributes ↔ k.Permits attributes := Iff.rfl

@[simp, grind =]
theorem permits_learn {ids : List NodeId} {attributes : List Attribute} :
    (k.learn ids).Permits attributes ↔ k.Permits attributes := Iff.rfl

@[simp, grind =]
theorem nodes_learn {ids : List NodeId} : (k.learn ids).nodes = ids ++ k.nodes := rfl

end Known

/-- The number of characters of several texts. -/
def textsSize : List Text → Nat
  | [] => 0
  | t :: ts => t.length + textsSize ts

@[simp]
theorem textsSize_append (ts us : List Text) : textsSize (ts ++ us) = textsSize ts + textsSize us := by
  induction ts with
  | nil => simp [textsSize]
  | cons t ts ih => simp [textsSize, ih, Nat.add_assoc]

/-- What is known is so, for the parts of a state on which that depends. -/
structure Sound (k : Known) (doc : Document) (stack : List Opened) (formatting : List Format) (head : Option NodeId)
    (pending : List Text) : Prop where
  /-- The links agree. -/
  linked : doc.Linked
  /-- There is a root. -/
  root : doc.Has Document.root
  /-- The known nodes are there. -/
  nodes : ∀ id ∈ k.nodes, doc.Inner id
  /-- The open elements are there. -/
  stack : ∀ e ∈ stack, doc.Inner e.id
  /-- The formatting elements are there, and their tags are permitted. -/
  formatting : ∀ e tag, .element e tag ∈ formatting → doc.Inner e.id ∧ k.Permits tag.attributes
  /-- The head is there. -/
  head : ∀ id, head = some id → doc.Inner id
  /-- The attributes are permitted. -/
  attributes : doc.AllElements fun e => k.Permits e.attributes
  /-- There is no more text, placed or not, than is known. -/
  chars : doc.size + textsSize pending ≤ k.chars

/-- What is known about the state is so. -/
def State.Meets (s : State) (k : Known) : Prop := Sound k s.doc s.stack s.formatting s.head s.pending

/-- The node of a formatting element. -/
def Format.node? : Format → Option NodeId
  | .marker => none
  | .element e _ => some e.id

/-- The nodes of the open elements and of the formatting elements. -/
def State.elements (s : State) : List NodeId := s.stack.map (·.id) ++ s.formatting.filterMap Format.node?

theorem State.mem_elements_of_open {s : State} {e : Opened} (h : e ∈ s.stack) : e.id ∈ s.elements :=
  List.mem_append_left _ (List.mem_map_of_mem h)

theorem State.mem_elements_of_entry {s : State} {e : Opened} {tag : Tag} (h : .element e tag ∈ s.formatting) :
    e.id ∈ s.elements :=
  List.mem_append_right _ (List.mem_filterMap.2 ⟨_, h, rfl⟩)

/-- An insertion puts a node that may be put in, or text. -/
def Child.Fits (d : Document) : Child → Prop
  | .node id => d.Inner id
  | .text _ => True

variable {k : Known} {s : State} {doc : Document} {id p : NodeId}

namespace State.Meets

theorem mono {k' : Known} (h : s.Meets k) (hchars : k.chars ≤ k'.chars) (hnodes : k'.nodes ⊆ k.nodes)
    (hattributed : k.attributed → k'.attributed) : s.Meets k' where
  linked := h.linked
  root := h.root
  nodes id hid := h.nodes id (hnodes hid)
  stack := h.stack
  formatting e tag hmem := ⟨(h.formatting e tag hmem).1, fun hne => hattributed ((h.formatting e tag hmem).2 hne)⟩
  head := h.head
  attributes n e he hne := hattributed (h.attributes n e he hne)
  chars := Nat.le_trans h.chars hchars

@[grind →]
theorem forget {ids : List NodeId} (h : s.Meets (k.learn ids)) : s.Meets k :=
  h.mono (Nat.le_refl _) (List.subset_append_right ids k.nodes) fun ha => ha

theorem learn {ids : List NodeId} (h : s.Meets k) (hids : ∀ id ∈ ids, s.doc.Inner id) : s.Meets (k.learn ids) :=
  { h with nodes := List.forall_mem_append.2 ⟨hids, h.nodes⟩ }

theorem learn_known {ids : List NodeId} (h : s.Meets k) (hids : ids ⊆ k.nodes) : s.Meets (k.learn ids) :=
  h.learn fun id hid => h.nodes id (hids hid)

theorem learn_elements (h : s.Meets k) : s.Meets (k.learn s.elements) := by
  refine h.learn fun id hid => ?_
  rcases List.mem_append.1 hid with hid | hid
  · obtain ⟨e, he, rfl⟩ := List.mem_map.1 hid
    exact h.stack e he
  · obtain ⟨entry, hentry, heq⟩ := List.mem_filterMap.1 hid
    cases entry with
    | marker => cases heq
    | element e tag => exact Option.some.inj heq ▸ (h.formatting e tag hentry).1

theorem relearn {ids new more : List NodeId} (h : s.Meets ((k.learn ids).learn new)) (hmore : more ⊆ new ++ ids) :
    s.Meets (k.learn more) :=
  h.mono (Nat.le_refl _) (by grind) fun ha => ha

@[grind ←]
theorem spend (h : s.Meets k) (n : Nat) : s.Meets (k.spend n) :=
  h.mono (Nat.le_add_right _ n) (List.Subset.refl _) fun ha => ha

theorem spend_mono {m n : Nat} (h : s.Meets (k.spend m)) (hle : m ≤ n) : s.Meets (k.spend n) :=
  h.mono (Nat.add_le_add_left hle _) (List.Subset.refl _) fun ha => ha

theorem setStack (h : s.Meets k) {stack : List Opened} (hs : ∀ e ∈ stack, s.doc.Inner e.id) :
    State.Meets { s with stack := stack } k := { h with stack := hs }

theorem sublist (h : s.Meets k) {stack : List Opened} (hs : stack.Sublist s.stack) :
    State.Meets { s with stack := stack } k := h.setStack fun e he => h.stack e (hs.subset he)

@[grind →]
theorem inner_head (h : s.Meets k) (hid : s.head = some id) : s.doc.Inner id := h.head id hid

theorem setHead (h : s.Meets k) (hid : s.doc.Inner id) : State.Meets { s with head := some id } k :=
  { h with head := fun _ heq => Option.some.inj heq ▸ hid }

/-- The texts that have been collected are set aside. -/
theorem clearPending (h : s.Meets k) :
    State.Meets { s with pending := [] } { k with chars := k.chars - textsSize s.pending } :=
  { h with chars := Nat.le_sub_of_add_le h.chars }

/-- One more text is collected. -/
theorem addPending (h : s.Meets k) (t : Text) :
    State.Meets { s with pending := s.pending ++ [t] } (k.spend t.length) := by
  have hchars := h.chars
  refine { h with chars := ?_ }
  simp only [textsSize_append, textsSize, Known.spend]
  omega

theorem setFormatting (h : s.Meets k) {formatting : List Format}
    (hf : ∀ e tag, .element e tag ∈ formatting → s.doc.Inner e.id ∧ k.Permits tag.attributes) :
    State.Meets { s with formatting := formatting } k := { h with formatting := hf }

/-- A document in which all nodes stay does as well if nothing about it gets worse. -/
theorem setDoc (h : s.Meets k) (hhas : ∀ n, s.doc.Has n → doc.Has n) (hlinked : doc.Linked)
    (hkind : doc.AllElements fun e => k.Permits e.attributes) {n : Nat}
    (hsize : doc.size ≤ s.doc.size + n) : State.Meets { s with doc := doc } (k.spend n) where
  linked := hlinked
  root := hhas _ h.root
  nodes id hid := ⟨hhas _ (h.nodes id hid).1, (h.nodes id hid).2⟩
  stack e he := ⟨hhas _ (h.stack e he).1, (h.stack e he).2⟩
  formatting e tag hmem := by
    obtain ⟨hinner, hpermits⟩ := h.formatting e tag hmem
    exact ⟨⟨hhas _ hinner.1, hinner.2⟩, hpermits⟩
  head id hid := ⟨hhas _ (h.head id hid).1, (h.head id hid).2⟩
  attributes := hkind
  chars := by
    have hchars := h.chars
    simp only [Known.spend]
    omega

/-- The same, where there is as much text as before. -/
theorem rearrange (h : s.Meets k) (hhas : ∀ n, s.doc.Has n → doc.Has n) (hlinked : doc.Linked)
    (hkind : doc.AllElements fun e => k.Permits e.attributes) (hsize : doc.size = s.doc.size) :
    State.Meets { s with doc := doc } k :=
  h.setDoc (n := 0) hhas hlinked hkind (Nat.le_of_eq hsize)

theorem inserted (h : s.Meets k) {child : Child} (hinsert : s.doc.Inserted p child doc) (hp : s.doc.Has p)
    (hchild : child.Fits s.doc) : State.Meets { s with doc := doc } (k.spend child.size) := by
  refine h.setDoc (fun _ => hinsert.has) (hinsert.linked h.linked hp ?_) (h.attributes.inserted hinsert)
    (Nat.le_of_eq hinsert.size_eq)
  rintro id rfl
  exact hchild

/-- A new node that is no text changes nothing but that it is there. -/
theorem create (h : s.Meets k) {kind : NodeKind} (htext : Tree.ownText kind = [])
    (hkind : ∀ e, kind = .element e → k.Permits e.attributes) :
    State.Meets { s with doc := (s.doc.create kind).2 } (k.learn [(s.doc.create kind).1]) := by
  have hdoc : State.Meets { s with doc := (s.doc.create kind).2 } k :=
    h.rearrange (fun _ hn => Document.has_create.2 (.inl hn)) (h.linked.create kind) (h.attributes.create hkind)
      (by rw [Document.size_create, htext]; rfl)
  refine hdoc.learn fun id hid => ?_
  obtain rfl := List.mem_singleton.1 hid
  exact ⟨Document.has_create.2 (.inr rfl), Nat.ne_of_gt (Nat.zero_lt_of_lt h.root)⟩

theorem permits_addMissing {e : Element} {attributes : List Attribute} (he : k.Permits e.attributes)
    (h : k.Permits attributes) : k.Permits (e.addMissing attributes).attributes := by
  intro hne
  by_cases hnil : attributes = []
  · subst hnil
    exact he hne
  · exact h hnil

theorem addMissingAttributes (h : s.Meets k) (id : NodeId) {attributes : List Attribute}
    (hpermits : k.Permits attributes) :
    State.Meets { s with doc := s.doc.addMissingAttributes id attributes } k :=
  h.rearrange (fun _ hn => Document.has_addMissingAttributes.2 hn)
    (h.linked.congr (fun _ => Document.parent_addMissingAttributes) fun _ => Document.children_addMissingAttributes)
    (h.attributes.addMissingAttributes id fun _ he => permits_addMissing he hpermits)
    Document.size_addMissingAttributes

theorem detach (h : s.Meets k) (id : NodeId) : State.Meets { s with doc := s.doc.detach id } k :=
  h.rearrange (fun _ hn => Document.has_detach.2 hn) (h.linked.detach id) (h.attributes.detach id)
    Document.size_detach

theorem reparentChildren (h : s.Meets k) {source target : NodeId} (hsource : s.doc.Has source)
    (htarget : s.doc.Has target) : State.Meets { s with doc := s.doc.reparentChildren source target } k :=
  h.rearrange (fun _ hn => Document.has_reparentChildren.2 hn) (h.linked.reparentChildren hsource htarget)
    (h.attributes.reparentChildren source target) Document.size_reparentChildren

/-- A node takes the children of another one over and becomes its only child. -/
theorem takeOver (h : s.Meets k) (block id : NodeId) (hblock : block ∈ k.nodes) (hid : id ∈ k.nodes) :
    State.Meets { s with doc := (s.doc.reparentChildren block id).append block (.node id) } k := by
  have hmoved := h.reparentChildren (h.nodes _ hblock).1 (h.nodes _ hid).1
  exact hmoved.inserted (Document.inserted_append _ _ _) (hmoved.nodes _ hblock).1 (hmoved.nodes _ hid)

end State.Meets

end Cull.Markup
