import Cull.Markup.Document
import Mathlib.Logic.Relation
import Mathlib.Tactic.ByContra

/-!
# The links of a document

A document stores each link twice: a node knows its parent, and the parent lists its
children. `Linked` says that the two agree and that no list has a node twice. Every edit keeps
this, as long as it uses nodes that exist and does not put the root anywhere (`Linked.attach`,
`Linked.reparentChildren`); putting a node under one of its own descendants would not break it.

However something is put in, behind what is there or before a sibling, the links change in one of two
ways: a node gets a new parent, or a text is made longer (`Inserted`).
-/

namespace Cull.Markup

namespace Document

variable {d d' : Document} {id n p q s t : NodeId}

/-- The node exists. -/
def Has (d : Document) (id : NodeId) : Prop := id < d.nodes.size

instance : Decidable (d.Has id) := inferInstanceAs (Decidable (id < d.nodes.size))

/-! ### Nodes after a change -/

theorem node_of_not_has (h : ¬ d.Has n) : d.node n = default := by
  rw [node, Array.getElem?_eq_none (Nat.le_of_not_lt h)]
  rfl

theorem has_of_parent (h : (d.node n).parent = some p) : d.Has n := by
  by_contra hn
  rw [node_of_not_has hn] at h
  cases h

theorem has_of_mem_children (h : n ∈ (d.node p).children) : d.Has p := by
  by_contra hp
  rw [node_of_not_has hp] at h
  cases h

@[simp]
theorem has_modify {f : Node → Node} : (d.modify id f).Has n ↔ d.Has n := by
  simp [Has, modify]

theorem node_modify (d : Document) (id n : NodeId) (f : Node → Node) :
    (d.modify id f).node n = if n = id ∧ d.Has id then f (d.node n) else d.node n := by
  simp only [node, modify, Array.getElem?_modify]
  by_cases hn : n = id
  · subst hn
    by_cases hhas : d.Has n
    · rw [if_pos rfl, if_pos ⟨rfl, hhas⟩, Array.getElem?_eq_getElem hhas]
      rfl
    · rw [if_pos rfl, if_neg fun h => hhas h.2, Array.getElem?_eq_none (Nat.le_of_not_lt hhas)]
      rfl
  · rw [if_neg fun h => hn h.symm, if_neg fun h => hn h.1]

theorem node_create (d : Document) (kind : NodeKind) (n : NodeId) :
    (d.create kind).2.node n = if n = d.nodes.size then ⟨kind, none, []⟩ else d.node n := by
  simp only [node, create, Array.getElem?_push]
  split <;> rfl

theorem has_create {kind : NodeKind} : (d.create kind).2.Has n ↔ d.Has n ∨ n = (d.create kind).1 := by
  simp only [Has, create, Array.size_push]
  exact Nat.lt_succ_iff_lt_or_eq

@[simp]
theorem parent_create {kind : NodeKind} : ((d.create kind).2.node n).parent = (d.node n).parent := by
  rw [node_create]
  split
  · next hn => rw [hn, node_of_not_has (Nat.lt_irrefl _)]; rfl
  · rfl

@[simp]
theorem children_create {kind : NodeKind} : ((d.create kind).2.node n).children = (d.node n).children := by
  rw [node_create]
  split
  · next hn => rw [hn, node_of_not_has (Nat.lt_irrefl _)]; rfl
  · rfl

/-- Makes something else of a node. -/
def setKind (d : Document) (id : NodeId) (kind : NodeKind) : Document := d.modify id fun n => { n with kind := kind }

/-- Gives a node another parent. -/
def setParent (d : Document) (id : NodeId) (parent : Option NodeId) : Document :=
  d.modify id fun n => { n with parent := parent }

/-- Changes the list of the children of a node. -/
def mapChildren (d : Document) (id : NodeId) (f : List NodeId → List NodeId) : Document :=
  d.modify id fun n => { n with children := f n.children }

variable {f : List NodeId → List NodeId}

@[simp]
theorem has_setKind {kind : NodeKind} : (d.setKind id kind).Has n ↔ d.Has n := has_modify

@[simp]
theorem parent_setKind {kind : NodeKind} : ((d.setKind id kind).node n).parent = (d.node n).parent := by
  rw [setKind, node_modify]
  split <;> rfl

@[simp]
theorem children_setKind {kind : NodeKind} : ((d.setKind id kind).node n).children = (d.node n).children := by
  rw [setKind, node_modify]
  split <;> rfl

theorem kind_setKind {kind : NodeKind} (h : d.Has id) :
    ((d.setKind id kind).node n).kind = if n = id then kind else (d.node n).kind := by
  rw [setKind, node_modify]
  by_cases hn : n = id
  · rw [if_pos ⟨hn, h⟩, if_pos hn]
  · rw [if_neg fun h => hn h.1, if_neg hn]

@[simp]
theorem has_setParent {parent : Option NodeId} : (d.setParent id parent).Has n ↔ d.Has n := has_modify

@[simp]
theorem has_mapChildren : (d.mapChildren id f).Has n ↔ d.Has n := has_modify

theorem parent_setParent {parent : Option NodeId} (h : d.Has id) :
    ((d.setParent id parent).node n).parent = if n = id then parent else (d.node n).parent := by
  rw [setParent, node_modify]
  by_cases hn : n = id
  · rw [if_pos ⟨hn, h⟩, if_pos hn]
  · rw [if_neg fun h => hn h.1, if_neg hn]

theorem children_mapChildren (h : d.Has id) :
    ((d.mapChildren id f).node n).children = if n = id then f (d.node n).children else (d.node n).children := by
  rw [mapChildren, node_modify]
  by_cases hn : n = id
  · rw [if_pos ⟨hn, h⟩, if_pos hn]
  · rw [if_neg fun h => hn h.1, if_neg hn]

@[simp]
theorem children_setParent {parent : Option NodeId} :
    ((d.setParent id parent).node n).children = (d.node n).children := by
  rw [setParent, node_modify]
  split <;> rfl

@[simp]
theorem parent_mapChildren : ((d.mapChildren id f).node n).parent = (d.node n).parent := by
  rw [mapChildren, node_modify]
  split <;> rfl

@[simp]
theorem kind_setParent {parent : Option NodeId} : ((d.setParent id parent).node n).kind = (d.node n).kind := by
  rw [setParent, node_modify]
  split <;> rfl

@[simp]
theorem kind_mapChildren : ((d.mapChildren id f).node n).kind = (d.node n).kind := by
  rw [mapChildren, node_modify]
  split <;> rfl

@[simp]
theorem has_addMissingAttributes {attributes : List Attribute} :
    (d.addMissingAttributes id attributes).Has n ↔ d.Has n := has_modify

@[simp]
theorem parent_addMissingAttributes {attributes : List Attribute} :
    ((d.addMissingAttributes id attributes).node n).parent = (d.node n).parent := by
  rw [addMissingAttributes, node_modify]
  cases (d.node n).kind <;> split <;> rfl

@[simp]
theorem children_addMissingAttributes {attributes : List Attribute} :
    ((d.addMissingAttributes id attributes).node n).children = (d.node n).children := by
  rw [addMissingAttributes, node_modify]
  cases (d.node n).kind <;> split <;> rfl

theorem kind_addMissingAttributes {attributes : List Attribute} :
    ((d.addMissingAttributes id attributes).node n).kind =
      if n = id ∧ d.Has id then
        match (d.node n).kind with
        | .element e => .element (e.addMissing attributes)
        | kind => kind
      else (d.node n).kind := by
  rw [addMissingAttributes, node_modify]
  split
  · cases h : (d.node n).kind <;> simp [h]
  · rfl

/-! ### Links that agree -/

/-- Parents and children agree, no list of children has a node twice, and the root stands under nothing. -/
structure Linked (d : Document) : Prop where
  /-- No node is listed twice under a parent. -/
  nodup : ∀ p, (d.node p).children.Nodup
  /-- A node is listed exactly under its parent. -/
  link : ∀ n p, n ∈ (d.node p).children ↔ (d.node n).parent = some p
  /-- The root has no parent. -/
  root : (d.node root).parent = none

/-- Links do not depend on what the nodes are. -/
theorem Linked.congr (h : d.Linked) (hparent : ∀ n, (d'.node n).parent = (d.node n).parent)
    (hchildren : ∀ n, (d'.node n).children = (d.node n).children) : d'.Linked where
  nodup p := by rw [hchildren]; exact h.nodup p
  link n p := by rw [hchildren, hparent]; exact h.link n p
  root := by rw [hparent]; exact h.root

theorem Linked.has_parent (h : d.Linked) (hp : (d.node n).parent = some p) : d.Has p :=
  has_of_mem_children ((h.link n p).2 hp)

theorem node_empty (n : NodeId) : empty.node n = ⟨.root, none, []⟩ ∨ empty.node n = default := by
  by_cases hn : empty.Has n
  · obtain rfl : n = 0 := Nat.lt_one_iff.1 hn
    exact .inl rfl
  · exact .inr (node_of_not_has hn)

theorem kind_empty (n : NodeId) : (empty.node n).kind = .root ∨ (empty.node n).kind = .comment := by
  rcases node_empty n with h | h <;> rw [h]
  · exact .inl rfl
  · exact .inr rfl

theorem parent_empty (n : NodeId) : (empty.node n).parent = none := by
  rcases node_empty n with h | h <;> exact congrArg Node.parent h

theorem children_empty (n : NodeId) : (empty.node n).children = [] := by
  rcases node_empty n with h | h <;> exact congrArg Node.children h

theorem linked_empty : empty.Linked := by
  refine ⟨fun p => ?_, fun n p => ?_, parent_empty _⟩
  · rw [children_empty]
    exact List.nodup_nil
  · rw [children_empty, parent_empty]
    simp

theorem Linked.create (h : d.Linked) (kind : NodeKind) : (d.create kind).2.Linked :=
  h.congr (fun _ => parent_create) fun _ => children_create

/-! ### Taking out and putting in -/

theorem detach_of_none (h : (d.node id).parent = none) : d.detach id = d := by
  rw [detach, h]

theorem detach_of_some (h : (d.node id).parent = some p) :
    d.detach id = (d.setParent id none).mapChildren p (·.filter (· ≠ id)) := by
  rw [detach, h]
  rfl

theorem parent_detach (d : Document) (id n : NodeId) :
    ((d.detach id).node n).parent = if n = id then none else (d.node n).parent := by
  cases hparent : (d.node id).parent with
  | none =>
    rw [detach_of_none hparent]
    split
    · next hn => rw [hn, hparent]
    · rfl
  | some p => rw [detach_of_some hparent, parent_mapChildren, parent_setParent (has_of_parent hparent)]

theorem children_detach (h : d.Linked) (id n : NodeId) :
    ((d.detach id).node n).children = (d.node n).children.filter (· ≠ id) := by
  -- where the node is not listed, nothing is filtered out
  have hother : (d.node id).parent ≠ some n → (d.node n).children.filter (· ≠ id) = (d.node n).children := by
    intro hn
    refine List.filter_eq_self.2 fun m hm => decide_eq_true ?_
    rintro rfl
    exact hn ((h.link m n).1 hm)
  cases hparent : (d.node id).parent with
  | none => rw [detach_of_none hparent, hother (by simp [hparent])]
  | some p =>
    rw [detach_of_some hparent, children_mapChildren (has_setParent.2 (h.has_parent hparent)), children_setParent]
    by_cases hn : n = p
    · rw [if_pos hn]
    · have hne : (d.node id).parent ≠ some n := by
        rw [hparent]
        exact fun heq => hn (Option.some.inj heq).symm
      rw [if_neg hn, hother hne]

@[simp]
theorem has_detach : (d.detach id).Has n ↔ d.Has n := by
  cases hparent : (d.node id).parent with
  | none => rw [detach_of_none hparent]
  | some p => rw [detach_of_some hparent, has_mapChildren, has_setParent]

@[simp]
theorem kind_detach : ((d.detach id).node n).kind = (d.node n).kind := by
  cases hparent : (d.node id).parent with
  | none => rw [detach_of_none hparent]
  | some p => rw [detach_of_some hparent, kind_mapChildren, kind_setParent]

theorem Linked.detach (h : d.Linked) (id : NodeId) : (d.detach id).Linked where
  nodup p := by rw [children_detach h]; exact (h.nodup p).filter _
  link n p := by
    rw [children_detach h, parent_detach, List.mem_filter, decide_eq_true_eq, h.link]
    by_cases hn : n = id <;> simp [hn]
  root := by
    rw [parent_detach]
    split
    · rfl
    · exact h.root

/-- A node taken out and put under another, somewhere in the list of its children. -/
def attach (d : Document) (parent id : NodeId) (place : List NodeId → List NodeId) : Document :=
  ((d.detach id).setParent id (some parent)).mapChildren parent place

theorem insertBefore_perm (id s : NodeId) (l : List NodeId) : (insertBefore id s l).Perm (id :: l) := by
  induction l with
  | nil => exact .refl _
  | cons c l ih =>
    rw [insertBefore]
    split
    · exact .refl _
    · exact (ih.cons c).trans (.swap id c l)

variable {place : List NodeId → List NodeId}

@[simp]
theorem has_attach : (d.attach p id place).Has n ↔ d.Has n := by
  simp [attach]

@[simp]
theorem kind_attach : ((d.attach p id place).node n).kind = (d.node n).kind := by
  simp [attach]

theorem parent_attach (hid : d.Has id) :
    ((d.attach p id place).node n).parent = if n = id then some p else (d.node n).parent := by
  rw [attach, parent_mapChildren, parent_setParent (has_detach.2 hid), parent_detach]
  by_cases hn : n = id <;> simp [hn]

theorem children_attach (h : d.Linked) (hp : d.Has p) :
    ((d.attach p id place).node n).children =
      if n = p then place ((d.node n).children.filter (· ≠ id)) else (d.node n).children.filter (· ≠ id) := by
  rw [attach, children_mapChildren (by simpa using hp), children_setParent, children_detach h]

theorem Linked.attach (h : d.Linked) (hroot : id ≠ Document.root) (hid : d.Has id) (hp : d.Has p)
    (hplace : ∀ l, (place l).Perm (id :: l)) : (d.attach p id place).Linked := by
  have hmem : ∀ n l, n ∈ place l ↔ n = id ∨ n ∈ l := fun n l => by rw [(hplace l).mem_iff, List.mem_cons]
  refine ⟨fun q => ?_, fun n q => ?_, ?_⟩
  · rw [children_attach h hp]
    have hfilter := (h.nodup q).filter (· ≠ id)
    split
    · rw [(hplace _).nodup_iff, List.nodup_cons]
      exact ⟨by simp, hfilter⟩
    · exact hfilter
  · rw [children_attach h hp, parent_attach hid]
    have hother : n ∈ (d.node q).children.filter (· ≠ id) ↔ (d.node n).parent = some q ∧ n ≠ id := by
      rw [List.mem_filter, decide_eq_true_eq, h.link]
    by_cases hq : q = p
    · rw [if_pos hq, hmem, hother]
      by_cases hn : n = id <;> simp [hn, hq]
    · rw [if_neg hq, hother]
      by_cases hn : n = id
      · have hne : ¬ p = q := fun heq => hq heq.symm
        simp [hn, hne]
      · simp [hn]
  · rw [parent_attach hid, if_neg hroot.symm]
    exact h.root

/-! ### What it means to put something in -/

/-- The second document is the first with the child put under the node. -/
inductive Inserted (d : Document) (p : NodeId) : Child → Document → Prop where
  /-- A node is put somewhere among the children. -/
  | node (id : NodeId) (place : List NodeId → List NodeId) (hplace : ∀ l, (place l).Perm (id :: l)) :
    Inserted d p (.node id) (d.attach p id place)
  /-- Text is joined to a text that is there. -/
  | joined (last : NodeId) (before t : Text) (hlast : d.Has last) (hkind : (d.node last).kind = .text before) :
    Inserted d p (.text t) (d.setKind last (.text (before ++ t)))
  /-- A new text is put somewhere among the children. -/
  | text (t : Text) (place : List NodeId → List NodeId) (hplace : ∀ l, (place l).Perm ((d.create (.text t)).1 :: l)) :
    Inserted d p (.text t) ((d.create (.text t)).2.attach p (d.create (.text t)).1 place)

theorem kind_of_lastText? {last : NodeId} {before : Text} (h : d.lastText? p = some (last, before)) :
    (d.node last).kind = .text before := by
  rw [lastText?] at h
  split at h
  · cases h
  · split at h
    · next hkind =>
      cases h
      exact hkind
    · cases h

theorem has_of_kind {t : Text} (h : (d.node n).kind = .text t) : d.Has n := by
  by_contra hn
  rw [node_of_not_has hn] at h
  cases h

theorem inserted_append (d : Document) (p : NodeId) (child : Child) : d.Inserted p child (d.append p child) := by
  have hplace : ∀ (id : NodeId) (l : List NodeId), (l ++ [id]).Perm (id :: l) := List.perm_append_singleton
  cases child with
  | node id => exact .node id _ (hplace id)
  | text t =>
    rw [append, appendText]
    split
    · next last before hlast =>
      have hkind := kind_of_lastText? hlast
      exact .joined last before t (has_of_kind hkind) hkind
    · exact .text t _ (hplace _)

theorem appendBeforeSibling_of_none (h : (d.node s).parent = none) (child : Child) :
    d.appendBeforeSibling s child = d := by
  rw [appendBeforeSibling, h]

theorem inserted_appendBeforeSibling (h : (d.node s).parent = some p) (child : Child) :
    d.Inserted p child (d.appendBeforeSibling s child) := by
  rw [appendBeforeSibling, h]
  cases child with
  | node id => exact .node id _ (insertBefore_perm id s)
  | text t => exact .text t _ (insertBefore_perm _ s)

theorem inserted_appendBasedOnParent (d : Document) (element previous : NodeId) (child : Child) :
    d.Inserted ((d.node element).parent.getD previous) child (d.appendBasedOnParent element previous child) := by
  rw [appendBasedOnParent]
  cases hparent : (d.node element).parent with
  | none => exact inserted_append d previous child
  | some p => exact inserted_appendBeforeSibling hparent child

theorem Inserted.linked {child : Child} (h : d.Inserted p child d') (hd : d.Linked) (hp : d.Has p)
    (hnode : ∀ id, child = .node id → d.Has id ∧ id ≠ Document.root) : d'.Linked := by
  cases h with
  | node id place hplace =>
    obtain ⟨hid, hroot⟩ := hnode id rfl
    exact hd.attach hroot hid hp hplace
  | joined last before t hlast hkind => exact hd.congr (fun _ => parent_setKind) fun _ => children_setKind
  | text t place hplace =>
    have hroot : (d.create (.text t)).1 ≠ Document.root := Nat.ne_of_gt (Nat.zero_lt_of_lt hp)
    exact (hd.create _).attach hroot (has_create.2 (.inr rfl)) (has_create.2 (.inl hp)) hplace

/-- Nothing goes when something is put in. -/
theorem Inserted.has {child : Child} (h : d.Inserted p child d') (hn : d.Has n) : d'.Has n := by
  cases h with
  | node id place hplace => exact has_attach.2 hn
  | joined last before t hlast hkind => exact has_setKind.2 hn
  | text t place hplace => exact has_attach.2 (has_create.2 (.inl hn))

/-! ### Moving all children -/

/-- Gives several nodes another parent. -/
def setParents (d : Document) (ids : List NodeId) (parent : Option NodeId) : Document :=
  ids.foldl (fun d id => d.setParent id parent) d

theorem reparentChildren_eq (d : Document) (s t : NodeId) :
    d.reparentChildren s t =
      ((d.mapChildren s fun _ => []).setParents (d.node s).children (some t)).mapChildren t (· ++ (d.node s).children) :=
  rfl

section

variable {ids : List NodeId} {parent : Option NodeId}

@[simp]
theorem has_setParents : (d.setParents ids parent).Has n ↔ d.Has n := by
  induction ids generalizing d with
  | nil => exact Iff.rfl
  | cons id ids ih => exact ih.trans has_setParent

@[simp]
theorem children_setParents : ((d.setParents ids parent).node n).children = (d.node n).children := by
  induction ids generalizing d with
  | nil => rfl
  | cons id ids ih => exact ih.trans children_setParent

@[simp]
theorem kind_setParents : ((d.setParents ids parent).node n).kind = (d.node n).kind := by
  induction ids generalizing d with
  | nil => rfl
  | cons id ids ih => exact ih.trans kind_setParent

theorem parent_setParents (h : ∀ id ∈ ids, d.Has id) :
    ((d.setParents ids parent).node n).parent = if n ∈ ids then parent else (d.node n).parent := by
  induction ids generalizing d with
  | nil => rfl
  | cons id ids ih =>
    obtain ⟨hid, hids⟩ := List.forall_mem_cons.1 h
    have hrest := ih (d := d.setParent id parent) fun i hi => has_setParent.2 (hids i hi)
    rw [setParents, List.foldl_cons, ← setParents, hrest, parent_setParent hid]
    by_cases hn : n = id <;> by_cases hmem : n ∈ ids <;> simp [hn, hmem]

end

@[simp]
theorem has_reparentChildren : (d.reparentChildren s t).Has n ↔ d.Has n := by
  simp [reparentChildren_eq]

@[simp]
theorem kind_reparentChildren : ((d.reparentChildren s t).node n).kind = (d.node n).kind := by
  simp [reparentChildren_eq]

theorem parent_reparentChildren (h : d.Linked) :
    ((d.reparentChildren s t).node n).parent = if (d.node n).parent = some s then some t else (d.node n).parent := by
  have hmoved : ∀ id ∈ (d.node s).children, (d.mapChildren s fun _ => []).Has id := fun id hid =>
    has_mapChildren.2 (has_of_parent ((h.link id s).1 hid))
  rw [reparentChildren_eq, parent_mapChildren, parent_setParents hmoved, parent_mapChildren]
  simp only [h.link]

/-- The one node loses its children before the other gets them; the two may be the same. -/
theorem children_reparentChildren (hs : d.Has s) (ht : d.Has t) :
    ((d.reparentChildren s t).node n).children =
      (if n = s then [] else (d.node n).children) ++ if n = t then (d.node s).children else [] := by
  rw [reparentChildren_eq, children_mapChildren (by simpa using ht), children_setParents, children_mapChildren hs]
  by_cases hn : n = t <;> simp [hn]

theorem Linked.reparentChildren (h : d.Linked) (hs : d.Has s) (ht : d.Has t) : (d.reparentChildren s t).Linked := by
  refine ⟨fun p => ?_, fun n p => ?_, ?_⟩
  · rw [children_reparentChildren hs ht]
    by_cases hps : p = s
    · rw [if_pos hps, List.nil_append]
      split
      · exact h.nodup s
      · exact List.nodup_nil
    · rw [if_neg hps]
      split
      · refine List.nodup_append.2 ⟨h.nodup p, h.nodup s, fun a ha b hb hab => hps ?_⟩
        have hap := (h.link a p).1 ha
        rw [hab, (h.link b s).1 hb] at hap
        exact (Option.some.inj hap).symm
      · rw [List.append_nil]
        exact h.nodup p
  · rw [children_reparentChildren hs ht, parent_reparentChildren h, List.mem_append]
    have hfirst : n ∈ (if p = s then [] else (d.node p).children) ↔ (d.node n).parent = some p ∧ p ≠ s := by
      by_cases hps : p = s <;> simp [hps, h.link]
    have hsecond : n ∈ (if p = t then (d.node s).children else []) ↔ (d.node n).parent = some s ∧ p = t := by
      by_cases hpt : p = t <;> simp [hpt, h.link]
    rw [hfirst, hsecond]
    by_cases hn : (d.node n).parent = some s
    · simp only [hn, Option.some.injEq, if_pos, true_and]
      constructor
      · rintro (⟨rfl, hne⟩ | rfl)
        · exact absurd rfl hne
        · rfl
      · exact fun heq => .inr heq.symm
    · simp only [hn, if_neg, false_and, or_false, not_false_eq_true]
      exact ⟨fun heq => heq.1, fun heq => ⟨heq, fun hps => hn (hps ▸ heq)⟩⟩
  · rw [parent_reparentChildren h, h.root]
    rfl

/-! ### Elements -/

/-- Every element of the document satisfies a condition. -/
def AllElements (d : Document) (P : Element → Prop) : Prop := ∀ n e, (d.node n).kind = .element e → P e

variable {P : Element → Prop}

theorem allElements_empty : empty.AllElements P := by
  intro n e he
  rcases kind_empty n with hkind | hkind <;> rw [hkind] at he <;> cases he

theorem AllElements.of_kind (h : d.AllElements P)
    (hkind : ∀ n e, (d'.node n).kind = .element e → (d.node n).kind = .element e) : d'.AllElements P :=
  fun n e he => h n e (hkind n e he)

theorem AllElements.create (h : d.AllElements P) {kind : NodeKind} (hkind : ∀ e, kind = .element e → P e) :
    (d.create kind).2.AllElements P := by
  intro n e he
  rw [node_create] at he
  split at he
  · exact hkind e he
  · exact h n e he

/-- Putting something in makes no new element. -/
theorem AllElements.inserted {child : Child} (h : d.AllElements P) (hinsert : d.Inserted p child d') :
    d'.AllElements P := by
  cases hinsert with
  | node id place hplace => exact h.of_kind fun n e he => by rwa [kind_attach] at he
  | joined last before t hlast hkind =>
    refine h.of_kind fun n e he => ?_
    rw [kind_setKind hlast] at he
    split at he
    · cases he
    · exact he
  | text t place hplace =>
    have hnew : (d.create (.text t)).2.AllElements P := h.create fun e he => by cases he
    exact hnew.of_kind fun n e he => by rwa [kind_attach] at he

theorem AllElements.addMissingAttributes (h : d.AllElements P) (id : NodeId) {attributes : List Attribute}
    (hP : ∀ e, P e → P (e.addMissing attributes)) : (d.addMissingAttributes id attributes).AllElements P := by
  intro n f hf
  rw [kind_addMissingAttributes] at hf
  split at hf
  · cases hkind : (d.node n).kind with
    | element e =>
      rw [hkind] at hf
      cases hf
      exact hP e (h n e hkind)
    | root => rw [hkind] at hf; cases hf
    | text t => rw [hkind] at hf; cases hf
    | comment => rw [hkind] at hf; cases hf
  · exact h n f hf

theorem AllElements.detach (h : d.AllElements P) (id : NodeId) : (d.detach id).AllElements P :=
  h.of_kind fun _ _ he => by rwa [kind_detach] at he

theorem AllElements.reparentChildren (h : d.AllElements P) (s t : NodeId) : (d.reparentChildren s t).AllElements P :=
  h.of_kind fun _ _ he => by rwa [kind_reparentChildren] at he

end Document

end Cull.Markup
