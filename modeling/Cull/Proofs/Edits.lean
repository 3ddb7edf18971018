import Cull.Markup.Construction.Names
import Cull.Proofs.Links
import Mathlib.Data.List.Nodup

/-!
# Documents that are put together by edits

A document comes about by edits, one after the other, from a document that has nothing but its
root. If no edit puts the root anywhere or a node under itself or one of its descendants, the links
agree all along and no node is its own ancestor (`WellLinked`). The argument is the same for all
edits: an edit keeps the links agreeing, and the links it adds all lead to one node, which stands
below none of the nodes that they come from (`Relinks`). So there is no cycle afterwards if there was
none before (`not_transGen_of_new_links`).

The attributes of an element are those with which it was created and, behind them, others of
names that are new (`Element.Extends`).
-/

namespace Cull.Markup

open Relation

/-! ### Attributes that are added -/

namespace Element

/-- The second element is the first with further attributes, no two of one name and none of a name that the
first has. -/
def Extends (e₀ e : Element) : Prop :=
  e.name = e₀.name ∧ ∃ extra, e.attributes = e₀.attributes ++ extra ∧ (extra.map (·.name)).Nodup ∧
    ∀ a ∈ extra, ∀ b ∈ e₀.attributes, a.name ≠ b.name

theorem Extends.refl (e : Element) : e.Extends e :=
  ⟨rfl, [], (List.append_nil _).symm, List.nodup_nil, by simp⟩

/-- One more attribute, of a name that is new. -/
theorem Extends.push {e₀ e : Element} (h : e₀.Extends e) {a : Attribute} (ha : ∀ b ∈ e.attributes, b.name ≠ a.name) :
    e₀.Extends { e with attributes := e.attributes ++ [a] } := by
  obtain ⟨hname, extra, hattributes, hnodup, hnew⟩ := h
  rw [hattributes, List.forall_mem_append] at ha
  obtain ⟨hfirst, hextra⟩ := ha
  refine ⟨hname, extra ++ [a], by rw [hattributes, List.append_assoc], ?_, ?_⟩
  · rw [List.map_append, List.nodup_append]
    refine ⟨hnodup, List.nodup_cons.2 ⟨List.not_mem_nil, List.nodup_nil⟩, fun x hx y hy => ?_⟩
    obtain ⟨b, hb, rfl⟩ := List.mem_map.1 hx
    rw [List.map_singleton, List.mem_singleton] at hy
    rw [hy]
    exact hextra b hb
  · rw [List.forall_mem_append]
    refine ⟨hnew, fun b hb c hc => ?_⟩
    rw [List.mem_singleton.1 hb]
    exact (hfirst c hc).symm

theorem Extends.addMissing {e₀ e : Element} (h : e₀.Extends e) (attributes : List Attribute) :
    e₀.Extends (e.addMissing attributes) := by
  rw [Element.addMissing]
  induction attributes generalizing e with
  | nil => exact h
  | cons a rest ih =>
    rw [List.foldl_cons]
    split
    · exact ih h
    · next hnone =>
      refine ih (e := { e with attributes := e.attributes ++ [a] }) (h.push fun b hb heq => hnone ?_)
      exact List.any_eq_true.2 ⟨b, hb, decide_eq_true heq⟩

end Element

/-! ### Edits -/

/-- A call by which a document is put together. -/
inductive Edit where
  /-- Creates an element. -/
  | createElement (e : Element)
  /-- Creates a comment. -/
  | createComment
  /-- Creates a processing instruction, which is kept as a comment. -/
  | createInstruction
  /-- Puts a node or text last under a node. -/
  | append (parent : NodeId) (child : Child)
  /-- Puts a node or text before a sibling. -/
  | appendBeforeSibling (sibling : NodeId) (child : Child)
  /-- Puts a node or text before an element, or last under another if that stands nowhere. -/
  | appendBasedOnParent (element previous : NodeId) (child : Child)
  /-- Gives an element the attributes that it does not have. -/
  | addMissingAttributes (id : NodeId) (attributes : List Attribute)
  /-- Takes a node out. -/
  | removeFromParent (id : NodeId)
  /-- Moves all children of a node to another. -/
  | reparentChildren (source target : NodeId)

namespace Document

variable {d d' : Document} {id n p : NodeId}

/-- The document after an edit. -/
def edit (d : Document) : Edit → Document
  | .createElement e => (d.create (.element e)).2
  | .createComment => (d.create .comment).2
  | .createInstruction => (d.create .comment).2
  | .append parent child => d.append parent child
  | .appendBeforeSibling sibling child => d.appendBeforeSibling sibling child
  | .appendBasedOnParent element previous child => d.appendBasedOnParent element previous child
  | .addMissingAttributes id attributes => d.addMissingAttributes id attributes
  | .removeFromParent id => d.detach id
  | .reparentChildren source target => d.reparentChildren source target

/-- The document after several edits. -/
def editAll (d : Document) (edits : List Edit) : Document := edits.foldl edit d

/-- The one node stands directly under the other. -/
def Under (d : Document) (n p : NodeId) : Prop := (d.node n).parent = some p

/-- The one node is the other or stands below it. -/
def Below (d : Document) : NodeId → NodeId → Prop := ReflTransGen d.Under

/-- The child can be put under the node: it is text, or a node other than the root under which the node does not
stand. -/
def CanHold (d : Document) (p : NodeId) : Child → Prop
  | .text _ => d.Has p
  | .node id => d.Has p ∧ d.Has id ∧ id ≠ root ∧ ¬ d.Below p id

/-- The edit uses nodes that exist, and puts neither the root anywhere nor a node under itself or one of its
descendants. -/
def Admits (d : Document) : Edit → Prop
  | .append parent child => d.CanHold parent child
  | .appendBeforeSibling sibling child => ∀ p, (d.node sibling).parent = some p → d.CanHold p child
  | .appendBasedOnParent element previous child => d.CanHold ((d.node element).parent.getD previous) child
  | .reparentChildren source target =>
    d.Has source ∧ d.Has target ∧ ∀ c ∈ (d.node source).children, ¬ d.Below target c
  | _ => True

/-- Each of the edits is admitted when its turn comes. -/
def AdmitsAll (d : Document) : List Edit → Prop
  | [] => True
  | e :: rest => d.Admits e ∧ (d.edit e).AdmitsAll rest

/-! ### A test for runs of edits -/

/-- The way up from a node leads to the given one, or is longer than the number of steps. -/
def leadsTo (d : Document) (a : NodeId) : Nat → NodeId → Bool
  | 0, _ => true
  | steps + 1, n => n = a || (d.node n).parent.any (leadsTo d a steps)

theorem leadsTo_of_below {a : NodeId} (h : d.Below n a) (steps : Nat) : d.leadsTo a steps n = true := by
  induction steps generalizing n with
  | zero => rfl
  | succ steps ih =>
    rw [leadsTo, Bool.or_eq_true, decide_eq_true_eq]
    rcases ReflTransGen.cases_head h with rfl | ⟨p, hp, hrest⟩
    · exact .inl rfl
    · exact .inr ((Option.any_eq_true _ _).2 ⟨p, hp, ih hrest⟩)

/-- A test that finds only children that can be put under the node. -/
def canHold? (d : Document) (p : NodeId) : Child → Bool
  | .text _ => d.Has p
  | .node id => d.Has p && d.Has id && id ≠ root && !d.leadsTo id d.nodes.size p

theorem canHold_of_canHold? {child : Child} (h : d.canHold? p child = true) : d.CanHold p child := by
  cases child with
  | text t =>
    have hp : d.Has p := of_decide_eq_true h
    exact hp
  | node id =>
    simp only [canHold?, Bool.and_eq_true, decide_eq_true_eq, Bool.not_eq_true'] at h
    obtain ⟨⟨⟨hp, hid⟩, hroot⟩, hfree⟩ := h
    refine ⟨hp, hid, hroot, fun hbelow => ?_⟩
    rw [leadsTo_of_below hbelow] at hfree
    cases hfree

/-- A test that finds only edits that are admitted. -/
def admits? (d : Document) : Edit → Bool
  | .append parent child => d.canHold? parent child
  | .appendBeforeSibling sibling child => (d.node sibling).parent.all (d.canHold? · child)
  | .appendBasedOnParent element previous child => d.canHold? ((d.node element).parent.getD previous) child
  | .reparentChildren source target =>
    d.Has source && d.Has target && (d.node source).children.all (!d.leadsTo · d.nodes.size target)
  | _ => true

theorem admits_of_admits? {e : Edit} (h : d.admits? e = true) : d.Admits e := by
  cases e with
  | append p child => exact canHold_of_canHold? h
  | appendBeforeSibling s child => exact fun p hp => canHold_of_canHold? ((Option.all_eq_true _ _).1 h p hp)
  | appendBasedOnParent e previous child => exact canHold_of_canHold? h
  | reparentChildren s t =>
    simp only [admits?, Bool.and_eq_true, decide_eq_true_eq, List.all_eq_true, Bool.not_eq_true'] at h
    refine ⟨h.1.1, h.1.2, fun c hc hbelow => ?_⟩
    have hfree := h.2 c hc
    rw [leadsTo_of_below hbelow] at hfree
    cases hfree
  | _ => trivial

/-- A test that finds only runs of edits that are admitted. -/
def admitsAll? (d : Document) : List Edit → Bool
  | [] => true
  | e :: rest => d.admits? e && (d.edit e).admitsAll? rest

theorem admitsAll_of_admitsAll? {edits : List Edit} (h : d.admitsAll? edits = true) : d.AdmitsAll edits := by
  induction edits generalizing d with
  | nil => trivial
  | cons e rest ih =>
    obtain ⟨he, hrest⟩ := Bool.and_eq_true_iff.1 h
    exact ⟨admits_of_admits? he, ih hrest⟩

/-! ### New links make no cycle -/

variable {moved : NodeId → Prop} {target : NodeId}

/-- A way along old and new links, where all new ones lead to one node, either uses none of them, or it leads to one
of the moved nodes and goes on from the target. -/
theorem transGen_of_new_links (hlinks : ∀ n p, d'.Under n p → d.Under n p ∨ moved n ∧ p = target)
    (hbelow : ∀ n, moved n → ¬ d.Below target n) {a b : NodeId} (h : TransGen d'.Under a b) :
    TransGen d.Under a b ∨ (∃ n, moved n ∧ d.Below a n) ∧ d.Below target b := by
  induction h with
  | single hab =>
    rcases hlinks _ _ hab with hold | ⟨hmoved, rfl⟩
    · exact .inl (.single hold)
    · exact .inr ⟨⟨a, hmoved, .refl⟩, .refl⟩
  | tail hab hbc ih =>
    rcases hlinks _ _ hbc with hold | ⟨hmoved, rfl⟩
    · rcases ih with hway | ⟨hfirst, hway⟩
      · exact .inl (hway.tail hold)
      · exact .inr ⟨hfirst, hway.tail hold⟩
    · rcases ih with hway | ⟨-, hway⟩
      · exact .inr ⟨⟨_, hmoved, hway.to_reflTransGen⟩, .refl⟩
      · exact absurd hway (hbelow _ hmoved)

theorem not_transGen_of_new_links (hlinks : ∀ n p, d'.Under n p → d.Under n p ∨ moved n ∧ p = target)
    (hbelow : ∀ n, moved n → ¬ d.Below target n) (h : ∀ n, ¬ TransGen d.Under n n) (n : NodeId) :
    ¬ TransGen d'.Under n n := by
  intro hcycle
  rcases transGen_of_new_links hlinks hbelow hcycle with hold | ⟨⟨m, hmoved, hway⟩, hback⟩
  · exact h n hold
  · exact hbelow m hmoved (hback.trans hway)

/-- What an edit does to the links. -/
structure Relinks (d d' : Document) : Prop where
  /-- They agree as before. -/
  linked : d.Linked → d'.Linked
  /-- The new ones lead to one node, which stands below none of the nodes that they come from. -/
  new : d.Linked → ∃ (moved : NodeId → Prop) (target : NodeId),
    (∀ n p, d'.Under n p → d.Under n p ∨ moved n ∧ p = target) ∧ ∀ n, moved n → ¬ d.Below target n

/-- The links do not change. -/
theorem Relinks.of_same (hparent : ∀ n, (d'.node n).parent = (d.node n).parent)
    (hchildren : ∀ n, (d'.node n).children = (d.node n).children) : d.Relinks d' := by
  refine ⟨fun h => h.congr hparent hchildren, fun _ => ⟨fun _ => False, root, fun n p h => .inl ?_, fun n h => h.elim⟩⟩
  rwa [Under, hparent] at h

theorem relinks_create (d : Document) (kind : NodeKind) : d.Relinks (d.create kind).2 :=
  .of_same (fun _ => parent_create) fun _ => children_create

theorem relinks_detach (d : Document) (id : NodeId) : d.Relinks (d.detach id) := by
  refine ⟨fun h => h.detach id, fun _ => ⟨fun _ => False, root, fun n p h => .inl ?_, fun n h => h.elim⟩⟩
  rw [Under, parent_detach] at h
  split at h
  · cases h
  · exact h

/-- A node that has just been created stands above nothing. -/
theorem Linked.not_below_new (h : d.Linked) (hp : d.Has p) : ¬ d.Below p d.nodes.size := by
  intro hbelow
  rcases ReflTransGen.cases_tail hbelow with hsame | ⟨m, -, hm⟩
  · exact absurd hp (hsame ▸ Nat.lt_irrefl _)
  · exact absurd (h.has_parent hm) (Nat.lt_irrefl _)

theorem Inserted.relinks {child : Child} (h : d.Inserted p child d') (hhold : d.CanHold p child) : d.Relinks d' := by
  have hp : d.Has p := by
    cases child with
    | node id => exact hhold.1
    | text t => exact hhold
  have hnode : ∀ id, child = .node id → d.Has id ∧ id ≠ root := by
    rintro id rfl
    exact ⟨hhold.2.1, hhold.2.2.1⟩
  refine ⟨fun hd => h.linked hd hp hnode, fun hd => ?_⟩
  cases h with
  | node id place hplace =>
    refine ⟨(· = id), p, fun n q hunder => ?_, fun n hn => hn ▸ hhold.2.2.2⟩
    rw [Under, parent_attach hhold.2.1] at hunder
    split at hunder
    · next hn => exact .inr ⟨hn, (Option.some.inj hunder).symm⟩
    · exact .inl hunder
  | joined last before t hlast hkind =>
    exact (Relinks.of_same (fun _ => parent_setKind) fun _ => children_setKind).new hd
  | text t place hplace =>
    refine ⟨(· = d.nodes.size), p, fun n q hunder => ?_, fun n hn => hn ▸ hd.not_below_new hp⟩
    rw [Under, parent_attach (has_create.2 (.inr rfl)), parent_create] at hunder
    split at hunder
    · next hn => exact .inr ⟨hn, (Option.some.inj hunder).symm⟩
    · exact .inl hunder

theorem relinks_reparentChildren {s t : NodeId} (hs : d.Has s) (ht : d.Has t)
    (hbelow : ∀ c ∈ (d.node s).children, ¬ d.Below t c) : d.Relinks (d.reparentChildren s t) := by
  refine ⟨fun h => h.reparentChildren hs ht, fun hd => ⟨(· ∈ (d.node s).children), t, fun n q h => ?_, hbelow⟩⟩
  rw [Under, parent_reparentChildren hd] at h
  split at h
  · next hn => exact .inr ⟨(hd.link n s).2 hn, (Option.some.inj h).symm⟩
  · exact .inl h

theorem relinks_edit {e : Edit} (h : d.Admits e) : d.Relinks (d.edit e) := by
  cases e with
  | createElement e => exact relinks_create d _
  | createComment => exact relinks_create d _
  | createInstruction => exact relinks_create d _
  | append p child => exact (inserted_append d p child).relinks h
  | appendBeforeSibling s child =>
    cases hparent : (d.node s).parent with
    | none =>
      rw [edit, appendBeforeSibling_of_none hparent]
      exact .of_same (fun _ => rfl) fun _ => rfl
    | some p => exact (inserted_appendBeforeSibling hparent child).relinks (h p hparent)
  | appendBasedOnParent e previous child => exact (inserted_appendBasedOnParent d e previous child).relinks h
  | addMissingAttributes id attributes =>
    exact .of_same (fun _ => parent_addMissingAttributes) fun _ => children_addMissingAttributes
  | removeFromParent id => exact relinks_detach d id
  | reparentChildren s t => exact relinks_reparentChildren h.1 h.2.1 h.2.2

/-! ### Elements and their attributes -/

/-- The element is one of the given ones with further attributes. -/
def From (es : List Element) (e : Element) : Prop := ∃ e₀ ∈ es, e₀.Extends e

variable {es : List Element}

/-- The element that an edit creates. -/
def created : Edit → List Element
  | .createElement e => [e]
  | _ => []

theorem AllElements.edit (h : d.AllElements (From es)) {e : Edit} (he : created e ⊆ es) :
    (d.edit e).AllElements (From es) := by
  cases e with
  | createElement e =>
    refine h.create fun f hf => ⟨e, he (.head _), ?_⟩
    cases hf
    exact .refl e
  | createComment => exact h.create fun f hf => by cases hf
  | createInstruction => exact h.create fun f hf => by cases hf
  | append p child => exact h.inserted (inserted_append d p child)
  | appendBeforeSibling s child =>
    cases hparent : (d.node s).parent with
    | none => rwa [Document.edit, appendBeforeSibling_of_none hparent]
    | some p => exact h.inserted (inserted_appendBeforeSibling hparent child)
  | appendBasedOnParent e previous child => exact h.inserted (inserted_appendBasedOnParent d e previous child)
  | addMissingAttributes id attributes =>
    refine h.addMissingAttributes id ?_
    rintro e ⟨e₀, he₀, hextends⟩
    exact ⟨e₀, he₀, hextends.addMissing attributes⟩
  | removeFromParent id => exact h.detach id
  | reparentChildren s t => exact h.reparentChildren s t

/-! ### Runs of edits -/

/-- Every node stands in at most one place, parents and children agree, the root stands under nothing, and no node is
its own ancestor. -/
structure WellLinked (d : Document) : Prop where
  /-- Over all lists of children no node comes twice. -/
  once : (d.nodes.toList.flatMap (·.children)).Nodup
  /-- A node is listed exactly under its parent. -/
  link : ∀ n p, n ∈ (d.node p).children ↔ (d.node n).parent = some p
  /-- The root has no parent. -/
  root : (d.node root).parent = none
  /-- No node stands below itself. -/
  acyclic : ∀ n, ¬ TransGen d.Under n n

theorem Linked.nodup_flatMap (h : d.Linked) : (d.nodes.toList.flatMap (·.children)).Nodup := by
  have hnode : ∀ i (hi : i < d.nodes.toList.length), d.nodes.toList[i] = d.node i := by
    intro i hi
    rw [node, Array.getElem?_eq_getElem (by simpa using hi)]
    rfl
  rw [List.nodup_flatMap]
  refine ⟨fun m hm => ?_, List.pairwise_iff_getElem.2 fun i j hi hj hij => ?_⟩
  · obtain ⟨i, hi, rfl⟩ := List.getElem_of_mem hm
    rw [hnode]
    exact h.nodup i
  · show List.Disjoint d.nodes.toList[i].children d.nodes.toList[j].children
    rw [hnode, hnode]
    intro c hci hcj
    have hsame := (h.link c i).1 hci
    rw [(h.link c j).1 hcj] at hsame
    exact absurd (Option.some.inj hsame) (Nat.ne_of_gt hij)

theorem not_under_empty (n p : NodeId) : ¬ empty.Under n p := by
  intro h
  have hchild := (linked_empty.link n p).2 h
  rw [children_empty] at hchild
  cases hchild

theorem wellLinked_of_linked (h : d.Linked) (hacyclic : ∀ n, ¬ TransGen d.Under n n) : d.WellLinked :=
  ⟨h.nodup_flatMap, h.link, h.root, hacyclic⟩

theorem wellLinked_editAll {edits : List Edit} (hlinked : d.Linked) (hacyclic : ∀ n, ¬ TransGen d.Under n n)
    (h : d.AdmitsAll edits) : (d.editAll edits).WellLinked := by
  induction edits generalizing d with
  | nil => exact wellLinked_of_linked hlinked hacyclic
  | cons e rest ih =>
    have hrelinks := relinks_edit h.1
    obtain ⟨moved, target, hlinks, hbelow⟩ := hrelinks.new hlinked
    exact ih (hrelinks.linked hlinked) (not_transGen_of_new_links hlinks hbelow hacyclic) h.2

theorem AllElements.editAll {edits : List Edit} (h : d.AllElements (From es)) (hes : ∀ e ∈ edits, created e ⊆ es) :
    (d.editAll edits).AllElements (From es) := by
  induction edits generalizing d with
  | nil => exact h
  | cons e rest ih =>
    obtain ⟨he, hrest⟩ := List.forall_mem_cons.1 hes
    exact ih (h.edit he) hrest

/-- If no edit puts the root anywhere or a node under itself or one of its descendants, then at the end every node
stands in at most one place, parents and children agree, the root stands under nothing and no node is its own
ancestor; and the attributes of an element are those with which it was created, and others of new names. -/
theorem links_hold_along_edits {edits : List Edit} (h : empty.AdmitsAll edits) :
    (empty.editAll edits).WellLinked ∧
    ∀ n e, ((empty.editAll edits).node n).kind = .element e → ∃ e₀, .createElement e₀ ∈ edits ∧ e₀.Extends e := by
  refine ⟨wellLinked_editAll linked_empty (fun n hcycle => ?_) h, fun n e he => ?_⟩
  · obtain ⟨m, hm, -⟩ := TransGen.head'_iff.1 hcycle
    exact not_under_empty n m hm
  · have hempty : empty.AllElements (From (edits.flatMap created)) := allElements_empty
    obtain ⟨e₀, he₀, hextends⟩ := hempty.editAll (fun e he _ hc => List.mem_flatMap.2 ⟨e, he, hc⟩) n e he
    obtain ⟨edit, hedit, hcreated⟩ := List.mem_flatMap.1 he₀
    cases edit with
    | createElement e₁ =>
      obtain rfl : e₀ = e₁ := List.mem_singleton.1 hcreated
      exact ⟨e₀, hedit, hextends⟩
    | _ => cases hcreated

/-- The children of a paragraph go into a new element that is put under it, one of them is then put before the
paragraph, and the paragraph gets one attribute more. -/
theorem links_hold_along_edits_moved :
    let p : Element := ⟨.html "p", [⟨"id", ['a']⟩]⟩
    let b : Element := ⟨.html "b", []⟩
    let edits : List Edit := [.createElement p, .append root (.node 1), .createElement b, .append 1 (.node 2),
      .append 2 (.text ['x']), .appendBeforeSibling 2 (.text ['y']), .createElement b, .reparentChildren 1 5,
      .append 1 (.node 5), .appendBasedOnParent 1 root (.node 2),
      .addMissingAttributes 1 [⟨"class", ['c']⟩, ⟨"id", ['d']⟩, ⟨"class", ['e']⟩]]
    empty.AdmitsAll edits ∧ (empty.editAll edits).WellLinked ∧
      ((empty.editAll edits).node root).children = [2, 1] ∧ ((empty.editAll edits).node 5).children = [4] ∧
      ∃ e₀, .createElement e₀ ∈ edits ∧ e₀.Extends ⟨.html "p", [⟨"id", ['a']⟩, ⟨"class", ['c']⟩]⟩ := by
  intro p b edits
  have hadmits : empty.AdmitsAll edits := admitsAll_of_admitsAll? (by decide +kernel)
  obtain ⟨hlinks, hattributes⟩ := links_hold_along_edits hadmits
  exact ⟨hadmits, hlinks, by decide +kernel, by decide +kernel, hattributes 1 _ (by decide +kernel)⟩

end Document

end Cull.Markup
