import Cull.Markup.Tree
import Cull.Proofs.Links
import Mathlib.Algebra.Order.BigOperators.Group.Finset

/-!
# The text of a document

A document has as much text as its nodes have. Putting a text in makes that as much longer as the
text is, and moving nodes changes nothing (`Inserted.size_eq`). Where the links agree, the tree of a
document shows every node at most once, because a node has one parent and the root none; so the
tree has no more text than the document (`Linked.length_textContent_tree_le`).
-/

namespace Cull.Markup

/-- The number of characters that something put into a document brings with it. -/
def Child.size : Child → Nat
  | .node _ => 0
  | .text t => t.length

namespace Document

variable {d d' : Document} {id n p : NodeId} {kind : NodeKind}

/-! ### How much text there is -/

/-- The number of characters of a node. -/
def ownSize (d : Document) (n : NodeId) : Nat := (Tree.ownText (d.node n).kind).length

/-- The number of characters of all nodes. -/
def size (d : Document) : Nat := ∑ n ∈ Finset.range d.nodes.size, d.ownSize n

theorem has_of_ownSize (h : d.ownSize n ≠ 0) : d.Has n := by
  by_contra hn
  rw [ownSize, node_of_not_has hn] at h
  exact h rfl

/-- The number of characters of the listed nodes. -/
def ownSizeAll (d : Document) : List NodeId → Nat
  | [] => 0
  | n :: ids => d.ownSize n + ownSizeAll d ids

theorem ownSizeAll_append (d : Document) (ids more : List NodeId) :
    d.ownSizeAll (ids ++ more) = d.ownSizeAll ids + d.ownSizeAll more := by
  induction ids with
  | nil => exact (Nat.zero_add _).symm
  | cons n ids ih => rw [List.cons_append, ownSizeAll, ownSizeAll, ih, Nat.add_assoc]

/-- Different nodes have no more text than the document. -/
theorem ownSizeAll_le {ids : List NodeId} (h : ids.Nodup) : d.ownSizeAll ids ≤ d.size := by
  have hsum : d.ownSizeAll ids = ∑ n ∈ ids.toFinset, d.ownSize n := by
    induction ids with
    | nil => rfl
    | cons n ids ih =>
      obtain ⟨hn, hids⟩ := List.nodup_cons.1 h
      rw [ownSizeAll, ih hids, List.toFinset_cons, Finset.sum_insert (mt List.mem_toFinset.1 hn)]
  rw [hsum]
  exact Finset.sum_le_sum_of_ne_zero fun n _ hn => Finset.mem_range.2 (has_of_ownSize hn)

theorem size_congr (hhas : ∀ n, d'.Has n ↔ d.Has n)
    (hkind : ∀ n, Tree.ownText (d'.node n).kind = Tree.ownText (d.node n).kind) : d'.size = d.size := by
  have hrange : Finset.range d'.nodes.size = Finset.range d.nodes.size := by
    ext n
    rw [Finset.mem_range, Finset.mem_range]
    exact hhas n
  rw [size, size, hrange]
  exact Finset.sum_congr rfl fun n _ => by rw [ownSize, ownSize, hkind]

theorem size_create (d : Document) (kind : NodeKind) :
    (d.create kind).2.size = d.size + (Tree.ownText kind).length := by
  have hsize : (d.create kind).2.nodes.size = d.nodes.size + 1 := Array.size_push _
  have hold : ∀ n ∈ Finset.range d.nodes.size, (d.create kind).2.ownSize n = d.ownSize n := by
    intro n hn
    rw [ownSize, ownSize, node_create, if_neg (Nat.ne_of_lt (Finset.mem_range.1 hn))]
  have hnew : (d.create kind).2.ownSize d.nodes.size = (Tree.ownText kind).length := by
    rw [ownSize, node_create, if_pos rfl]
  rw [size, hsize, Finset.sum_range_succ, Finset.sum_congr rfl hold, hnew]
  rfl

theorem size_joined {before t : Text} (hid : d.Has id) (hkind : (d.node id).kind = .text before) :
    (d.setKind id (.text (before ++ t))).size = d.size + t.length := by
  have hmem : id ∈ Finset.range d.nodes.size := Finset.mem_range.2 hid
  have hsize : (d.setKind id (.text (before ++ t))).nodes.size = d.nodes.size := Array.size_modify
  have hother : ∀ n ∈ (Finset.range d.nodes.size).erase id,
      (d.setKind id (.text (before ++ t))).ownSize n = d.ownSize n := by
    intro n hn
    rw [ownSize, ownSize, kind_setKind hid, if_neg (Finset.ne_of_mem_erase hn)]
  have hthis : (d.setKind id (.text (before ++ t))).ownSize id = d.ownSize id + t.length := by
    rw [ownSize, ownSize, kind_setKind hid, if_pos rfl, hkind]
    exact List.length_append
  rw [size, size, hsize, ← Finset.add_sum_erase _ _ hmem, ← Finset.add_sum_erase _ d.ownSize hmem,
    Finset.sum_congr rfl hother, hthis]
  exact Nat.add_right_comm _ _ _

/-- What is put in makes a document as much longer as it is itself. -/
theorem Inserted.size_eq {child : Child} (h : d.Inserted p child d') : d'.size = d.size + child.size := by
  cases h with
  | node id place hplace => exact size_congr (fun _ => has_attach) fun _ => by rw [kind_attach]
  | joined last before t hlast hkind => exact size_joined hlast hkind
  | text t place hplace =>
    have hattach : ((d.create (.text t)).2.attach p (d.create (.text t)).1 place).size = (d.create (.text t)).2.size :=
      size_congr (fun _ => has_attach) fun _ => by rw [kind_attach]
    rw [hattach, size_create]
    rfl

theorem size_detach : (d.detach id).size = d.size :=
  size_congr (fun _ => has_detach) fun _ => by rw [kind_detach]

theorem size_reparentChildren : (d.reparentChildren n p).size = d.size :=
  size_congr (fun _ => has_reparentChildren) fun _ => by rw [kind_reparentChildren]

theorem size_addMissingAttributes {attributes : List Attribute} :
    (d.addMissingAttributes id attributes).size = d.size := by
  refine size_congr (fun _ => has_addMissingAttributes) fun n => ?_
  rw [kind_addMissingAttributes]
  split
  · cases (d.node n).kind <;> rfl
  · rfl

theorem size_empty : empty.size = 0 := rfl

/-! ### What the tree shows -/

theorem textContents_append (ts us : List Tree) :
    Tree.textContents (ts ++ us) = Tree.textContents ts ++ Tree.textContents us := by
  induction ts with
  | nil => rfl
  | cons t ts ih => rw [List.cons_append, Tree.textContents, Tree.textContents, ih, List.append_assoc]

/-- The text of nodes without what stands under them. -/
theorem length_textContents_zero (d : Document) (ids : List NodeId) :
    (Tree.textContents (ids.map (d.treeFrom 0))).length = d.ownSizeAll ids := by
  induction ids with
  | nil => rfl
  | cons id ids ih =>
    rw [List.map_cons, Tree.textContents, List.length_append, ih, treeFrom, Tree.textContent, Tree.textContents,
      List.append_nil]
    rfl

/-- The text of nodes with what stands under them, one level at a time. -/
theorem length_textContents_succ (d : Document) (depth : Nat) (ids : List NodeId) :
    (Tree.textContents (ids.map (d.treeFrom (depth + 1)))).length =
      d.ownSizeAll ids +
        (Tree.textContents ((ids.flatMap fun n => (d.node n).children).map (d.treeFrom depth))).length := by
  induction ids with
  | nil => rfl
  | cons id ids ih =>
    simp only [List.map_cons, List.flatMap_cons, List.map_append, textContents_append, Tree.textContents,
      Tree.textContent, treeFrom, List.length_append, ownSizeAll, ownSize] at ih ⊢
    omega

/-- The nodes under different nodes are different, and not among those above. -/
theorem Linked.nodup_level (h : d.Linked) {seen ids : List NodeId} (hnodup : (seen ++ ids).Nodup)
    (hclosed : ∀ n ∈ seen ++ ids, ∀ p, (d.node n).parent = some p → p ∈ seen) :
    ((seen ++ ids) ++ ids.flatMap fun n => (d.node n).children).Nodup := by
  obtain ⟨-, hids, hapart⟩ := List.nodup_append.1 hnodup
  have hparent : ∀ c ∈ ids.flatMap (fun n => (d.node n).children), ∃ n ∈ ids, (d.node c).parent = some n := by
    intro c hc
    obtain ⟨n, hn, hcn⟩ := List.mem_flatMap.1 hc
    exact ⟨n, hn, (h.link c n).1 hcn⟩
  refine List.nodup_append.2 ⟨hnodup, List.nodup_flatMap.2 ⟨fun n _ => h.nodup n, ?_⟩, ?_⟩
  · refine hids.imp fun hne c hcn hcm => ?_
    have hsame := (h.link c _).1 hcn
    rw [(h.link c _).1 hcm] at hsame
    exact hne (Option.some.inj hsame).symm
  · rintro c hc _ hc' rfl
    -- its parent is both above and on the level
    obtain ⟨n, hn, hcn⟩ := hparent c hc'
    exact hapart n (hclosed c hc n hcn) n hn rfl

/-- The nodes of a level and what stands under them have no more text than the nodes that do not stand above. -/
theorem Linked.length_textContents_le (h : d.Linked) (depth : Nat) {seen ids : List NodeId}
    (hnodup : (seen ++ ids).Nodup) (hclosed : ∀ n ∈ seen ++ ids, ∀ p, (d.node n).parent = some p → p ∈ seen) :
    d.ownSizeAll seen + (Tree.textContents (ids.map (d.treeFrom depth))).length ≤ d.size := by
  induction depth generalizing seen ids with
  | zero =>
    rw [length_textContents_zero, ← ownSizeAll_append]
    exact ownSizeAll_le hnodup
  | succ depth ih =>
    have hlevel := h.nodup_level hnodup hclosed
    have hnext := ih hlevel ?_
    · rw [ownSizeAll_append] at hnext
      rw [length_textContents_succ]
      omega
    · intro n hn p hp
      rcases List.mem_append.1 hn with hn | hn
      · exact List.mem_append_left _ (hclosed n hn p hp)
      · obtain ⟨m, hm, hnm⟩ := List.mem_flatMap.1 hn
        obtain rfl := Option.some.inj (((h.link n m).1 hnm).symm.trans hp)
        exact List.mem_append_right _ hm

/-- The tree of a document has no more text than the document. -/
theorem Linked.length_textContent_tree_le (h : d.Linked) : d.tree.textContent.length ≤ d.size := by
  have hroot : d.ownSizeAll [] + (Tree.textContents ([Document.root].map (d.treeFrom d.nodes.size))).length ≤
      d.size := h.length_textContents_le d.nodes.size (by simp) (by simp [h.root])
  simpa [Tree.textContents, tree, ownSizeAll] using hroot

end Document

end Cull.Markup
