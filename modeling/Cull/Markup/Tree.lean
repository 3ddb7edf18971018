import Cull.Markup.Document

/-!
# The tree of a document

What can be seen of a document from its root, as a tree.
-/

namespace Cull.Markup

/-- A tree of nodes. -/
inductive Tree where
  /-- A node and what stands under it. -/
  | node (kind : NodeKind) (children : List Tree)

namespace Tree

/-- What the topmost node is. -/
def kind : Tree → NodeKind
  | node k _ => k

/-- What stands under the topmost node. -/
def children : Tree → List Tree
  | node _ cs => cs

/-- The text of a node itself. -/
def ownText : NodeKind → Text
  | .text t => t
  | _ => []

mutual

/-- The texts of a tree, one after the other. -/
def textContent : Tree → Text
  | node kind children => ownText kind ++ textContents children

/-- The texts of several trees. -/
def textContents : List Tree → Text
  | [] => []
  | t :: ts => textContent t ++ textContents ts

end

mutual

/-- The nodes of a tree, each before what stands under it, with their depths. -/
def preorder (depth : Nat) : Tree → List (Nat × NodeKind)
  | node kind children => (depth, kind) :: preorders (depth + 1) children

/-- The nodes of several trees. -/
def preorders (depth : Nat) : List Tree → List (Nat × NodeKind)
  | [] => []
  | t :: ts => preorder depth t ++ preorders depth ts

end

/-- The elements of a tree, each before what stands under it. -/
def elements (t : Tree) : List Element :=
  (preorder 0 t).filterMap fun
    | (_, .element e) => some e
    | _ => none

end Tree

namespace Document

/-- What stands at and under a node, `depth` levels deep. -/
def treeFrom (d : Document) : Nat → NodeId → Tree
  | 0, id => .node (d.node id).kind []
  | depth + 1, id => .node (d.node id).kind ((d.node id).children.map (treeFrom d depth))

/-- The tree of a document. No branch has more nodes than there are. -/
def tree (d : Document) : Tree := d.treeFrom d.nodes.size root

end Document

end Cull.Markup
