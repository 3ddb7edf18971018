import Cull.Markup.Element

/-!
# Documents

A document is a store of nodes, numbered in the order of their creation; node
`0` is the root. A node knows its parent and its children. The operations are
those by which a page is put together: create a node, put it last under
another or before a sibling, take it out, move all children of a node.

Text that is put last under a node is joined to a text that stands last there;
text that is put before a sibling stays on its own.
-/

namespace Cull.Markup

/-- The number of a node. -/
abbrev NodeId := Nat

/-- What a node is. -/
inductive NodeKind where
  /-- The root of a document. -/
  | root
  /-- An element. -/
  | element (e : Element)
  /-- Text. -/
  | text (t : Text)
  /-- A comment. -/
  | comment
  deriving DecidableEq

/-- A node of a document. -/
structure Node where
  /-- What it is. -/
  kind : NodeKind
  /-- The node under which it stands. -/
  parent : Option NodeId
  /-- The nodes that stand under it, in order. -/
  children : List NodeId
  deriving DecidableEq

instance : Inhabited Node := ⟨⟨.comment, none, []⟩⟩

/-- A document. -/
structure Document where
  /-- The nodes. -/
  nodes : Array Node

/-- What can be put into a document: a node, or text for which a node is made if need be. -/
inductive Child where
  /-- A node that exists. -/
  | node (id : NodeId)
  /-- Text. -/
  | text (t : Text)

namespace Document

/-- The number of the root. -/
def root : NodeId := 0

/-- A document with nothing but its root. -/
def empty : Document := ⟨#[⟨.root, none, []⟩]⟩

/-- The node of the given number. -/
def node (d : Document) (id : NodeId) : Node := d.nodes[id]?.getD default

/-- Changes one node. -/
def modify (d : Document) (id : NodeId) (f : Node → Node) : Document := ⟨d.nodes.modify id f⟩

/-- Creates a node that stands nowhere. -/
def create (d : Document) (kind : NodeKind) : NodeId × Document :=
  (d.nodes.size, ⟨d.nodes.push ⟨kind, none, []⟩⟩)

/-- Takes a node out from under its parent. -/
def detach (d : Document) (id : NodeId) : Document :=
  match (d.node id).parent with
  | none => d
  | some p =>
    (d.modify id fun n => { n with parent := none }).modify p fun n =>
      { n with children := n.children.filter (· ≠ id) }

/-- Puts a node last under another. -/
def appendNode (d : Document) (parent id : NodeId) : Document :=
  ((d.detach id).modify id fun n => { n with parent := some parent }).modify parent fun n =>
    { n with children := n.children ++ [id] }

/-- The text that stands last under a node. -/
def lastText? (d : Document) (parent : NodeId) : Option (NodeId × Text) :=
  match (d.node parent).children.getLast? with
  | none => none
  | some last =>
    match (d.node last).kind with
    | .text t => some (last, t)
    | _ => none

/-- Puts text last under a node. -/
def appendText (d : Document) (parent : NodeId) (t : Text) : Document :=
  match d.lastText? parent with
  | some (last, before) => d.modify last fun n => { n with kind := .text (before ++ t) }
  | none =>
    let (id, d) := d.create (.text t)
    d.appendNode parent id

/-- Puts a node or text last under a node. -/
def append (d : Document) (parent : NodeId) : Child → Document
  | .node id => d.appendNode parent id
  | .text t => d.appendText parent t

/-- The list with `id` before `sibling`, or at the end if that is not in it. -/
def insertBefore (id sibling : NodeId) : List NodeId → List NodeId
  | [] => [id]
  | c :: cs => if c = sibling then id :: c :: cs else c :: insertBefore id sibling cs

/-- Puts a node directly before a sibling under the given parent. -/
def placeBefore (d : Document) (parent sibling id : NodeId) : Document :=
  ((d.detach id).modify id fun n => { n with parent := some parent }).modify parent fun n =>
    { n with children := insertBefore id sibling n.children }

/-- Puts a node or text directly before a sibling; nothing happens if that stands nowhere. -/
def appendBeforeSibling (d : Document) (sibling : NodeId) (child : Child) : Document :=
  match (d.node sibling).parent with
  | none => d
  | some p =>
    match child with
    | .node id => d.placeBefore p sibling id
    | .text t =>
      let (id, d) := d.create (.text t)
      d.placeBefore p sibling id

/-- Puts a node or text before an element if that stands somewhere, and otherwise last under
another element. -/
def appendBasedOnParent (d : Document) (element previous : NodeId) (child : Child) : Document :=
  if (d.node element).parent.isSome then d.appendBeforeSibling element child
  else d.append previous child

/-- Gives an element those of the given attributes that it does not have. -/
def addMissingAttributes (d : Document) (id : NodeId) (attributes : List Attribute) : Document :=
  d.modify id fun n =>
    match n.kind with
    | .element e => { n with kind := .element (e.addMissing attributes) }
    | _ => n

/-- Moves the children of one node to the end of another's. -/
def reparentChildren (d : Document) (source target : NodeId) : Document :=
  let moved := (d.node source).children
  let d := d.modify source fun n => { n with children := [] }
  let d := moved.foldl (fun d id => d.modify id fun n => { n with parent := some target }) d
  d.modify target fun n => { n with children := n.children ++ moved }

end Document

end Cull.Markup
