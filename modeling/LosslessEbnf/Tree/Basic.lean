import LosslessEbnf.Node

/-!
# Trees

A tree keeps its nodes in a table and knows each of them by its place there.

## Main Definitions

* `Tree` — the table of nodes with three counters
* `Tree.empty` — a root and nothing else
* `Tree.pushChild` — a new last child of a node
* `Tree.withKind`, `Tree.withFirst`, `Tree.withLast`, `Tree.withData`, `Tree.pushText`,
  `Tree.extend` — changes to what a node holds

## Design Notes

The counters are kept up to date as nodes are added and are never recomputed. Nothing is ever taken
out of a tree. All operations are total: a change to a node that the tree does not have changes
nothing, and a child of such a node has depth 1.
-/

namespace LosslessEbnf

/-- A table of nodes, the first of which is the root. -/
structure Tree where
  /-- The nodes. -/
  nodes : Array Node
  /-- How many nodes there are. -/
  count : Nat
  /-- The greatest depth of a node. -/
  height : Nat
  /-- The greatest number of children of one node. -/
  maxDegree : Nat
  deriving DecidableEq, Repr

namespace Tree

/-- The tree that holds only its root. -/
def empty : Tree := ⟨#[.emptyRoot], 1, 0, 0⟩

instance : Inhabited Tree := ⟨empty⟩

/-- The number of the root. -/
def root : NodeId := 0

/-- The number of entries in the table; it is the number that the next node gets. -/
def size (tree : Tree) : Nat := tree.nodes.size

/-- Whether nothing was attached below the root. -/
def isBare (tree : Tree) : Bool := tree.size == 1

/-- The node with the given number. -/
def get? (tree : Tree) (id : NodeId) : Option Node := tree.nodes[id]?

/-- The children of a node. -/
def children (tree : Tree) (id : NodeId) : List NodeId :=
  ((tree.get? id).map Node.children).getD []

/-- The depth of a node. -/
def depth (tree : Tree) (id : NodeId) : Nat :=
  ((tree.get? id).map Node.depth).getD 0

/-- The text that a node holds itself. -/
def data (tree : Tree) (id : NodeId) : String :=
  ((tree.get? id).map Node.data).getD ""

/-- The span of a node. -/
def span (tree : Tree) (id : NodeId) : Span :=
  ((tree.get? id).map Node.span).getD .start

/-- Adds a node as the last child of `parent`. The new node gets the number `tree.size`. -/
def pushChild (tree : Tree) (parent : NodeId) (kind : Kind) (span : Span) (data : String := "") :
    Tree :=
  let id := tree.size
  let depth := tree.depth parent + 1
  let degree := (tree.children parent).length + 1
  let nodes := tree.nodes.modify parent fun node => { node with children := node.children ++ [id] }
  { nodes := nodes.push { kind, parent := some parent, children := [], depth, span, data }
    count := tree.count + 1
    height := max tree.height depth
    maxDegree := max tree.maxDegree degree }

/-- Changes one node. -/
def update (tree : Tree) (id : NodeId) (change : Node → Node) : Tree :=
  { tree with nodes := tree.nodes.modify id change }

/-- Sets the kind of a node. -/
def withKind (tree : Tree) (id : NodeId) (kind : Kind) : Tree :=
  tree.update id fun node => { node with kind }

/-- Sets the span of a node. -/
def withSpan (tree : Tree) (id : NodeId) (span : Span) : Tree :=
  tree.update id fun node => { node with span }

/-- Sets where a node starts. -/
def withFirst (tree : Tree) (id : NodeId) (first : Position) : Tree :=
  tree.update id fun node => { node with span := { node.span with first } }

/-- Sets where a node ends. -/
def withLast (tree : Tree) (id : NodeId) (last : Position) : Tree :=
  tree.update id fun node => { node with span := { node.span with last } }

/-- Sets the text of a node. -/
def withData (tree : Tree) (id : NodeId) (data : String) : Tree :=
  tree.update id fun node => { node with data }

/-- Puts one more character at the end of the text of a node. -/
def pushText (tree : Tree) (id : NodeId) (c : Char) : Tree :=
  tree.update id fun node => { node with data := node.data.push c }

/-- Puts the character at `here` at the end of the text of a node and ends the node there. -/
def extend (tree : Tree) (id : NodeId) (c : Char) (here : Position) : Tree :=
  (tree.pushText id c).withLast id here

/-- Ends a node where its last child ends. A node without children stays as it is. -/
def closeAtLastChild (tree : Tree) (id : NodeId) : Tree :=
  match (tree.children id).getLast? with
  | some child => tree.withLast id (tree.span child).last
  | none => tree

/-! ### Changed trees

What each change does to the size of a tree and to the nodes that are found in it. -/

@[simp] theorem size_empty : empty.size = 1 := rfl

@[simp] theorem size_update (tree : Tree) (id : NodeId) (change : Node → Node) :
    (tree.update id change).size = tree.size := by
  simp [update, size]

@[simp] theorem size_pushChild (tree : Tree) (parent : NodeId) (kind : Kind) (span : Span)
    (data : String) : (tree.pushChild parent kind span data).size = tree.size + 1 := by
  simp [pushChild, size]

@[simp] theorem size_closeAtLastChild (tree : Tree) (id : NodeId) :
    (tree.closeAtLastChild id).size = tree.size := by
  unfold closeAtLastChild
  split
  · exact size_update ..
  · rfl

/-- The numbers of the nodes are those below the size. -/
theorem isSome_get?_iff {tree : Tree} {id : NodeId} : (tree.get? id).isSome ↔ id < tree.size := by
  simp [get?, size]

/-- A change to one node leaves the other nodes as they are. -/
theorem get?_update (tree : Tree) (id other : NodeId) (change : Node → Node) :
    (tree.update id change).get? other =
      if id = other then (tree.get? other).map change else tree.get? other := by
  simp [update, get?, Array.getElem?_modify]

theorem get?_update_self (tree : Tree) (id : NodeId) (change : Node → Node) :
    (tree.update id change).get? id = (tree.get? id).map change := by
  simp [get?_update]

theorem get?_update_of_ne {tree : Tree} {id other : NodeId} {change : Node → Node}
    (h : id ≠ other) : (tree.update id change).get? other = tree.get? other := by
  simp [get?_update, h]

/-- The new child stands at the end of the table. -/
theorem get?_pushChild_size (tree : Tree) (parent : NodeId) (kind : Kind) (span : Span)
    (data : String) :
    (tree.pushChild parent kind span data).get? tree.size =
      some ⟨kind, some parent, [], tree.depth parent + 1, span, data⟩ := by
  simp only [pushChild, get?, size, Array.getElem?_push, Array.size_modify, if_true]

/-- Of the nodes that were there before, only the parent changes: it has one more child. -/
theorem get?_pushChild_of_ne {tree : Tree} {parent id : NodeId} {kind : Kind} {span : Span}
    {data : String} (h : id ≠ tree.size) :
    (tree.pushChild parent kind span data).get? id =
      if parent = id then
        (tree.get? id).map fun node => { node with children := node.children ++ [tree.size] }
      else tree.get? id := by
  simp only [size] at h
  simp [pushChild, get?, size, Array.getElem?_push, Array.getElem?_modify, h]

end Tree

end LosslessEbnf
