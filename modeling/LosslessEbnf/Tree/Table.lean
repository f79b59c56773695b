import LosslessEbnf.Tree.Basic
import LosslessEbnf.Text.Natural

/-!
# Tables of nodes that form a tree

A table of nodes from outside may have links that lead nowhere or do not agree with each other. It
is checked before it is taken for a tree.

## Main Definitions

* `Defect` — a reason why a table of nodes is no tree
* `Halt` — what ends a check early, a defect or an addition without a result
* `NodeTable` — a table of nodes with the counters it comes with
* `Tree.ofNodes` — the tree of a table of nodes, or what ended the check
* `NodeTable.toTree` — the same with the counters compared
* `checkedBelow` — the depth of a child in words of 64 bits

## Design Notes

The nodes are checked in one pass in the order of the table, each node together with its list of
children. The check knows the depth of a child only through a function on depths, which may have no
result: depths of tables from outside are words, and below the greatest word there is none. Where
the check asks for the depth there, the whole program breaks off. That is an outcome of its own and
not one more defect, since nothing is reported of the table.
-/

namespace LosslessEbnf

/-- The counters of a tree. -/
inductive Counter
  /-- How many nodes there are. -/
  | count
  /-- The greatest depth. -/
  | height
  /-- The greatest number of children. -/
  | maxDegree
  deriving DecidableEq, Repr

/-- The name of the counter. -/
def Counter.name : Counter → String
  | count => "count"
  | height => "height"
  | maxDegree => "max_degree"

/-- Why a table of nodes is no tree. -/
inductive Defect
  /-- There is no node at all. -/
  | noNodes
  /-- The first node is not a root at depth 0 with nothing above it. -/
  | noRoot
  /-- The node refers to a number that no node has. -/
  | unknownNode (node : NodeId) (target : Nat)
  /-- The parent lists a child that does not point back to it. -/
  | oneSidedLink (parent child : NodeId)
  /-- The node is listed as a child a second time. -/
  | listedTwice (node : NodeId)
  /-- No node lists this one as a child. -/
  | unlisted (node : NodeId)
  /-- The node is not one step below the node that lists it. -/
  | depthMismatch (node : NodeId) (found expected : Nat)
  /-- The counter does not agree with the nodes. -/
  | counterMismatch (counter : Counter) (found expected : Nat)
  deriving DecidableEq, Repr

/-- The message that reports a defect. -/
def Defect.message : Defect → String
  | noNodes => "tree has no nodes"
  | noRoot => "node #0 must be a root without parent at depth 0"
  | unknownNode node target =>
    "node " ++ node.label ++ " refers to node " ++ NodeId.label target ++ ", which does not exist"
  | oneSidedLink parent child =>
    "node " ++ parent.label ++ " lists " ++ child.label ++ " as a child, but " ++ child.label ++
      " does not point back"
  | listedTwice node => "node " ++ node.label ++ " is listed as a child more than once"
  | unlisted node => "node " ++ node.label ++ " is not attached to the tree"
  | depthMismatch node found expected =>
    "node " ++ node.label ++ " is at depth " ++ found.repr ++ ", expected " ++ expected.repr
  | counterMismatch counter found expected =>
    counter.name ++ " is " ++ found.repr ++ ", the nodes give " ++ expected.repr

/-- Why a check ends early. -/
inductive Halt
  /-- The table has a defect. -/
  | defect (defect : Defect)
  /-- There is no depth below the one of a node that has children: the program breaks off. -/
  | overflow
  deriving DecidableEq, Repr

/-- The depth of a child in words of 64 bits, and none below the greatest word. -/
def checkedBelow (depth : Nat) : Option Nat :=
  if depth + 1 < Text.wordSize then some (depth + 1) else none

theorem checkedBelow_eq_some_iff {depth expected : Nat} :
    checkedBelow depth = some expected ↔ depth + 1 < Text.wordSize ∧ expected = depth + 1 := by
  unfold checkedBelow
  split
  · rename_i hlt
    simp [hlt, eq_comm]
  · rename_i hle
    simp [hle]

theorem checkedBelow_eq_none_iff {depth : Nat} :
    checkedBelow depth = none ↔ Text.wordSize ≤ depth + 1 := by
  unfold checkedBelow
  split <;> simp_all

/-- Whether a node can be the root of a tree. -/
def Node.isRoot (node : Node) : Bool :=
  node.kind == .root && node.parent.isNone && node.depth == 0

theorem Node.isRoot_iff {node : Node} :
    node.isRoot = true ↔ node.kind = .root ∧ node.parent = none ∧ node.depth = 0 := by
  simp [isRoot, and_assoc]

namespace Tree

/-- Checks that a node refers to some node of the table. -/
def checkTarget (nodes : Array Node) (id : NodeId) (target : Nat) : Except Halt Unit :=
  if target < nodes.size then .ok () else .error (.defect (.unknownNode id target))

/-- Checks one entry in the list of children of the node `id` at the given depth. `met` holds the
children met so far, and gains this one. The depth of the child is asked for last. -/
def checkChild (below : Nat → Option Nat) (nodes : Array Node) (id : NodeId) (depth : Nat)
    (met : List NodeId) (child : NodeId) : Except Halt (List NodeId) :=
  match nodes[child]? with
  | none => .error (.defect (.unknownNode id child))
  | some node =>
    if node.parent ≠ some id then .error (.defect (.oneSidedLink id child))
    else if child ∈ met then .error (.defect (.listedTwice child))
    else
      match below depth with
      | none => .error .overflow
      | some expected =>
        if node.depth ≠ expected then .error (.defect (.depthMismatch child node.depth expected))
        else .ok (child :: met)

/-- Checks the links of one node, first those to components, then the one to the parent, then the
children. -/
def checkNode (below : Nat → Option Nat) (nodes : Array Node) (met : List NodeId)
    (entry : Node × NodeId) : Except Halt (List NodeId) := do
  (entry.1.kind.components ++ entry.1.parent.toList).forM (checkTarget nodes entry.2)
  entry.1.children.foldlM (checkChild below nodes entry.2 entry.1.depth) met

/-- Checks the links of all nodes and gives the children that were met. -/
def checkLinks (below : Nat → Option Nat) (nodes : Array Node) : Except Halt (List NodeId) :=
  nodes.toList.zipIdx.foldlM (checkNode below nodes) []

/-- The first node but the root that is nobody's child. -/
def firstUnlisted (size : Nat) (met : List NodeId) : Option NodeId :=
  ((List.range size).drop 1).find? (· ∉ met)

/-- A table of nodes with the counters that belong to it. -/
def counted (nodes : Array Node) : Tree :=
  { nodes
    count := nodes.size
    height := nodes.foldl (fun height node => max height node.depth) 0
    maxDegree := nodes.foldl (fun degree node => max degree node.children.length) 0 }

/-- The tree of a table of nodes, or what ended the check. `below` gives the depth of a child. -/
def ofNodes (below : Nat → Option Nat) (nodes : Array Node) : Except Halt Tree :=
  match nodes[0]? with
  | none => .error (.defect .noNodes)
  | some first =>
    if first.isRoot then do
      let met ← checkLinks below nodes
      match firstUnlisted nodes.size met with
      | some id => .error (.defect (.unlisted id))
      | none => .ok (counted nodes)
    else .error (.defect .noRoot)

/-! ### What the checks let through -/

theorem checkTarget_eq_ok_iff {nodes : Array Node} {id : NodeId} {target : Nat} {u : Unit} :
    checkTarget nodes id target = .ok u ↔ target < nodes.size := by
  unfold checkTarget
  split <;> simp_all

/-- An entry passes if it is a node that points back, was not met before, and is one step further
down. -/
theorem checkChild_eq_ok_iff {below : Nat → Option Nat} {nodes : Array Node} {id : NodeId}
    {depth : Nat} {met met' : List NodeId} {child : NodeId} :
    checkChild below nodes id depth met child = .ok met' ↔
      (∃ node, nodes[child]? = some node ∧ node.parent = some id ∧
        below depth = some node.depth) ∧ child ∉ met ∧ met' = child :: met := by
  unfold checkChild
  cases nodes[child]? with
  | none => simp
  | some node =>
    simp only [Option.some.injEq, exists_eq_left']
    repeat' split
    all_goals simp_all [eq_comm]

end Tree

/-- A table of nodes from outside, with the counters that it comes with. -/
structure NodeTable where
  /-- The nodes. -/
  nodes : Array Node
  /-- The number of nodes. -/
  count : Nat
  /-- The greatest depth. -/
  height : Nat
  /-- The greatest number of children. -/
  maxDegree : Nat
  deriving DecidableEq, Repr

namespace NodeTable

/-- Checks a counter of a table against the one that the nodes give. -/
def checkCounter (counter : Counter) (found expected : Nat) : Except Halt Unit :=
  if found = expected then .ok () else .error (.defect (.counterMismatch counter found expected))

theorem checkCounter_eq_ok_iff {counter : Counter} {found expected : Nat} {u : Unit} :
    checkCounter counter found expected = .ok u ↔ found = expected := by
  unfold checkCounter
  split <;> simp_all

/-- Takes a table with its counters for a tree. The nodes are checked before the counters. -/
def toTree (table : NodeTable) (below : Nat → Option Nat := checkedBelow) : Except Halt Tree := do
  let tree ← Tree.ofNodes below table.nodes
  checkCounter .count table.count tree.count
  checkCounter .height table.height tree.height
  checkCounter .maxDegree table.maxDegree tree.maxDegree
  return tree

end NodeTable

/-- The table of a tree with its counters. -/
def Tree.toTable (tree : Tree) : NodeTable :=
  ⟨tree.nodes, tree.count, tree.height, tree.maxDegree⟩

end LosslessEbnf
