import LosslessEbnf.Tree.Basic

/-!
# Walking a tree

## Main Definitions

* `Tree.walk` — the nodes that are reached from a stack of pending nodes
* `Tree.preorder` — the nodes of a subtree, each before its children
* `Tree.textAt` — the text of a subtree
* `Tree.text` — the text of the whole tree
* `Tree.writeAt` — the text of a subtree, written node by node

## Design Notes

The walk takes the node on top of the stack and puts its children on top in its place. In a tree
every node is met once, so a walk of as many steps as there are nodes is long enough.
-/

namespace LosslessEbnf.Tree

/-- The nodes met in the given number of steps, starting from a stack of pending nodes. -/
def walk (tree : Tree) : Nat → List NodeId → List NodeId
  | 0, _ => []
  | _ + 1, [] => []
  | steps + 1, id :: pending => id :: tree.walk steps (tree.children id ++ pending)

@[simp] theorem walk_zero (tree : Tree) (pending : List NodeId) : tree.walk 0 pending = [] := rfl

@[simp] theorem walk_nil (tree : Tree) (steps : Nat) : tree.walk steps [] = [] := by
  cases steps <;> rfl

@[simp] theorem walk_succ_cons (tree : Tree) (steps : Nat) (id : NodeId) (pending : List NodeId) :
    tree.walk (steps + 1) (id :: pending) =
      id :: tree.walk steps (tree.children id ++ pending) := rfl

/-- The nodes of the subtree at `id`, `id` itself first and each node before its children. -/
def preorder (tree : Tree) (id : NodeId) : List NodeId :=
  tree.walk tree.size [id]

/-- The text that the subtree at `id` covers. -/
def textAt (tree : Tree) (id : NodeId) : String :=
  String.join ((tree.preorder id).map tree.data)

/-- The text that the whole tree covers. -/
def text (tree : Tree) : String :=
  tree.textAt root

/-- Writes the text that the subtree at `id` covers, node by node, until the writer fails. -/
def writeAt {m : Type → Type} [Monad m] (write : String → m Unit) (tree : Tree) (id : NodeId) :
    m Unit :=
  (tree.preorder id).forM fun node => write (tree.data node)

/-- The writer that keeps what is written. -/
def keep (piece : String) : StateM String Unit :=
  modify (· ++ piece)

end LosslessEbnf.Tree
