import LosslessEbnf.Kind
import LosslessEbnf.Position
import LosslessEbnf.Text.Natural

/-!
# Nodes

## Main Definitions

* `Node` — a node of a tree, with its links to the nodes around it
* `Node.value?` — the number that a node of digits stands for
-/

namespace LosslessEbnf

/-- A node of a tree. -/
structure Node where
  /-- What the node was read as. -/
  kind : Kind
  /-- The node above it; only the root has none. -/
  parent : Option NodeId
  /-- The nodes below it, in the order of the text. -/
  children : List NodeId
  /-- How many steps it is below the root. -/
  depth : Nat
  /-- Where its text stands. -/
  span : Span
  /-- The text that a leaf holds; other nodes hold none. -/
  data : String
  deriving DecidableEq, Repr

namespace Node

/-- A root without children. -/
def emptyRoot : Node := ⟨.root, none, [], 0, .start, ""⟩

instance : Inhabited Node := ⟨emptyRoot⟩

/-- The value of a number, if it fits into a word. Other nodes have no value, and neither have
digits other than `0` to `9`. -/
def value? (node : Node) : Option Nat :=
  match node.kind with
  | .number => Text.word? node.data.toList
  | _ => none

end Node

end LosslessEbnf
