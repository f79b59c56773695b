import LosslessEbnf.Text.Escape
import LosslessEbnf.Tree.Walk

/-!
# Listing a tree

A listing shows a tree on lines of text, one for each node.

## Main Definitions

* `Node.line` — the line of one node
* `Tree.listingAt` — the lines of a subtree
* `Tree.listing` — the lines of the whole tree under a header with the counters
* `fit` — a text on a page of limited room

## Design Notes

A line shows the kind and the span of its node, and in front of them the text that a leaf holds.
Each level of the tree is set one tab further in than the level above.
-/

namespace LosslessEbnf

/-- The line of a node in the listing of a subtree whose top is at depth `base`. -/
def Node.line (base : Nat) (node : Node) (glyphs : Text.Glyphs := .unicode) : String :=
  let tabs := String.ofList (List.replicate (node.depth - base) '\t')
  let held :=
    if node.kind.isLeaf then "(" ++ String.ofList (Text.escape node.data.toList glyphs) ++ ")"
    else ""
  tabs ++ held ++ node.kind.name ++ ":" ++ node.span.format ++ "\n"

namespace Tree

/-- The lines of the subtree at `id`. -/
def listingAt (tree : Tree) (id : NodeId) (glyphs : Text.Glyphs := .unicode) : String :=
  String.join (((tree.preorder id).filterMap tree.get?).map fun node =>
    node.line (tree.depth id) glyphs)

/-- The line above the listing of a whole tree. -/
def header (tree : Tree) : String :=
  "ParseTree\x7bcount = " ++ tree.count.repr ++ ", height = " ++ tree.height.repr ++
    ", max_degree = " ++ tree.maxDegree.repr ++ "\x7d:\n"

/-- The listing of the whole tree with the counters on top. -/
def listing (tree : Tree) (glyphs : Text.Glyphs := .unicode) : String :=
  tree.header ++ tree.listingAt root glyphs

end Tree

/-- A text on a page with room for `limit` characters; a longer text does not fit. -/
def fit (limit : Nat) (text : String) : Option String :=
  if text.length ≤ limit then some text else none

end LosslessEbnf
