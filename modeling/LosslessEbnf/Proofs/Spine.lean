import LosslessEbnf.Proofs.Forest

/-!
# Open nodes

While a text is read, the nodes that can still grow are those on the right edge of the tree. They
are kept as a spine: each open node with the trees below it that are complete.

## Main Definitions

* `OpenNode`, `Spine` — an open node, and the open nodes from the innermost to the root
* `Tree.Shows` — the table of a tree is the one that a spine stands for

## Main Statements

* `Tree.Shows.push`, `Tree.Shows.close`, `Tree.Shows.relabel` — what the changes of a tree do to
  its spine
* `Tree.Shows.text` — the text of a tree is the text of its spine

## Design Notes

A spine determines its table, so every change of a tree is a change at the top of the spine. To
close a node changes the spine but not the table: a complete tree is an open node that nobody will
change any more.
-/

namespace LosslessEbnf

/-- An open node with the complete trees below it. -/
structure OpenNode where
  /-- What the node says of itself so far. -/
  label : Label
  /-- The complete trees below the node. -/
  below : Forest

/-- The open nodes, the innermost first and the root last. -/
abbrev Spine := List OpenNode

namespace OpenNode

/-- An open node with nothing below it. -/
def bare (label : Label) : OpenNode := ⟨label, .nil⟩

/-- The open node with one more complete tree below it. -/
def add (node child : OpenNode) : OpenNode :=
  ⟨node.label, node.below ++ .single child.label child.below⟩

/-- The text of a node and of what is below it. -/
def text (node : OpenNode) : List Char := node.label.data.toList ++ node.below.text

@[simp] theorem label_bare (label : Label) : (bare label).label = label := rfl

@[simp] theorem below_bare (label : Label) : (bare label).below = .nil := rfl

@[simp] theorem text_bare (label : Label) : (bare label).text = label.data.toList := by
  simp [text]

@[simp] theorem label_add (node child : OpenNode) : (node.add child).label = node.label := rfl

@[simp] theorem text_add (node child : OpenNode) :
    (node.add child).text = node.text ++ child.text := by
  simp [text, add]

end OpenNode

namespace Spine

/-- The number of nodes, those below the open nodes included. -/
def size : Spine → Nat
  | [] => 0
  | node :: outer => size outer + 1 + node.below.size

/-- The text that was read into the tree. -/
def text : Spine → List Char
  | [] => []
  | node :: outer => text outer ++ node.text

/-- The number of the innermost open node. -/
def top? : Spine → Option NodeId
  | [] => none
  | _ :: outer => some (size outer)

/-- The table that the spine stands for, if `more` are further children of the innermost node. -/
def table (more : List NodeId) : Spine → List Node
  | [] => []
  | ⟨label, below⟩ :: outer =>
    table [size outer] outer ++
      ⟨label.kind, top? outer, below.roots (size outer + 1) ++ more, outer.length, label.span,
          label.data⟩ ::
        below.table (some (size outer)) (outer.length + 1) (size outer + 1)

@[simp] theorem size_nil : size [] = 0 := rfl

@[simp] theorem size_cons (node : OpenNode) (outer : Spine) :
    size (node :: outer) = size outer + 1 + node.below.size := rfl

@[simp] theorem text_nil : text [] = [] := rfl

@[simp] theorem text_cons (node : OpenNode) (outer : Spine) :
    text (node :: outer) = text outer ++ node.text := rfl

/-- A node that has just begun holds no text. -/
theorem text_bare_cons (kind : Kind) (span : Span) (outer : Spine) :
    text (.bare ⟨kind, span, ""⟩ :: outer) = text outer := by
  rw [text_cons, OpenNode.text_bare, String.toList_empty, List.append_nil]

theorem table_cons (more : List NodeId) (node : OpenNode) (outer : Spine) :
    table more (node :: outer) =
      table [size outer] outer ++
        ⟨node.label.kind, top? outer, node.below.roots (size outer + 1) ++ more, outer.length,
            node.label.span, node.label.data⟩ ::
          node.below.table (some (size outer)) (outer.length + 1) (size outer + 1) := rfl

@[simp] theorem length_table (more : List NodeId) (spine : Spine) :
    (spine.table more).length = spine.size := by
  induction spine generalizing more with
  | nil => rfl
  | cons node outer ih =>
    rw [table_cons, List.length_append, ih, List.length_cons, Forest.length_table, size_cons]
    omega

/-- A node that is closed stands in the same table as a tree below the node around it. -/
theorem table_close (node host : OpenNode) (outer : Spine) :
    table [] (node :: host :: outer) = table [] (host.add node :: outer) := by
  rw [table_cons, table_cons, table_cons, List.append_assoc, List.cons_append]
  simp [OpenNode.add, Forest.roots_append, Forest.table_append, Forest.single, Forest.table_cons,
    top?]

end Spine

/-- The table of the tree is the one that the spine stands for. -/
def Tree.Shows (tree : Tree) (spine : Spine) : Prop :=
  tree.nodes.toList = spine.table []

namespace Tree

/-- The label of a root before anything is read. -/
def rootLabel : Label := ⟨.root, .start, ""⟩

theorem shows_empty : empty.Shows [.bare rootLabel] := rfl

/-- A change of one node of a table at a known place. -/
theorem modify_append_cons {α : Type _} {front after : List α} {a : α} {change : α → α} {i : Nat}
    (h : front.length = i) :
    (front ++ a :: after).modify i change = front ++ change a :: after := by
  subst h
  induction front with
  | nil => rfl
  | cons b front ih =>
    rw [List.cons_append, List.length_cons, List.modify_succ_cons, ih]
    rfl

namespace Shows

variable {tree : Tree} {node : OpenNode} {outer : Spine}

theorem size_eq {spine : Spine} (h : tree.Shows spine) : tree.size = spine.size := by
  rw [Tree.size, ← Array.length_toList, h, Spine.length_table]

/-- The innermost open node stands in the table behind the nodes of the spine around it. -/
theorem get?_top (h : tree.Shows (node :: outer)) :
    tree.get? outer.size = some ⟨node.label.kind, outer.top?,
      node.below.roots (outer.size + 1), outer.length, node.label.span, node.label.data⟩ := by
  have hlength := Spine.length_table [outer.size] outer
  rw [Tree.get?, ← Array.getElem?_toList, h, Spine.table_cons,
    List.getElem?_append_right (Nat.le_of_eq hlength), hlength, Nat.sub_self,
    List.getElem?_cons_zero, List.append_nil]

theorem data_top (h : tree.Shows (node :: outer)) : tree.data outer.size = node.label.data := by
  rw [Tree.data, h.get?_top]
  rfl

/-- What is below the innermost open node stands in the table right behind it. -/
theorem holds_below (h : tree.Shows (node :: outer)) :
    tree.Holds (some outer.size) (outer.length + 1) (outer.size + 1) node.below := by
  have hdrop : tree.nodes.toList.drop (outer.size + 1) =
      node.below.table (some outer.size) (outer.length + 1) (outer.size + 1) ++ [] := by
    rw [List.append_nil, h, Spine.table_cons, ← List.drop_drop,
      List.drop_left' (Spine.length_table ..), List.drop_one, List.tail_cons]
  exact Tree.holds_of_drop hdrop

/-- A node that is closed changes the spine but not the tree. -/
theorem close {host : OpenNode} (h : tree.Shows (node :: host :: outer)) :
    tree.Shows (host.add node :: outer) :=
  h.trans (Spine.table_close node host outer)

/-- The last tree below the innermost open node can be opened again. -/
theorem reopen {host : OpenNode} (h : tree.Shows (host.add node :: outer)) :
    tree.Shows (node :: host :: outer) :=
  h.trans (Spine.table_close node host outer).symm

/-- A change of the innermost open node that leaves its links alone. -/
theorem relabel {change : Node → Node} {label : Label} (h : tree.Shows (node :: outer))
    (hchange : ∀ parent children depth,
      change ⟨node.label.kind, parent, children, depth, node.label.span, node.label.data⟩ =
        ⟨label.kind, parent, children, depth, label.span, label.data⟩) :
    (tree.update outer.size change).Shows (⟨label, node.below⟩ :: outer) := by
  rw [Tree.Shows, Tree.update, Array.toList_modify, h, Spine.table_cons, Spine.table_cons,
    modify_append_cons (Spine.length_table ..), hchange]

theorem withKind (h : tree.Shows (node :: outer)) (kind : Kind) :
    (tree.withKind outer.size kind).Shows (⟨{ node.label with kind }, node.below⟩ :: outer) :=
  h.relabel fun _ _ _ => rfl

theorem withSpan (h : tree.Shows (node :: outer)) (span : Span) :
    (tree.withSpan outer.size span).Shows (⟨{ node.label with span }, node.below⟩ :: outer) :=
  h.relabel fun _ _ _ => rfl

theorem withFirst (h : tree.Shows (node :: outer)) (first : Position) :
    (tree.withFirst outer.size first).Shows
      (⟨{ node.label with span := ⟨first, node.label.span.last⟩ }, node.below⟩ :: outer) :=
  h.relabel fun _ _ _ => rfl

theorem withLast (h : tree.Shows (node :: outer)) (last : Position) :
    (tree.withLast outer.size last).Shows
      (⟨{ node.label with span := ⟨node.label.span.first, last⟩ }, node.below⟩ :: outer) :=
  h.relabel fun _ _ _ => rfl

theorem withData (h : tree.Shows (node :: outer)) (data : String) :
    (tree.withData outer.size data).Shows (⟨{ node.label with data }, node.below⟩ :: outer) :=
  h.relabel fun _ _ _ => rfl

theorem pushText (h : tree.Shows (node :: outer)) (c : Char) :
    (tree.pushText outer.size c).Shows
      (⟨{ node.label with data := node.label.data.push c }, node.below⟩ :: outer) :=
  h.relabel fun _ _ _ => rfl

theorem extend (h : tree.Shows (node :: outer)) (c : Char) (here : Position) :
    (tree.extend outer.size c here).Shows
      (⟨⟨node.label.kind, ⟨node.label.span.first, here⟩, node.label.data.push c⟩, node.below⟩ ::
        outer) :=
  (h.pushText c).withLast here

/-- A new child of the innermost open node is the innermost open node from then on. -/
theorem push (h : tree.Shows (node :: outer)) (kind : Kind) (span : Span) (data : String) :
    (tree.pushChild outer.size kind span data).Shows
      (.bare ⟨kind, span, data⟩ :: node :: outer) := by
  have hdepth : tree.depth outer.size = outer.length := by
    rw [Tree.depth, h.get?_top]
    rfl
  rw [Tree.Shows, Tree.pushChild, Array.toList_push, Array.toList_modify, h, hdepth, h.size_eq,
    Spine.table_cons, Spine.table_cons, Spine.table_cons,
    modify_append_cons (Spine.length_table ..)]
  simp [Spine.top?]

/-- The innermost open node ends where the last tree below it ends. -/
theorem closeAtLastChild {front : Forest} {top : Label} {below : Forest}
    (h : tree.Shows (node :: outer)) (hbelow : node.below = front ++ .single top below) :
    (tree.closeAtLastChild outer.size).Shows
      (⟨{ node.label with span := ⟨node.label.span.first, top.span.last⟩ }, node.below⟩ ::
        outer) := by
  have hchildren : tree.children outer.size = node.below.roots (outer.size + 1) := by
    rw [Tree.children, h.get?_top]
    rfl
  have hlast : (tree.children outer.size).getLast? = some (outer.size + 1 + front.size) := by
    rw [hchildren, hbelow, Forest.roots_append]
    exact List.getLast?_concat
  have hholds := h.holds_below
  rw [hbelow] at hholds
  have hspan : tree.span (outer.size + 1 + front.size) = top.span := by
    rw [Tree.span, hholds.of_append.1]
    rfl
  rw [Tree.closeAtLastChild, hlast]
  change (tree.withLast outer.size (tree.span (outer.size + 1 + front.size)).last).Shows _
  rw [hspan]
  exact h.withLast _

/-- The text of a tree is the text of its spine. -/
theorem text (h : tree.Shows (node :: outer)) :
    tree.text.toList = Spine.text (node :: outer) := by
  -- closing the innermost node leaves the table as it is, so the induction goes outwards
  induction outer generalizing node with
  | nil =>
    have hroot : tree.Holds none 0 0 (.single node.label node.below) := by
      refine ⟨?_, h.holds_below, trivial⟩
      exact h.get?_top
    rw [Tree.text, Tree.root, Tree.textAt_of_holds hroot (by rw [h.size_eq]; simp),
      Spine.text_cons]
    rfl
  | cons host outer ih =>
    rw [ih h.close, Spine.text_cons, Spine.text_cons, Spine.text_cons, OpenNode.text_add,
      List.append_assoc]

end Shows

end Tree

end LosslessEbnf
