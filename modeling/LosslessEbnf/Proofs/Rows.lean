import LosslessEbnf.Proofs.Shape
import LosslessEbnf.Proofs.Spine

/-!
# Rows of forests

The tops of a forest are the children of the node above it. Here the shape of nodes is carried from
the forests to the trees in whose tables they stand.

## Main Definitions

* `Forest.row`, `OpenNode.row` — the tops of a forest as the node above them sees them
* `Forest.Each` — a property of every node of a forest, with the forest below it
* `OpenNode.Formed` — a node that is as its kind demands
* `OpenNode.Linked` — a node whose components are among its children

## Main Statements

* `Tree.Holds.exists_of_each` — what is true of every node of a forest is true of every node of the
  table in which it stands
* `Tree.Shows.wellShaped` — a forest of formed nodes stands in the table of a well-shaped tree

## Design Notes

A property of a node may speak of its number and of the forest below it, but not of where its text
stands in the whole text. So it does not matter which characters a source delivers together.
-/

namespace LosslessEbnf

namespace Forest

theorem append_assoc (left middle right : Forest) :
    left ++ middle ++ right = left ++ (middle ++ right) := by
  induction left with
  | nil => rfl
  | cons top below beside _ ih => rw [cons_append, cons_append, cons_append, ih]

/-- The tops of the forest as the node above them sees them, if the first has the number `number`.
-/
def row (number : NodeId) : Forest → List Child
  | nil => []
  | cons top below beside =>
    ⟨number, top.kind, top.data⟩ :: beside.row (number + 1 + below.size)

@[simp] theorem row_nil (number : NodeId) : nil.row number = [] := rfl

theorem row_cons (number : NodeId) (top : Label) (below beside : Forest) :
    (cons top below beside).row number =
      ⟨number, top.kind, top.data⟩ :: beside.row (number + 1 + below.size) := rfl

@[simp] theorem row_single (number : NodeId) (top : Label) (below : Forest) :
    (single top below).row number = [⟨number, top.kind, top.data⟩] := rfl

theorem row_append (number : NodeId) (left right : Forest) :
    (left ++ right).row number = left.row number ++ right.row (number + left.size) := by
  induction left generalizing number with
  | nil => simp
  | cons top below beside _ ih =>
    rw [cons_append, row_cons, row_cons, ih, size_cons, List.cons_append]
    simp only [Nat.add_assoc]

@[simp] theorem map_id_row (number : NodeId) (forest : Forest) :
    (forest.row number).map Child.id = forest.roots number := by
  induction forest generalizing number with
  | nil => rfl
  | cons top below beside _ ih => rw [row_cons, List.map_cons, ih, roots_cons]

/-- A property of every node of a forest: of its number, and of the node with what is below it. -/
def Each (P : NodeId → OpenNode → Prop) (number : NodeId) : Forest → Prop
  | nil => True
  | cons top below beside =>
    P number ⟨top, below⟩ ∧ below.Each P (number + 1) ∧ beside.Each P (number + 1 + below.size)

section

variable {P Q : NodeId → OpenNode → Prop} {number : NodeId}

theorem each_append {left right : Forest} :
    (left ++ right).Each P number ↔
      left.Each P number ∧ right.Each P (number + left.size) := by
  induction left generalizing number with
  | nil => simp [Each]
  | cons top below beside _ ih =>
    simp only [cons_append, Each, ih, size_cons, Nat.add_assoc, and_assoc]

theorem each_single {top : Label} {below : Forest} :
    (single top below).Each P number ↔ P number ⟨top, below⟩ ∧ below.Each P (number + 1) := by
  simp [single, Each]

theorem each_of_forall (h : ∀ id node, P id node) (number : NodeId) (forest : Forest) :
    forest.Each P number := by
  induction forest generalizing number with
  | nil => trivial
  | cons top below beside ihBelow ihBeside =>
    exact ⟨h number ⟨top, below⟩, ihBelow (number + 1), ihBeside (number + 1 + below.size)⟩

theorem Each.mono {forest : Forest} (h : forest.Each P number)
    (hpq : ∀ id node, P id node → Q id node) : forest.Each Q number := by
  induction forest generalizing number with
  | nil => trivial
  | cons top below beside ihBelow ihBeside =>
    exact ⟨hpq _ _ h.1, ihBelow h.2.1, ihBeside h.2.2⟩

end

end Forest

namespace OpenNode

/-- The children of the node with the number `id`. -/
def row (id : NodeId) (node : OpenNode) : List Child := node.below.row (id + 1)

/-- The number of the next node that begins below the node with the number `id`. -/
def next (id : NodeId) (node : OpenNode) : NodeId := id + 1 + node.below.size

/-- The node is as its kind demands. -/
structure Formed (id : NodeId) (node : OpenNode) : Prop where
  /-- It has the children that its kind demands. -/
  builds : node.label.kind.Builds (node.row id)
  /-- It has the text that its kind demands. -/
  spells : node.label.kind.Spells node.label.data

/-- The components that the kind of the node names are among its children. -/
def Linked (id : NodeId) (node : OpenNode) : Prop :=
  ∀ component ∈ node.label.kind.components, component ∈ node.below.roots (id + 1)

variable {id : NodeId} {node : OpenNode}

theorem row_append (label : Label) (below more : Forest) :
    OpenNode.row id ⟨label, below ++ more⟩ =
      OpenNode.row id ⟨label, below⟩ ++ more.row (next id ⟨label, below⟩) :=
  Forest.row_append ..

theorem row_add_bare (leaf : Label) :
    OpenNode.row id (node.add (bare leaf)) =
      node.row id ++ [⟨next id node, leaf.kind, leaf.data⟩] :=
  Forest.row_append ..

theorem next_add_bare (leaf : Label) : next id (node.add (bare leaf)) = next id node + 1 := by
  rw [next, next, add, Forest.size_append, Forest.size_single]
  rfl

theorem linked_of_row
    (h : ∀ component ∈ node.label.kind.components, ∃ child ∈ node.row id, child.id = component) :
    node.Linked id := by
  intro component hcomponent
  obtain ⟨child, hchild, rfl⟩ := h component hcomponent
  rw [← Forest.map_id_row]
  exact List.mem_map_of_mem hchild

theorem Formed.linked (h : node.Formed id) : node.Linked id :=
  linked_of_row fun _ hcomponent => h.builds.exists_of_component hcomponent

/-- Further children leave the components where they are, since children are numbered from the first
one on. -/
theorem Linked.append {label : Label} {below : Forest} (h : Linked id ⟨label, below⟩)
    (more : Forest) : Linked id ⟨label, below ++ more⟩ := by
  intro component hcomponent
  show component ∈ (below ++ more).roots (id + 1)
  rw [Forest.roots_append]
  exact List.mem_append_left _ (h component hcomponent)

end OpenNode

namespace Tree

variable {tree : Tree} {forest : Forest} {parent : Option NodeId} {depth number : Nat}

/-- The children of a node whose forest stands in the table. -/
theorem Holds.row_eq (h : tree.Holds parent depth number forest) :
    ((forest.roots number).map fun child => ⟨child, tree.kind child, tree.data child⟩) =
      forest.row number := by
  induction forest generalizing number with
  | nil => rfl
  | cons top below beside _ ih =>
    obtain ⟨htop, -, hbeside⟩ := h
    have hkind : tree.kind number = top.kind := by
      rw [Tree.kind, htop]
      rfl
    have hdata : tree.data number = top.data := by
      rw [Tree.data, htop]
      rfl
    rw [Forest.roots_cons, List.map_cons, ih hbeside, hkind, hdata, Forest.row_cons]

/-- What the node has as a child in the table. -/
theorem mem_children_of_hasChild {fits : Kind → Prop} {id child : NodeId}
    (h : HasChild fits (tree.row id) child) :
    child ∈ tree.children id ∧ fits (tree.kind child) := by
  obtain ⟨_, hmem, rfl, hfits⟩ := h
  obtain ⟨child, hchild, rfl⟩ := List.mem_map.mp hmem
  exact ⟨hchild, hfits⟩

/-- What is true of every node of a forest is true of every node of the table that the forest takes
up. -/
theorem Holds.exists_of_each {P : NodeId → OpenNode → Prop} {id : Nat}
    (h : tree.Holds parent depth number forest) (heach : forest.Each P number)
    (hle : number ≤ id) (hlt : id < number + forest.size) :
    ∃ node above depth', tree.get? id = some ⟨node.label.kind, above, node.below.roots (id + 1),
        depth', node.label.span, node.label.data⟩ ∧
      tree.Holds (some id) (depth' + 1) (id + 1) node.below ∧ P id node := by
  induction forest generalizing parent depth number with
  | nil =>
    rw [Forest.size_nil] at hlt
    omega
  | cons top below beside ihBelow ihBeside =>
    obtain ⟨htop, hbelow, hbeside⟩ := h
    obtain ⟨hp, hbelowEach, hbesideEach⟩ := heach
    rw [Forest.size_cons] at hlt
    -- the node is the top of the first tree, or below it, or beside it
    by_cases htopId : id = number
    · subst htopId
      exact ⟨⟨top, below⟩, parent, depth, htop, hbelow, hp⟩
    · by_cases hin : id < number + 1 + below.size
      · exact ihBelow hbelow hbelowEach (by omega) hin
      · exact ihBeside hbeside hbesideEach (by omega) (by omega)

namespace Shows

variable {node : OpenNode} {outer : Spine}

theorem kind_top (h : tree.Shows (node :: outer)) : tree.kind outer.size = node.label.kind := by
  rw [Tree.kind, h.get?_top]
  rfl

theorem children_top (h : tree.Shows (node :: outer)) :
    tree.children outer.size = node.below.roots (outer.size + 1) := by
  rw [Tree.children, h.get?_top]
  rfl

theorem row_top (h : tree.Shows (node :: outer)) : tree.row outer.size = node.row outer.size := by
  rw [Tree.row, h.children_top, h.holds_below.row_eq]
  rfl

theorem size_lt (h : tree.Shows (node :: outer)) : outer.size < tree.size := by
  rw [h.size_eq, Spine.size_cons]
  omega

end Shows

/-- What is true of the root and of every node below it is true of every node of the table. -/
theorem Shows.exists_of_each {P : NodeId → OpenNode → Prop} {root : OpenNode} {id : Nat}
    (h : tree.Shows [root]) (hroot : P 0 root) (hbelow : root.below.Each P 1)
    (hid : id < tree.size) :
    ∃ node above depth', tree.get? id = some ⟨node.label.kind, above, node.below.roots (id + 1),
        depth', node.label.span, node.label.data⟩ ∧
      tree.Holds (some id) (depth' + 1) (id + 1) node.below ∧ P id node := by
  have hholds : tree.Holds none 0 0 (.single root.label root.below) :=
    ⟨h.get?_top, h.holds_below, trivial⟩
  have hlt : id < 0 + (Forest.single root.label root.below).size := by
    rw [h.size_eq, Spine.size_cons, Spine.size_nil] at hid
    rw [Forest.size_single]
    omega
  exact hholds.exists_of_each (Forest.each_single.mpr ⟨hroot, hbelow⟩) (Nat.zero_le id) hlt

/-- A tree of which only the root is open is well-shaped if all its nodes are formed. -/
theorem Shows.wellShaped {root : OpenNode} (h : tree.Shows [root])
    (hroot : root.label.kind = .root) (hformed : root.Formed 0)
    (hbelow : root.below.Each (fun id node => node.Formed id) 1) : tree.WellShaped := by
  have hnode : ∀ id, id < tree.size → (tree.kind id).Builds (tree.row id) ∧
      (tree.kind id).Spells (tree.data id) := by
    intro id hid
    obtain ⟨node, above, depth, hget, hholds, hbuilds, hspells⟩ :=
      h.exists_of_each hformed hbelow hid
    have hchildren : tree.children id = node.below.roots (id + 1) := by
      rw [Tree.children, hget]
      rfl
    rw [Tree.kind, Tree.data, hget, Tree.row, hchildren, hholds.row_eq]
    exact ⟨hbuilds, hspells⟩
  refine ⟨?_, fun id hid => (hnode id hid).1, fun id hid => (hnode id hid).2⟩
  show ((tree.get? (Spine.size [])).map Node.kind).getD .root = .root
  rw [h.get?_top]
  exact hroot

end Tree

end LosslessEbnf
