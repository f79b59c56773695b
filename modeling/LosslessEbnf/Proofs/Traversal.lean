import LosslessEbnf.Proofs.Tables
import LosslessEbnf.Tree.Walk
import Mathlib.Data.List.Perm.Subperm

/-!
# Traversals of trees from outside

The nodes of a table that was taken for a tree may stand in any order. Still the walk from any of
them ends, meets no node twice and nothing but nodes, and goes through the subtrees in their order.

## Main Definitions

* `Tree.Valid` — the table of a tree passes the checks
* `Tree.Yields` — what a walk over a stack of nodes meets until nothing is pending
* `Tree.subtree` — the nodes of a subtree, found by recursion
* `Tree.Traversed` — what is true of the walk from one node

## Main Statements

* `Tree.valid_of_ofNodes`, `Tree.valid_of_ofNodes_wrapped` — a table that passes also does so where
  depths are counted without a limit
* `Tree.Valid.yields_subtree` — the walk and the recursion agree
* `Tree.traversed_of_ofNodes` — the walks of a table that passes

## Design Notes

The walk does not remember what it has met. That it ends and meets nothing twice follows from the
depths, not from the numbers of the nodes: a node in the subtree of another one is further down by
as many steps as its links to parents take to lead there. So the subtrees of two children of one
node have nothing in common, and no subtree has a node outside of its levels.

Depths of tables from outside are words. If the addition wraps around, the depth below the greatest
word is 0, and a cycle would have to pass there. But above a node of some depth there are nodes of
all smaller depths, so a table with a node at the greatest depth has as many nodes as there are
words.
-/

namespace LosslessEbnf

namespace Tree

/-! ### Depths that do not wrap around -/

section

variable {nodes : Array Node} {tree : Tree}

/-- A node of a table that passes is the root, or it is one step below the node that lists it. -/
theorem exists_host_of_ofNodes {below : Nat → Option Nat} (h : ofNodes below nodes = .ok tree)
    {id : NodeId} {node : Node} (hget : nodes[id]? = some node) (hpos : 0 < id) :
    ∃ host ∈ nodes.toList, below host.depth = some node.depth := by
  obtain ⟨-, hlinked, hall, -⟩ := ofNodes_eq_ok_iff.mp h
  obtain ⟨hlt, -⟩ := Array.getElem?_eq_some_iff.mp hget
  obtain ⟨parent, host, hhost, hchild⟩ := mem_listed_iff.mp (hall id hpos hlt)
  obtain ⟨found, hfound, -, hdepth⟩ := (hlinked.resolved parent host hhost).fits id hchild
  obtain rfl : node = found := Option.some.inj (hget.symm.trans hfound)
  exact ⟨host, Array.mem_toList_iff.mpr (Array.mem_of_getElem? hhost), hdepth⟩

/-- The root of a table that passes is at depth 0, whatever the depths below are compared with. -/
theorem depth_root_of_ofNodes {below : Nat → Option Nat} (h : ofNodes below nodes = .ok tree)
    {node : Node} (hget : nodes[0]? = some node) : node.depth = 0 := by
  obtain ⟨⟨first, hfirst, hroot⟩, -⟩ := ofNodes_eq_ok_iff.mp h
  obtain rfl : node = first := Option.some.inj (hget.symm.trans hfirst)
  exact (Node.isRoot_iff.mp hroot).2.2

/-- All depths of a table that passes are words, since each but that of the root is one that was
wrapped. -/
theorem depth_lt_of_ofNodes (h : ofNodes wrappedBelow nodes = .ok tree) {node : Node}
    (hmem : node ∈ nodes.toList) : node.depth < Text.wordSize := by
  obtain ⟨id, hget⟩ := Array.mem_iff_getElem?.mp (Array.mem_toList_iff.mp hmem)
  by_cases hpos : 0 < id
  · obtain ⟨host, -, hdepth⟩ := exists_host_of_ofNodes h hget hpos
    rw [← Option.some.inj hdepth]
    exact Nat.mod_lt _ (by decide)
  · obtain rfl : id = 0 := Nat.eq_zero_of_not_pos hpos
    rw [depth_root_of_ofNodes h hget]
    decide

/-- Above a node of some depth there are nodes of all smaller depths. The induction goes up along
the parents, whose depths are smaller by one. -/
theorem exists_depth_of_le (h : ofNodes wrappedBelow nodes = .ok tree) {depth : Nat} {node : Node}
    (hmem : node ∈ nodes.toList) (hdepth : node.depth = depth) :
    ∀ d ≤ depth, ∃ above ∈ nodes.toList, above.depth = d := by
  induction depth generalizing node with
  | zero =>
    intro d hd
    exact ⟨node, hmem, by omega⟩
  | succ depth ih =>
    intro d hd
    by_cases heq : d = depth + 1
    · exact ⟨node, hmem, by omega⟩
    · obtain ⟨id, hget⟩ := Array.mem_iff_getElem?.mp (Array.mem_toList_iff.mp hmem)
      have hpos : 0 < id := by
        rcases Nat.eq_zero_or_pos id with rfl | hpos
        · rw [depth_root_of_ofNodes h hget] at hdepth
          cases hdepth
        · exact hpos
      obtain ⟨host, hhost, hbelow⟩ := exists_host_of_ofNodes h hget hpos
      -- the depth of the host did not wrap around, as only 0 comes from there
      have hword := depth_lt_of_ofNodes h hhost
      have hhostdepth : host.depth = depth := by
        have hbelow : (host.depth + 1) % Text.wordSize = depth + 1 :=
          hdepth ▸ Option.some.inj hbelow
        by_cases hlast : host.depth + 1 = Text.wordSize
        · rw [hlast, Nat.mod_self] at hbelow
          cases hbelow
        · rw [Nat.mod_eq_of_lt (by omega)] at hbelow
          exact Nat.succ.inj hbelow
      exact ih hhost hhostdepth d (by omega)

/-- A list without repetitions of numbers below a bound is no longer than the bound. -/
theorem length_le_of_nodup {ids : List Nat} {size : Nat} (hnodup : ids.Nodup)
    (hlt : ∀ id ∈ ids, id < size) : ids.length ≤ size := by
  have hsub : ids ⊆ List.range size := fun id hid => List.mem_range.mpr (hlt id hid)
  have hle := (hnodup.subperm hsub).length_le
  rwa [List.length_range] at hle

/-- There are more nodes than steps to any of them, for on the way down there is a node at every
depth. -/
theorem depth_lt_size_of_ofNodes (h : ofNodes wrappedBelow nodes = .ok tree) {node : Node}
    (hmem : node ∈ nodes.toList) : node.depth < nodes.size := by
  have hsub : List.range (node.depth + 1) ⊆ nodes.toList.map Node.depth := by
    intro d hd
    obtain ⟨above, habove, rfl⟩ :=
      exists_depth_of_le h hmem rfl d (Nat.le_of_lt_succ (List.mem_range.mp hd))
    exact List.mem_map_of_mem habove
  have hle := (List.nodup_range.subperm hsub).length_le
  rwa [List.length_range, List.length_map, Array.length_toList] at hle

/-- The table of the tree passes the checks, and the depths are counted without a limit. -/
def Valid (tree : Tree) : Prop := ofNodes unboundedBelow tree.nodes = .ok tree

/-- A table that passes also does so without a limit, if nothing but one more than the depth of a
node is taken for the depth of its children. -/
theorem valid_of_below {below : Nat → Option Nat} (h : ofNodes below nodes = .ok tree)
    (hbelow : ∀ node ∈ nodes.toList, ∀ depth, below node.depth = some depth →
      node.depth + 1 = depth) : tree.Valid ∧ tree.nodes = nodes := by
  obtain ⟨hroot, hlinked, hall, rfl⟩ := ofNodes_eq_ok_iff.mp h
  exact ⟨ofNodes_eq_ok_iff.mpr ⟨hroot, hlinked.mono hbelow, hall, rfl⟩, rfl⟩

/-- The depths of a table that passes are counted as without a limit: the addition is checked. -/
theorem valid_of_ofNodes (h : ofNodes checkedBelow nodes = .ok tree) :
    tree.Valid ∧ tree.nodes = nodes :=
  valid_of_below h fun _ _ _ hdepth => (checkedBelow_eq_some_iff.mp hdepth).2.symm

/-- The depths of a table that passes do not wrap around, as there are fewer nodes than words. -/
theorem valid_of_ofNodes_wrapped (h : ofNodes wrappedBelow nodes = .ok tree)
    (hsize : nodes.size < Text.wordSize) : tree.Valid ∧ tree.nodes = nodes := by
  refine valid_of_below h fun node hmem depth hdepth => ?_
  have hlt := depth_lt_size_of_ofNodes h hmem
  exact (Nat.mod_eq_of_lt (by omega)).symm.trans (Option.some.inj hdepth)

end

/-! ### Valid trees -/

theorem children_eq_of_get? {tree : Tree} {id : NodeId} {node : Node}
    (hget : tree.get? id = some node) : tree.children id = node.children := by
  rw [children, hget]
  rfl

namespace Valid

variable {tree : Tree} {id child : NodeId} {node : Node}

theorem linked (h : tree.Valid) : Linked unboundedBelow tree.nodes :=
  (ofNodes_eq_ok_iff.mp h).2.1

/-- A child is a node that points back and is one step further down. -/
theorem fits (h : tree.Valid) (hget : tree.get? id = some node) (hchild : child ∈ node.children) :
    ∃ found, tree.get? child = some found ∧ found.parent = some id ∧
      found.depth = node.depth + 1 :=
  fits_unboundedBelow_iff.mp ((h.linked.resolved id node hget).fits child hchild)

/-- The height is the greatest depth, so no node is deeper than the tree is high. -/
theorem depth_le_height (h : tree.Valid) (hget : tree.get? id = some node) :
    node.depth ≤ tree.height := by
  obtain ⟨⟨first, hfirst, -⟩, -, -, htree⟩ := ofNodes_eq_ok_iff.mp h
  have hmem : node ∈ tree.nodes.toList := Array.mem_toList_iff.mpr (Array.mem_of_getElem? hget)
  rw [htree]
  exact (greatest_foldl hfirst Node.depth).2 node hmem

/-- No node is twice among the children of a node. -/
theorem nodup_children (h : tree.Valid) (hget : tree.get? id = some node) :
    node.children.Nodup :=
  (List.pairwise_flatMap.mp h.linked.nodup).1 node
    (Array.mem_toList_iff.mpr (Array.mem_of_getElem? hget))

/-- As many steps as the depth lead from a node to the root. -/
theorem ancestor?_depth (h : tree.Valid) (hget : tree.get? id = some node) :
    ancestor? tree.nodes node.depth id = some root := by
  obtain ⟨hroot, -, hall, -⟩ := ofNodes_eq_ok_iff.mp h
  have hlinked : Linked unboundedBelow tree.toTable.nodes := h.linked
  exact NodeTable.ancestor?_depth_of_linked hlinked (fun _ _ => rfl) hroot hall hget rfl

/-- A node is among the children of its parent: it is listed once, and who lists it is its
parent. -/
theorem mem_children (h : tree.Valid) {parent : NodeId} (hget : tree.get? id = some node)
    (hparent : node.parent = some parent) :
    ∃ host, tree.get? parent = some host ∧ id ∈ host.children := by
  obtain ⟨⟨first, hfirst, hroot⟩, -, hall, -⟩ := ofNodes_eq_ok_iff.mp h
  have hlinked : Linked unboundedBelow tree.toTable.nodes := h.linked
  have hpos : 0 < id := by
    rcases Nat.eq_zero_or_pos id with rfl | hpos
    · obtain rfl : node = first := Option.some.inj (hget.symm.trans hfirst)
      rw [(Node.isRoot_iff.mp hroot).2.1] at hparent
      cases hparent
    · exact hpos
  obtain ⟨hlt, -⟩ := Array.getElem?_eq_some_iff.mp hget
  obtain ⟨parent', host, hparent', hhost, hchild, -⟩ :=
    NodeTable.owner_of_linked hlinked (fun _ _ => rfl) hget (hall id hpos hlt)
  obtain rfl : parent = parent' := Option.some.inj (hparent.symm.trans hparent')
  exact ⟨host, hhost, hchild⟩

end Valid

/-! ### Walks -/

/-- What an iterator meets, one node after the other, until nothing is pending. The top of its stack
is at the end. Each time it takes the node on top, which the tree has, and pushes the children of
that node, the last of them first. -/
inductive Yields (tree : Tree) : List NodeId → List NodeId → Prop
  /-- Nothing is pending. -/
  | done : Yields tree [] []
  /-- The node on top is met. -/
  | next {id : NodeId} {node : Node} {stack ids : List NodeId} (hget : tree.get? id = some node)
      (rest : Yields tree (stack ++ node.children.reverse) ids) :
      Yields tree (stack ++ [id]) (id :: ids)

/-- An iterator meets nodes of the tree only, since it looks up each number that is pending. -/
theorem Yields.lt_size {tree : Tree} {stack ids : List NodeId} (h : tree.Yields stack ids) :
    ∀ id ∈ ids, id < tree.size := by
  induction h with
  | done => exact List.forall_mem_nil _
  | next hget _ ih => exact List.forall_mem_cons.mpr ⟨isSome_get?_iff.mp (by rw [hget]; rfl), ih⟩

/-- The walk makes the steps of the iterator, as long as it may make enough of them. -/
theorem Yields.walk_eq {tree : Tree} {stack ids : List NodeId} (h : tree.Yields stack ids)
    {steps : Nat} (hsteps : ids.length ≤ steps) : tree.walk steps stack.reverse = ids := by
  induction h generalizing steps with
  | done => exact walk_nil tree steps
  | @next id node stack ids hget _ ih =>
    cases steps with
    | zero => exact absurd hsteps (Nat.not_succ_le_zero _)
    | succ steps =>
      have hrest := ih (Nat.le_of_succ_le_succ hsteps)
      rw [List.reverse_append, List.reverse_reverse] at hrest
      rw [List.reverse_append, List.reverse_singleton, List.singleton_append, walk_succ_cons,
        children_eq_of_get? hget, hrest]

/-! ### Subtrees by recursion -/

/-- The nodes of the subtree at `id` down to a number of levels below it, each before its
children. -/
def subtreeTo (tree : Tree) : Nat → NodeId → List NodeId
  | 0, id => [id]
  | levels + 1, id => id :: (tree.children id).flatMap (tree.subtreeTo levels)

/-- The nodes of the subtree at `id`, each before its children. No subtree has more levels than the
tree is high. -/
def subtree (tree : Tree) (id : NodeId) : List NodeId :=
  tree.subtreeTo tree.height id

namespace Valid

variable {tree : Tree} {id : NodeId} {node : Node}

/-- A node at the greatest depth has no children. -/
theorem children_eq_nil (h : tree.Valid) (hget : tree.get? id = some node)
    (hheight : tree.height ≤ node.depth) : tree.children id = [] := by
  rw [children_eq_of_get? hget, List.eq_nil_iff_forall_not_mem]
  intro child hchild
  obtain ⟨found, hfound, -, hdepth⟩ := h.fits hget hchild
  have hle := h.depth_le_height hfound
  omega

/-- More levels than there are below a node change nothing of its subtree, so the height of the tree
is enough for every node. -/
theorem subtreeTo_eq (h : tree.Valid) {m n : Nat} (hget : tree.get? id = some node)
    (hm : tree.height ≤ node.depth + m) (hn : tree.height ≤ node.depth + n) :
    tree.subtreeTo m id = tree.subtreeTo n id := by
  induction m generalizing n id node with
  | zero =>
    cases n with
    | zero => rfl
    | succ n => rw [subtreeTo, subtreeTo, h.children_eq_nil hget hm, List.flatMap_nil]
  | succ m ih =>
    cases n with
    | zero => rw [subtreeTo, subtreeTo, h.children_eq_nil hget hn, List.flatMap_nil]
    | succ n =>
      rw [subtreeTo, subtreeTo, children_eq_of_get? hget]
      refine congrArg (id :: ·) (List.flatMap_congr fun child hchild => ?_)
      obtain ⟨found, hfound, -, hdepth⟩ := h.fits hget hchild
      exact ih hfound (by omega) (by omega)

/-- A subtree is its top and the subtrees of the children in their order. -/
theorem subtree_eq (h : tree.Valid) (hget : tree.get? id = some node) :
    tree.subtree id = id :: (tree.children id).flatMap tree.subtree := by
  rw [subtree, h.subtreeTo_eq hget (n := tree.height + 1) (by omega) (by omega), subtreeTo]
  rfl

/-- What is true of the node at the top of a subtree is proved from what is true of its children. -/
theorem depth_induction (h : tree.Valid) {P : NodeId → Prop}
    (step : ∀ id node, tree.get? id = some node → (∀ child ∈ node.children, P child) → P id)
    (hget : tree.get? id = some node) : P id := by
  induction hlevels : tree.height - node.depth using Nat.strongRecOn generalizing id node with
  | ind levels ih =>
    refine step id node hget fun child hchild => ?_
    obtain ⟨found, hfound, -, hdepth⟩ := h.fits hget hchild
    have hle := h.depth_le_height hfound
    exact ih (tree.height - found.depth) (by omega) hfound rfl

/-- The iterator meets the subtree of the node on top before what is below it on the stack. -/
theorem yields_append (h : tree.Valid) (hget : tree.get? id = some node) {stack ids : List NodeId}
    (hrest : tree.Yields stack ids) : tree.Yields (stack ++ [id]) (tree.subtree id ++ ids) := by
  revert stack ids
  refine h.depth_induction (P := fun id => ∀ {stack ids : List NodeId}, tree.Yields stack ids →
    tree.Yields (stack ++ [id]) (tree.subtree id ++ ids)) ?_ hget
  intro id node hget hchildren stack ids hrest
  rw [h.subtree_eq hget, List.cons_append]
  refine .next hget ?_
  -- the children lie on the stack in reverse, so the first of them is met first
  rw [children_eq_of_get? hget]
  have hpushed : ∀ children : List NodeId, (∀ child ∈ children, child ∈ node.children) →
      tree.Yields (stack ++ children.reverse) (children.flatMap tree.subtree ++ ids) := by
    intro children hsub
    induction children with
    | nil => rwa [List.reverse_nil, List.append_nil, List.flatMap_nil, List.nil_append]
    | cons child children ih =>
      rw [List.reverse_cons, List.flatMap_cons, ← List.append_assoc,
        List.append_assoc (tree.subtree child)]
      obtain ⟨hchild, hbeside⟩ := List.forall_mem_cons.mp hsub
      exact hchildren child hchild (ih hbeside)
  exact hpushed node.children fun _ hchild => hchild

/-- **Walks and recursion.** The iterator ends, and it meets what recursion finds. -/
theorem yields_subtree (h : tree.Valid) (hget : tree.get? id = some node) :
    tree.Yields [id] (tree.subtree id) := by
  have hyields := h.yields_append hget .done
  rwa [List.nil_append, List.append_nil] at hyields

/-! ### What a subtree consists of -/

/-- The parent of what is reached with some steps is reached with one step more. -/
theorem ancestor?_succ_of_ancestor? {nodes : Array Node} {steps : Nat} {id host parent : NodeId}
    {node : Node} (h : ancestor? nodes steps id = some host) (hget : nodes[host]? = some node)
    (hparent : node.parent = some parent) : ancestor? nodes (steps + 1) id = some parent := by
  induction steps generalizing id with
  | zero =>
    obtain rfl : id = host := Option.some.inj h
    exact ancestor?_succ hget hparent 0
  | succ steps ih =>
    cases hid : nodes[id]? with
    | none =>
      rw [ancestor?, hid] at h
      cases h
    | some below =>
      cases hbelow : below.parent with
      | none =>
        rw [ancestor?_succ_of_none hid hbelow] at h
        cases h
      | some above =>
        rw [ancestor?_succ hid hbelow] at h ⊢
        exact ih h

/-- From a node of a subtree the links to parents lead to the top, and the depth says in how many
steps. -/
theorem exists_ancestor?_of_mem (h : tree.Valid) (hget : tree.get? id = some node) :
    ∀ below ∈ tree.subtree id, ∃ found steps, tree.get? below = some found ∧
      found.depth = node.depth + steps ∧ ancestor? tree.nodes steps below = some id := by
  have hall := h.depth_induction (P := fun id => ∀ node, tree.get? id = some node →
    ∀ below ∈ tree.subtree id, ∃ found steps, tree.get? below = some found ∧
      found.depth = node.depth + steps ∧ ancestor? tree.nodes steps below = some id) ?_ hget
  · exact hall node hget
  intro id node hget hchildren node' hget' below hbelow
  obtain rfl : node = node' := Option.some.inj (hget.symm.trans hget')
  rw [h.subtree_eq hget, children_eq_of_get? hget, List.mem_cons, List.mem_flatMap] at hbelow
  rcases hbelow with rfl | ⟨child, hchild, hbelow⟩
  · exact ⟨node, 0, hget, rfl, rfl⟩
  · obtain ⟨top, htop, hparent, hdepth⟩ := h.fits hget hchild
    obtain ⟨found, steps, hfound, hfounddepth, hsteps⟩ :=
      hchildren child hchild top htop below hbelow
    exact ⟨found, steps + 1, hfound, by omega, ancestor?_succ_of_ancestor? hsteps htop hparent⟩

/-- The subtree of a node in a subtree is a part of it without gaps. -/
theorem subtree_infix (h : tree.Valid) (hget : tree.get? id = some node) :
    ∀ below ∈ tree.subtree id, tree.subtree below <:+: tree.subtree id := by
  refine h.depth_induction (P := fun id => ∀ below ∈ tree.subtree id,
    tree.subtree below <:+: tree.subtree id) ?_ hget
  intro id node hget hchildren below hbelow
  rw [h.subtree_eq hget, children_eq_of_get? hget, List.mem_cons, List.mem_flatMap] at hbelow
  rcases hbelow with rfl | ⟨child, hchild, hbelow⟩
  · exact List.infix_refl _
  · obtain ⟨front, back, hsplit⟩ := List.mem_iff_append.mp hchild
    have hblock : tree.subtree child <:+: tree.subtree id := by
      rw [h.subtree_eq hget, children_eq_of_get? hget, hsplit, List.flatMap_append,
        List.flatMap_cons]
      exact ⟨id :: front.flatMap tree.subtree, back.flatMap tree.subtree, by simp⟩
    exact (hchildren child hchild below hbelow).trans hblock

/-- A node from which the links to parents lead to another one is in the subtree of that one. -/
theorem mem_subtree_of_ancestor? (h : tree.Valid) (hget : tree.get? id = some node)
    {below : NodeId} {found : Node} (hfound : tree.get? below = some found) {steps : Nat}
    (hsteps : ancestor? tree.nodes steps below = some id) : below ∈ tree.subtree id := by
  induction steps generalizing below found with
  | zero =>
    obtain rfl : below = id := Option.some.inj hsteps
    rw [h.subtree_eq hfound]
    exact List.mem_cons_self
  | succ steps ih =>
    cases hparent : found.parent with
    | none =>
      rw [ancestor?_succ_of_none hfound hparent] at hsteps
      cases hsteps
    | some parent =>
      rw [ancestor?_succ hfound hparent] at hsteps
      obtain ⟨host, hhost, hchild⟩ := h.mem_children hfound hparent
      have hmem := ih hhost hsteps
      have hinner : below ∈ tree.subtree parent := by
        rw [h.subtree_eq hhost, children_eq_of_get? hhost]
        refine List.mem_cons_of_mem _ (List.mem_flatMap.mpr ⟨below, hchild, ?_⟩)
        rw [h.subtree_eq hfound]
        exact List.mem_cons_self
      exact (h.subtree_infix hget parent hmem).subset hinner

/-- The subtrees of two children of one node have nothing in common. -/
theorem child_unique (h : tree.Valid) (hget : tree.get? id = some node) {left right below : NodeId}
    (hleft : left ∈ node.children) (hright : right ∈ node.children)
    (hbelow : below ∈ tree.subtree left) (hbelow' : below ∈ tree.subtree right) : left = right := by
  obtain ⟨a, ha, -, hadepth⟩ := h.fits hget hleft
  obtain ⟨b, hb, -, hbdepth⟩ := h.fits hget hright
  obtain ⟨found, i, hfound, hi, hileads⟩ := h.exists_ancestor?_of_mem ha below hbelow
  obtain ⟨found', j, hfound', hj, hjleads⟩ := h.exists_ancestor?_of_mem hb below hbelow'
  obtain rfl : found = found' := Option.some.inj (hfound.symm.trans hfound')
  -- both children are at the same depth, so both are reached in the same number of steps
  obtain rfl : i = j := by omega
  exact Option.some.inj (hileads.symm.trans hjleads)

/-- No node is twice in a subtree: it would be below two children of some node. -/
theorem nodup_subtree (h : tree.Valid) (hget : tree.get? id = some node) :
    (tree.subtree id).Nodup := by
  refine h.depth_induction (P := fun id => (tree.subtree id).Nodup) ?_ hget
  intro id node hget hchildren
  rw [h.subtree_eq hget, children_eq_of_get? hget, List.nodup_cons]
  constructor
  · intro hmem
    obtain ⟨child, hchild, hmem⟩ := List.mem_flatMap.mp hmem
    obtain ⟨top, htop, -, hdepth⟩ := h.fits hget hchild
    obtain ⟨found, steps, hfound, hfounddepth, -⟩ := h.exists_ancestor?_of_mem htop id hmem
    obtain rfl : node = found := Option.some.inj (hget.symm.trans hfound)
    omega
  · refine List.pairwise_flatMap.mpr ⟨hchildren, ?_⟩
    refine (h.nodup_children hget).imp_of_mem fun {left right} hleft hright hne => ?_
    rintro below hbelow below' hbelow' rfl
    exact hne (h.child_unique hget hleft hright hbelow hbelow')

/-- No subtree has more nodes than the tree, as none is in it twice. -/
theorem length_subtree_le (h : tree.Valid) (hget : tree.get? id = some node) :
    (tree.subtree id).length ≤ tree.size :=
  length_le_of_nodup (h.nodup_subtree hget) (h.yields_subtree hget).lt_size

/-- The walk with a stack of pending nodes meets what the recursion over the children finds, in the
same order. -/
theorem preorder_eq (h : tree.Valid) (hget : tree.get? id = some node) :
    tree.preorder id = tree.subtree id :=
  (h.yields_subtree hget).walk_eq (h.length_subtree_le hget)

/-- The subtrees of the children are walked one after the other. -/
theorem preorder_eq_cons (h : tree.Valid) (hget : tree.get? id = some node) :
    tree.preorder id = id :: (tree.children id).flatMap tree.preorder := by
  rw [h.preorder_eq hget, h.subtree_eq hget]
  refine congrArg (id :: ·) (List.flatMap_congr fun child hchild => ?_)
  rw [children_eq_of_get? hget] at hchild
  obtain ⟨found, hfound, -⟩ := h.fits hget hchild
  exact (h.preorder_eq hfound).symm

theorem exists_root (h : tree.Valid) :
    ∃ first, tree.get? root = some first ∧ first.isRoot = true :=
  (ofNodes_eq_ok_iff.mp h).1

/-- The walk from the root meets every node once, since all nodes but the root are below it. -/
theorem preorder_root_perm (h : tree.Valid) :
    (tree.preorder root).Perm (List.range tree.size) := by
  obtain ⟨first, hfirst, -⟩ := h.exists_root
  rw [h.preorder_eq hfirst]
  refine (List.perm_ext_iff_of_nodup (h.nodup_subtree hfirst) List.nodup_range).mpr fun id => ?_
  rw [List.mem_range]
  constructor
  · exact (h.yields_subtree hfirst).lt_size id
  · intro hlt
    obtain ⟨node, hget⟩ := Option.isSome_iff_exists.mp (isSome_get?_iff.mpr hlt)
    exact h.mem_subtree_of_ancestor? hfirst hget (h.ancestor?_depth hget)

/-- The walk from any node is a part of the walk from the root without gaps. -/
theorem preorder_infix (h : tree.Valid) (hget : tree.get? id = some node) :
    tree.preorder id <:+: tree.preorder root := by
  obtain ⟨first, hfirst, -⟩ := h.exists_root
  rw [h.preorder_eq hget, h.preorder_eq hfirst]
  exact h.subtree_infix hfirst id
    (h.mem_subtree_of_ancestor? hfirst hget (h.ancestor?_depth hget))

/-- The text of a subtree is that of its top and the texts of the children in their order. -/
theorem textAt_eq (h : tree.Valid) (hget : tree.get? id = some node) :
    tree.textAt id = tree.data id ++ String.join ((tree.children id).map tree.textAt) := by
  rw [textAt, h.preorder_eq_cons hget, List.map_cons, String.join_cons]
  refine congrArg (tree.data id ++ ·) (String.toList_inj.mp ?_)
  rw [String.toList_join, String.toList_join, List.flatMap_map, List.flatMap_assoc,
    List.flatMap_map]
  refine List.flatMap_congr fun child _ => ?_
  rw [textAt, String.toList_join, List.flatMap_map]

end Valid

/-- What is written and kept is the text of the subtree. -/
theorem run_writeAt_keep (tree : Tree) (id : NodeId) (out : String) :
    (tree.writeAt keep id).run out = ((), out ++ tree.textAt id) := by
  have hwrites : ∀ (ids : List NodeId) (out : String),
      (ids.forM fun node => keep (tree.data node)).run out =
        ((), out ++ String.join (ids.map tree.data)) := by
    intro ids
    induction ids with
    | nil =>
      intro out
      rw [List.map_nil, String.join_nil, String.append_empty]
      rfl
    | cons first rest ih =>
      intro out
      rw [List.map_cons, String.join_cons, ← String.append_assoc]
      exact ih (out ++ tree.data first)
  exact hwrites (tree.preorder id) out

/-! ### All tables -/

/-- What is true of the walk from one node. -/
structure Traversed (tree : Tree) (id : NodeId) : Prop where
  /-- The iterator ends. The walk gives what it meets. -/
  yields : tree.Yields [id] (tree.preorder id)
  /-- Nothing but nodes is met. -/
  known : ∀ below ∈ tree.preorder id, below < tree.size
  /-- No node is met twice. -/
  nodup : (tree.preorder id).Nodup
  /-- The node comes first, then the subtrees of its children in their order. -/
  recursive : tree.preorder id = id :: (tree.children id).flatMap tree.preorder
  /-- The nodes of the subtree stand together in the walk from the root. -/
  block : tree.preorder id <:+: tree.preorder root
  /-- The text of the subtree is that of the node and the texts of its children in their order. -/
  text : tree.textAt id = tree.data id ++ String.join ((tree.children id).map tree.textAt)
  /-- The same text is written. -/
  written : (tree.writeAt keep id).run "" = ((), tree.textAt id)

theorem Valid.traversed {tree : Tree} (h : tree.Valid) {id : NodeId} (hlt : id < tree.size) :
    tree.Traversed id := by
  obtain ⟨node, hget⟩ := Option.isSome_iff_exists.mp (isSome_get?_iff.mpr hlt)
  have hyields := h.yields_subtree hget
  exact
    { yields := by rwa [h.preorder_eq hget]
      known := by
        rw [h.preorder_eq hget]
        exact hyields.lt_size
      nodup := by
        rw [h.preorder_eq hget]
        exact h.nodup_subtree hget
      recursive := h.preorder_eq_cons hget
      block := h.preorder_infix hget
      text := h.textAt_eq hget
      written := by rw [run_writeAt_keep, String.empty_append] }

/-- **Traversals.** In a table that was taken for a tree, in whatever order its nodes stand, the
walk from any node ends and goes through the subtrees in their order. The walk from the root meets
every node once, and its text is that of the whole tree. This is so even if the depths of the table
may wrap around, as long as there are fewer nodes than words. -/
theorem traversed_of_ofNodes {nodes : Array Node} {tree : Tree}
    (h : ofNodes checkedBelow nodes = .ok tree ∨
      ofNodes wrappedBelow nodes = .ok tree ∧ nodes.size < Text.wordSize) :
    tree.nodes = nodes ∧ (∀ id < tree.size, tree.Traversed id) ∧
      (tree.preorder root).Perm (List.range tree.size) ∧
      (tree.writeAt keep root).run "" = ((), tree.text) := by
  obtain ⟨hvalid, hnodes⟩ : tree.Valid ∧ tree.nodes = nodes := by
    rcases h with h | ⟨h, hsize⟩
    · exact valid_of_ofNodes h
    · exact valid_of_ofNodes_wrapped h hsize
  refine ⟨hnodes, fun id hlt => hvalid.traversed hlt, hvalid.preorder_root_perm, ?_⟩
  rw [run_writeAt_keep, String.empty_append, text]

/-- A table in which a child stands in front of its parent. -/
theorem traversed_of_ofNodes_reordered :
    ∃ nodes tree, ofNodes checkedBelow nodes = .ok tree ∧
      (∀ id < tree.size, tree.Traversed id) ∧ tree.preorder root = [0, 2, 1] ∧
      tree.textAt 2 = "x" := by
  let nodes : Array Node := #[⟨.root, none, [2], 0, .start, ""⟩,
    ⟨.text, some 2, [], 2, .start, "x"⟩, ⟨.comment, some 0, [1], 1, .start, ""⟩]
  have hnodes : ofNodes checkedBelow nodes = .ok (counted nodes) := by rfl
  exact ⟨nodes, counted nodes, hnodes, (traversed_of_ofNodes (.inl hnodes)).2.1, by rfl, by rfl⟩

end Tree

end LosslessEbnf
