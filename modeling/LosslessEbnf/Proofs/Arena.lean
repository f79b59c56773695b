import LosslessEbnf.Proofs.Coordinates
import LosslessEbnf.Proofs.Rows
import LosslessEbnf.Proofs.Tables

/-!
# Sound tables

The table of a tree is sound if its nodes stand in the order of a walk, its links agree with each
other, and its counters are right.

## Main Definitions

* `Tree.Tallied` — the counters of a tree are right
* `Tree.Carries` — a tree is the one that a spine stands for, with the right counters
* `Tree.Arena` — the table of a tree is sound

## Main Statements

* `Tree.Carries.push`, `Tree.Carries.update` — what the changes of a tree do to its spine
* `Tree.Carries.arena` — the tree of a spine with linked nodes has a sound table

## Design Notes

A spine says which nodes there are and how they hang together, whatever their text is. Therefore all
links but those to components need no proof of their own: they are those of the spine.
-/

namespace LosslessEbnf

namespace Tree

/-! ### Counters -/

/-- The counters of the tree are right. -/
structure Tallied (tree : Tree) : Prop where
  /-- The number of nodes. -/
  count : tree.count = tree.size
  /-- The greatest depth. -/
  height : Greatest tree.nodes Node.depth tree.height
  /-- The greatest number of children. -/
  maxDegree : Greatest tree.nodes (·.children.length) tree.maxDegree

theorem greatest_iff {tree : Tree} {measure : Node → Nat} {greatest : Nat} :
    Greatest tree.nodes measure greatest ↔
      (∃ id node, tree.get? id = some node ∧ measure node = greatest) ∧
        ∀ id node, tree.get? id = some node → measure node ≤ greatest := by
  have hmem : ∀ node, node ∈ tree.nodes.toList ↔ ∃ id, tree.get? id = some node := fun node => by
    rw [Array.mem_toList_iff, Array.mem_iff_getElem?]
    rfl
  constructor
  · rintro ⟨⟨node, hnode, hmeasure⟩, hall⟩
    obtain ⟨id, hget⟩ := (hmem node).mp hnode
    exact ⟨⟨id, node, hget, hmeasure⟩, fun id node hget => hall node ((hmem node).mpr ⟨id, hget⟩)⟩
  · rintro ⟨⟨id, node, hget, hmeasure⟩, hall⟩
    refine ⟨⟨node, (hmem node).mpr ⟨id, hget⟩, hmeasure⟩, fun node hnode => ?_⟩
    obtain ⟨id, hget⟩ := (hmem node).mp hnode
    exact hall id node hget

/-- A change of one node that leaves a measure alone does not change its greatest value. -/
theorem Greatest.update {tree : Tree} {measure : Node → Nat} {greatest : Nat}
    (h : Greatest tree.nodes measure greatest) (id : NodeId) {change : Node → Node}
    (hchange : ∀ node, measure (change node) = measure node) :
    Greatest (tree.update id change).nodes measure greatest := by
  rw [greatest_iff] at h ⊢
  obtain ⟨⟨top, node, hget, hmeasure⟩, hall⟩ := h
  constructor
  · by_cases hid : id = top
    · subst hid
      exact ⟨id, change node, by rw [get?_update_self, hget]; rfl, (hchange node).trans hmeasure⟩
    · exact ⟨top, node, by rw [get?_update_of_ne hid, hget], hmeasure⟩
  · intro other node' hget'
    by_cases hid : id = other
    · subst hid
      rw [get?_update_self] at hget'
      obtain ⟨old, hold, rfl⟩ := Option.map_eq_some_iff.mp hget'
      rw [hchange]
      exact hall id old hold
    · rw [get?_update_of_ne hid] at hget'
      exact hall other node' hget'

/-- One more node in a table: its depth is compared with the greatest one so far. -/
theorem Greatest.push {nodes : Array Node} {measure : Node → Nat} {greatest : Nat}
    (h : Greatest nodes measure greatest) (node : Node) :
    Greatest (nodes.push node) measure (max greatest (measure node)) := by
  obtain ⟨⟨top, htop, hmeasure⟩, hall⟩ := h
  rw [Greatest, Array.toList_push]
  constructor
  · rcases Nat.le_total greatest (measure node) with hle | hle
    · rw [Nat.max_eq_right hle]
      exact ⟨node, List.mem_append_right _ (List.mem_singleton.mpr rfl), rfl⟩
    · rw [Nat.max_eq_left hle]
      exact ⟨top, List.mem_append_left _ htop, hmeasure⟩
  · intro other hother
    rcases List.mem_append.mp hother with hother | hother
    · exact Nat.le_trans (hall other hother) (Nat.le_max_left ..)
    · rw [List.mem_singleton.mp hother]
      exact Nat.le_max_right ..

/-- One more child of a node: the number of its children is compared with the greatest one so
far. -/
theorem Greatest.addChild {tree : Tree} {greatest : Nat} {id : NodeId} {host : Node}
    (h : Greatest tree.nodes (·.children.length) greatest) (hget : tree.get? id = some host)
    (child : NodeId) :
    Greatest (tree.update id fun node => { node with children := node.children ++ [child] }).nodes
      (·.children.length) (max greatest (host.children.length + 1)) := by
  rw [greatest_iff] at h ⊢
  obtain ⟨⟨top, node, htop, hmeasure⟩, hall⟩ := h
  have hhost := hall id host hget
  constructor
  · rcases Nat.lt_or_ge host.children.length greatest with hlt | hge
    · -- the node with the most children is another one, or one of several
      have hne : id ≠ top := by
        rintro rfl
        obtain rfl : host = node := Option.some.inj (hget.symm.trans htop)
        omega
      refine ⟨top, node, by rw [get?_update_of_ne hne, htop], ?_⟩
      rw [Nat.max_eq_left hlt]
      exact hmeasure
    · refine ⟨id, { host with children := host.children ++ [child] },
        by rw [get?_update_self, hget]; rfl, ?_⟩
      rw [Nat.max_eq_right (Nat.le_succ_of_le hge), List.length_append]
      rfl
  · intro other node' hget'
    by_cases hid : id = other
    · subst hid
      rw [get?_update_self, hget] at hget'
      obtain rfl := Option.some.inj hget'
      rw [List.length_append]
      exact Nat.le_max_right ..
    · rw [get?_update_of_ne hid] at hget'
      exact Nat.le_trans (hall other node' hget') (Nat.le_max_left ..)

theorem tallied_empty : empty.Tallied where
  count := rfl
  height := ⟨⟨.emptyRoot, List.mem_singleton.mpr rfl, rfl⟩,
    List.forall_mem_singleton.mpr (Nat.le_refl 0)⟩
  maxDegree := ⟨⟨.emptyRoot, List.mem_singleton.mpr rfl, rfl⟩,
    List.forall_mem_singleton.mpr (Nat.le_refl 0)⟩

namespace Tallied

variable {tree : Tree}

/-- A change of one node that leaves its links alone. -/
theorem update (h : tree.Tallied) (id : NodeId) {change : Node → Node}
    (hdepth : ∀ node, (change node).depth = node.depth)
    (hchildren : ∀ node, (change node).children = node.children) :
    (tree.update id change).Tallied where
  count := h.count.trans (size_update ..).symm
  height := h.height.update id hdepth
  maxDegree := h.maxDegree.update id fun node => congrArg List.length (hchildren node)

/-- A new child of a node. -/
theorem pushChild (h : tree.Tallied) {parent : NodeId} {host : Node}
    (hget : tree.get? parent = some host) (kind : Kind) (span : Span) (data : String) :
    (tree.pushChild parent kind span data).Tallied where
  count := (congrArg (· + 1) h.count).trans (size_pushChild ..).symm
  height := by
    have hheight : Greatest
        (tree.update parent fun node =>
          { node with children := node.children ++ [tree.size] }).nodes
        Node.depth tree.height := h.height.update parent fun _ => rfl
    exact hheight.push ⟨kind, some parent, [], tree.depth parent + 1, span, data⟩
  maxDegree := by
    have hdegree := (h.maxDegree.addChild hget tree.size).push
      ⟨kind, some parent, [], tree.depth parent + 1, span, data⟩
    have hchildren : tree.children parent = host.children := by
      rw [Tree.children, hget]
      rfl
    -- the new node itself has no children
    change Greatest _ _ (max (max tree.maxDegree (host.children.length + 1)) 0) at hdegree
    rw [Nat.max_zero, ← hchildren] at hdegree
    exact hdegree

/-- The tree is the one that the check of its table makes up. -/
theorem eq_counted (h : tree.Tallied) {first : Node} (hfirst : tree.nodes[0]? = some first) :
    tree = counted tree.nodes := by
  have hheight := h.height.unique (greatest_foldl hfirst Node.depth)
  have hdegree := h.maxDegree.unique (greatest_foldl hfirst (·.children.length))
  rw [counted, ← hheight, ← hdegree, show tree.nodes.size = tree.count from h.count.symm]

end Tallied

/-! ### Spines -/

/-- The tree is the one that the spine stands for, and its counters are right. -/
structure Carries (tree : Tree) (spine : Spine) : Prop where
  /-- The table is the one that the spine stands for. -/
  shows : tree.Shows spine
  /-- The counters are right. -/
  tallied : tree.Tallied

theorem carries_empty : empty.Carries [.bare rootLabel] := ⟨shows_empty, tallied_empty⟩

namespace Carries

variable {tree : Tree} {node host : OpenNode} {outer : Spine}

theorem size_eq {spine : Spine} (h : tree.Carries spine) : tree.size = spine.size := h.shows.size_eq

/-- A new child of the innermost open node is the innermost open node from then on. -/
theorem push (h : tree.Carries (node :: outer)) (kind : Kind) (span : Span) (data : String) :
    (tree.pushChild outer.size kind span data).Carries
      (.bare ⟨kind, span, data⟩ :: node :: outer) :=
  ⟨h.shows.push kind span data, h.tallied.pushChild h.shows.get?_top kind span data⟩

theorem close (h : tree.Carries (node :: host :: outer)) :
    tree.Carries (host.add node :: outer) :=
  ⟨h.shows.close, h.tallied⟩

theorem reopen (h : tree.Carries (host.add node :: outer)) :
    tree.Carries (node :: host :: outer) :=
  ⟨h.shows.reopen, h.tallied⟩

theorem withKind (h : tree.Carries (node :: outer)) (kind : Kind) :
    (tree.withKind outer.size kind).Carries (⟨{ node.label with kind }, node.below⟩ :: outer) :=
  ⟨h.shows.withKind kind, h.tallied.update _ (fun _ => rfl) fun _ => rfl⟩

theorem withSpan (h : tree.Carries (node :: outer)) (span : Span) :
    (tree.withSpan outer.size span).Carries (⟨{ node.label with span }, node.below⟩ :: outer) :=
  ⟨h.shows.withSpan span, h.tallied.update _ (fun _ => rfl) fun _ => rfl⟩

theorem withFirst (h : tree.Carries (node :: outer)) (first : Position) :
    (tree.withFirst outer.size first).Carries
      (⟨{ node.label with span := ⟨first, node.label.span.last⟩ }, node.below⟩ :: outer) :=
  ⟨h.shows.withFirst first, h.tallied.update _ (fun _ => rfl) fun _ => rfl⟩

theorem withLast (h : tree.Carries (node :: outer)) (last : Position) :
    (tree.withLast outer.size last).Carries
      (⟨{ node.label with span := ⟨node.label.span.first, last⟩ }, node.below⟩ :: outer) :=
  ⟨h.shows.withLast last, h.tallied.update _ (fun _ => rfl) fun _ => rfl⟩

theorem withData (h : tree.Carries (node :: outer)) (data : String) :
    (tree.withData outer.size data).Carries (⟨{ node.label with data }, node.below⟩ :: outer) :=
  ⟨h.shows.withData data, h.tallied.update _ (fun _ => rfl) fun _ => rfl⟩

theorem pushText (h : tree.Carries (node :: outer)) (c : Char) :
    (tree.pushText outer.size c).Carries
      (⟨{ node.label with data := node.label.data.push c }, node.below⟩ :: outer) :=
  ⟨h.shows.pushText c, h.tallied.update _ (fun _ => rfl) fun _ => rfl⟩

theorem extend (h : tree.Carries (node :: outer)) (c : Char) (here : Position) :
    (tree.extend outer.size c here).Carries
      (⟨⟨node.label.kind, ⟨node.label.span.first, here⟩, node.label.data.push c⟩, node.below⟩ ::
        outer) :=
  (h.pushText c).withLast here

/-- To end where the last child ends changes nothing but the span. -/
theorem closeAtLastChild (h : tree.Carries (node :: outer)) :
    ∃ span, (tree.closeAtLastChild outer.size).Carries
      (⟨{ node.label with span }, node.below⟩ :: outer) := by
  unfold Tree.closeAtLastChild
  split
  · exact ⟨_, h.withLast _⟩
  · exact ⟨node.label.span, h⟩

end Carries

end Tree

/-! ### Links -/

/-- The components of all nodes of the spine are among their children, and the outermost node is the
root. -/
def Spine.Linked : Spine → Prop
  | [] => True
  | node :: outer =>
    node.Linked (size outer) ∧ node.below.Each (fun id node => node.Linked id) (size outer + 1) ∧
      (outer = [] → node.label.kind = .root) ∧ Linked outer

/-- A node that is closed keeps its links, and it becomes one of the links of the node around it. -/
theorem Spine.Linked.close {node host : OpenNode} {outer : Spine}
    (h : Linked (node :: host :: outer)) : Linked (host.add node :: outer) := by
  obtain ⟨hnode, hbelow, -, hhost, hbeside, hroot, houter⟩ := h
  refine ⟨hhost.append _, ?_, hroot, houter⟩
  exact Forest.each_append.mpr ⟨hbeside, Forest.each_single.mpr ⟨hnode, hbelow⟩⟩

/-- The children in the lists of a forest are its nodes but for the tops, each once. -/
theorem Forest.perm_listed (forest : Forest) (parent : Option NodeId) (depth number : Nat) :
    (forest.roots number ++ (forest.table parent depth number).flatMap Node.children).Perm
      (List.range' number forest.size) := by
  induction forest generalizing parent depth number with
  | nil => exact List.Perm.refl []
  | cons top below beside ihBelow ihBeside =>
    have hbelow := ihBelow (some number) (depth + 1) (number + 1)
    have hbeside := ihBeside parent depth (number + 1 + below.size)
    have hrange : List.range' number (1 + below.size + beside.size) =
        number :: (List.range' (number + 1) below.size ++
          List.range' (number + 1 + below.size) beside.size) := by
      rw [Nat.add_assoc, ← List.range'_append_1, List.range'_one, ← List.range'_append_1,
        List.singleton_append]
    rw [table_cons, List.flatMap_cons, List.flatMap_append, roots_cons, size_cons, hrange,
      ← List.append_assoc _ (below.table _ _ _ |>.flatMap _), List.cons_append]
    refine List.Perm.cons number ((List.perm_append_comm_assoc _ _ _).trans ?_)
    exact hbelow.append hbeside

namespace Tree

/-- The tops of a forest in a table have the parent and the depth of the forest. -/
theorem Holds.exists_of_mem_roots {tree : Tree} {forest : Forest} {parent : Option NodeId}
    {depth number : Nat} {child : NodeId} (h : tree.Holds parent depth number forest)
    (hmem : child ∈ forest.roots number) :
    ∃ node, tree.get? child = some node ∧ node.parent = parent ∧ node.depth = depth := by
  induction forest generalizing number with
  | nil => cases hmem
  | cons top below beside _ ih =>
    obtain ⟨htop, -, hbeside⟩ := h
    rcases List.mem_cons.mp hmem with rfl | hmem
    · exact ⟨_, htop, rfl, rfl⟩
    · exact ih hbeside hmem

/-- The table of the tree is sound. -/
structure Arena (tree : Tree) : Prop where
  /-- A walk from the root meets the nodes in the order of their numbers. -/
  preorder : tree.preorder root = List.range tree.size
  /-- The first node is a root at depth 0 with nothing above it. -/
  isRoot : ∃ node, tree.get? root = some node ∧ node.isRoot = true
  /-- The first node is in no list of children. -/
  free : root ∉ listed tree.nodes
  /-- Every other node occurs once in all lists of children. -/
  once : ∀ id, 0 < id → id < tree.size → (listed tree.nodes).count id = 1
  /-- It occurs in the list of its parent and is one step further down. -/
  owned : ∀ id node, 0 < id → tree.get? id = some node →
    ∃ parent host, node.parent = some parent ∧ tree.get? parent = some host ∧
      id ∈ host.children ∧ node.depth = host.depth + 1
  /-- The components of a node are among its children. -/
  linked : ∀ id node, tree.get? id = some node →
    ∀ component ∈ node.kind.components, component ∈ node.children
  /-- The counters are right. -/
  tallied : tree.Tallied
  /-- All nodes are met on a walk. -/
  visited : (tree.preorder root).length = tree.count
  /-- The nodes are taken for this tree, as long as depths can be counted. -/
  loads : ∀ below : Nat → Option Nat,
    (∀ depth, depth < tree.height → below depth = some (depth + 1)) →
      ofNodes below tree.nodes = .ok tree

section

variable {tree : Tree} {root : OpenNode}

/-- The entry of a list of children points back and is one step further down. -/
theorem Shows.fits (h : tree.Shows [root]) {id child : Nat} {node : Node}
    (hget : tree.get? id = some node) (hchild : child ∈ node.children) :
    Fits unboundedBelow tree.nodes id node.depth child := by
  have hid : id < tree.size := isSome_get?_iff.mp (by rw [hget]; rfl)
  obtain ⟨inner, above, depth, hget', hholds, -⟩ :=
    h.exists_of_each trivial (Forest.each_of_forall (fun _ _ => trivial) 1 _) hid
  obtain rfl := Option.some.inj (hget.symm.trans hget')
  exact fits_unboundedBelow_iff.mpr (hholds.exists_of_mem_roots hchild)

/-- The nodes but the root are listed, each once. -/
theorem Shows.perm_listed (h : tree.Shows [root]) :
    (listed tree.nodes).Perm (List.range' 1 root.below.size) := by
  have hlisted : listed tree.nodes =
      root.below.roots 1 ++ (root.below.table (some 0) 1 1).flatMap Node.children := by
    rw [listed, h, Spine.table_cons, List.flatMap_append, List.flatMap_cons, List.append_nil]
    rfl
  rw [hlisted]
  exact root.below.perm_listed (some 0) 1 1

theorem Shows.nodup_listed (h : tree.Shows [root]) : (listed tree.nodes).Nodup :=
  h.perm_listed.nodup_iff.mpr List.nodup_range'

theorem Shows.mem_listed_iff (h : tree.Shows [root]) {id : Nat} :
    id ∈ listed tree.nodes ↔ 0 < id ∧ id < tree.size := by
  rw [h.perm_listed.mem_iff, List.mem_range'_1, h.size_eq, Spine.size_cons, Spine.size_nil]
  omega

/-- A node but the root is in the list of its parent. -/
theorem Shows.owned (h : tree.Shows [root]) {id : Nat} {node : Node} (hpos : 0 < id)
    (hget : tree.get? id = some node) :
    ∃ parent host, node.parent = some parent ∧ tree.get? parent = some host ∧
      id ∈ host.children ∧ node.depth = host.depth + 1 := by
  have hid : id < tree.size := isSome_get?_iff.mp (by rw [hget]; rfl)
  obtain ⟨parent, host, hhost, hchild⟩ :=
    Tree.mem_listed_iff.mp (h.mem_listed_iff.mpr ⟨hpos, hid⟩)
  obtain ⟨found, hfound, hparent, hdepth⟩ := fits_unboundedBelow_iff.mp (h.fits hhost hchild)
  obtain rfl : node = found := Option.some.inj (hget.symm.trans hfound)
  exact ⟨parent, host, hparent, hhost, hchild, hdepth⟩

/-- The components of every node are among its children. -/
theorem Shows.linked (h : tree.Shows [root]) (hlinked : Spine.Linked [root]) {id : Nat}
    {node : Node} (hget : tree.get? id = some node) :
    ∀ component ∈ node.kind.components, component ∈ node.children := by
  have hid : id < tree.size := isSome_get?_iff.mp (by rw [hget]; rfl)
  obtain ⟨inner, above, depth, hget', -, hinner⟩ := h.exists_of_each hlinked.1 hlinked.2.1 hid
  obtain rfl := Option.some.inj (hget.symm.trans hget')
  exact hinner

/-- All links of a node lead to nodes, since what is listed as a child has been added to the
tree. -/
theorem Shows.resolved (h : tree.Shows [root]) (hlinked : Spine.Linked [root]) {id : Nat}
    {node : Node} (hget : tree.get? id = some node) :
    Resolved unboundedBelow tree.nodes id node := by
  refine ⟨fun target htarget => ?_, fun child hchild => h.fits hget hchild⟩
  rcases List.mem_append.mp htarget with hcomponent | hparent
  · obtain ⟨found, hfound, -⟩ := h.fits hget (h.linked hlinked hget target hcomponent)
    exact (Array.getElem?_eq_some_iff.mp hfound).1
  · by_cases hpos : 0 < id
    · obtain ⟨parent, host, hparent', hhost, -⟩ := h.owned hpos hget
      rw [hparent', Option.mem_toList] at hparent
      obtain rfl := Option.some.inj hparent
      exact (Array.getElem?_eq_some_iff.mp hhost).1
    · obtain rfl : id = 0 := Nat.eq_zero_of_not_pos hpos
      obtain rfl := Option.some.inj (hget.symm.trans h.get?_top)
      cases hparent

/-- The table of a tree of which only the root is open is sound: its counters are right, and its
links form a tree. -/
theorem Carries.arena (h : tree.Carries [root]) (hlinked : Spine.Linked [root]) : tree.Arena := by
  have hfirst := h.shows.get?_top
  have hpreorder : tree.preorder Tree.root = List.range tree.size := by
    rw [h.shows.preorder_root, List.range_eq_range']
  have hisRoot : ∃ node, tree.get? Tree.root = some node ∧ node.isRoot = true :=
    ⟨_, hfirst, Node.isRoot_iff.mpr ⟨hlinked.2.2.1 rfl, rfl, rfl⟩⟩
  refine
    { preorder := hpreorder
      isRoot := hisRoot
      free := fun hmem => absurd (h.shows.mem_listed_iff.mp hmem).1 (Nat.lt_irrefl 0)
      once := ?_
      owned := fun id node hpos hget => h.shows.owned hpos hget
      linked := fun id node hget => h.shows.linked hlinked hget
      tallied := h.tallied
      visited := by rw [hpreorder, List.length_range, h.tallied.count]
      loads := ?_ }
  · intro id hpos hlt
    have hle := List.nodup_iff_count.mp h.shows.nodup_listed id
    have hmem := List.count_pos_iff.mpr (h.shows.mem_listed_iff.mpr ⟨hpos, hlt⟩)
    omega
  · intro below hbelow
    refine ofNodes_eq_ok_iff.mpr ⟨hisRoot, ⟨fun id node hget => ?_, h.shows.nodup_listed⟩,
      fun id hpos hlt => h.shows.mem_listed_iff.mpr ⟨hpos, hlt⟩, h.tallied.eq_counted hfirst⟩
    obtain ⟨hknown, hfits⟩ := h.shows.resolved hlinked hget
    refine ⟨hknown, fun child hchild => ?_⟩
    -- the depth of a child is counted, so that of its parent is below the height
    obtain ⟨found, hfound, hparent, hdepth⟩ := fits_unboundedBelow_iff.mp (hfits child hchild)
    have hheight : found.depth ≤ tree.height :=
      (greatest_iff.mp h.tallied.height).2 child found hfound
    refine ⟨found, hfound, hparent, ?_⟩
    rw [hbelow node.depth (by omega), hdepth]

/-- The open nodes of a tree can be closed one after the other. -/
theorem Carries.exists_root {node : OpenNode} {outer : Spine} (h : tree.Carries (node :: outer))
    (hlinked : Spine.Linked (node :: outer)) :
    ∃ root, tree.Carries [root] ∧ Spine.Linked [root] := by
  induction outer generalizing node with
  | nil => exact ⟨node, h, hlinked⟩
  | cons host outer ih => exact ih h.close hlinked.close

end

end Tree

end LosslessEbnf
