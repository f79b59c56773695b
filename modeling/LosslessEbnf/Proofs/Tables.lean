import LosslessEbnf.Tree.Table

/-!
# Tables that form a tree

A table of nodes is taken for a tree just if it is one: a single tree without cycles that holds all
nodes, together with its counters.

## Main Definitions

* `Tree.listed` — the entries of all lists of children
* `Tree.ancestor?` — where the links to parents lead
* `Tree.Greatest` — the greatest value of a measure of nodes
* `unboundedBelow`, `wrappedBelow` — the depth of a child without a limit, and where it wraps around
* `Tree.Linked` — what the checks of a table see of its links
* `NodeTable.FormsTree` — a table of nodes forms a tree

## Main Statements

* `Tree.ofNodes_eq_ok_iff` — what the checks of the nodes let through
* `Tree.ancestor?_steps_unique` — the root is reached in one number of steps only
* `NodeTable.isOk_toTree_iff_formsTree` — the tables that are taken for a tree are those that form
  one

## Design Notes

The checks look at one node and its children at a time. That there is no cycle follows from the
depths alone: the node that lists another one stands one step higher, so the links to parents end at
depth 0, and nothing but the root stands there.
-/

namespace LosslessEbnf

/-- A check after another one passes if both pass. -/
theorem bind_eq_ok_iff {ε α β : Type} {first : Except ε α} {next : α → Except ε β} {b : β} :
    (first >>= next) = .ok b ↔ ∃ a, first = .ok a ∧ next a = .ok b := by
  cases first with
  | error e =>
    constructor
    · intro h
      cases h
    · rintro ⟨a, h, -⟩
      cases h
  | ok a =>
    constructor
    · intro h
      exact ⟨a, rfl, h⟩
    · rintro ⟨a', h, hnext⟩
      cases h
      exact hnext

/-- The depth of a child without a limit. -/
def unboundedBelow (depth : Nat) : Option Nat := some (depth + 1)

/-- The depth of a child in words of 64 bits, where the addition wraps around: below the greatest
word it is 0. -/
def wrappedBelow (depth : Nat) : Option Nat := some ((depth + 1) % Text.wordSize)

namespace Tree

/-- The entries of all lists of children, in the order of the table. -/
def listed (nodes : Array Node) : List NodeId := nodes.toList.flatMap Node.children

/-- Where the links to parents lead from a node in the given number of steps. -/
def ancestor? (nodes : Array Node) : Nat → NodeId → Option NodeId
  | 0, id => some id
  | steps + 1, id =>
    match nodes[id]? with
    | some ⟨_, some parent, _, _, _, _⟩ => ancestor? nodes steps parent
    | _ => none

@[simp] theorem ancestor?_zero (nodes : Array Node) (id : NodeId) :
    ancestor? nodes 0 id = some id := rfl

theorem ancestor?_succ {nodes : Array Node} {id parent : NodeId} {node : Node}
    (hget : nodes[id]? = some node) (hparent : node.parent = some parent) (steps : Nat) :
    ancestor? nodes (steps + 1) id = ancestor? nodes steps parent := by
  obtain ⟨kind, parent', children, depth, span, data⟩ := node
  obtain rfl : parent' = some parent := hparent
  rw [ancestor?, hget]

/-- Nothing is above a node without a parent, so no number of steps leads anywhere from there. -/
theorem ancestor?_succ_of_none {nodes : Array Node} {id : NodeId} {node : Node}
    (hget : nodes[id]? = some node) (hparent : node.parent = none) (steps : Nat) :
    ancestor? nodes (steps + 1) id = none := by
  obtain ⟨kind, parent, children, depth, span, data⟩ := node
  obtain rfl : parent = none := hparent
  rw [ancestor?, hget]

/-- The greatest value that a measure takes on the nodes of a table. -/
def Greatest (nodes : Array Node) (measure : Node → Nat) (greatest : Nat) : Prop :=
  (∃ node ∈ nodes.toList, measure node = greatest) ∧
    ∀ node ∈ nodes.toList, measure node ≤ greatest

theorem Greatest.unique {nodes : Array Node} {measure : Node → Nat} {m n : Nat}
    (hm : Greatest nodes measure m) (hn : Greatest nodes measure n) : m = n := by
  obtain ⟨⟨a, ha, rfl⟩, hle⟩ := hm
  obtain ⟨⟨b, hb, rfl⟩, hle'⟩ := hn
  exact Nat.le_antisymm (hle' a ha) (hle b hb)

/-- A running maximum is the start or a value that was met, and it is at least all of these. -/
theorem foldl_max_spec (measure : Node → Nat) (nodes : List Node) (start : Nat) :
    start ≤ nodes.foldl (fun m node => max m (measure node)) start ∧
      (∀ node ∈ nodes, measure node ≤ nodes.foldl (fun m node => max m (measure node)) start) ∧
      (nodes.foldl (fun m node => max m (measure node)) start = start ∨
        ∃ node ∈ nodes,
          measure node = nodes.foldl (fun m node => max m (measure node)) start) := by
  induction nodes generalizing start with
  | nil => exact ⟨Nat.le_refl _, List.forall_mem_nil _, Or.inl rfl⟩
  | cons first rest ih =>
    obtain ⟨hstart, hall, hmet⟩ := ih (max start (measure first))
    rw [List.foldl_cons]
    refine ⟨Nat.le_trans (Nat.le_max_left ..) hstart,
      List.forall_mem_cons.mpr ⟨Nat.le_trans (Nat.le_max_right ..) hstart, hall⟩, ?_⟩
    rcases hmet with hmet | ⟨node, hnode, hmet⟩
    · rw [hmet]
      rcases Nat.le_total start (measure first) with hle | hle
      · exact Or.inr ⟨first, List.mem_cons_self, (Nat.max_eq_right hle).symm⟩
      · exact Or.inl (Nat.max_eq_left hle)
    · exact Or.inr ⟨node, List.mem_cons_of_mem _ hnode, hmet⟩

/-- The counters of a table are computed as running maxima, and what comes out is the greatest
value. -/
theorem greatest_foldl {nodes : Array Node} {first : Node} (hfirst : nodes[0]? = some first)
    (measure : Node → Nat) :
    Greatest nodes measure (nodes.foldl (fun m node => max m (measure node)) 0) := by
  obtain ⟨-, hall, hmet⟩ := foldl_max_spec measure nodes.toList 0
  rw [Array.foldl_toList] at hall hmet
  refine ⟨?_, hall⟩
  rcases hmet with hzero | hmet
  · -- where the maximum is 0, the first node has it
    have hmem : first ∈ nodes.toList := Array.mem_toList_iff.mpr (Array.mem_of_getElem? hfirst)
    refine ⟨first, hmem, Nat.le_antisymm (hall first hmem) ?_⟩
    rw [hzero]
    exact Nat.zero_le _
  · exact hmet

/-! ### The checks of one node -/

theorem forM_checkTarget_eq_ok_iff {nodes : Array Node} {id : NodeId} {targets : List Nat}
    {u : Unit} :
    targets.forM (checkTarget nodes id) = .ok u ↔ ∀ target ∈ targets, target < nodes.size := by
  induction targets with
  | nil =>
    constructor
    · intro _
      exact List.forall_mem_nil _
    · intro _
      rfl
  | cons target rest ih =>
    rw [List.forM_eq_forM, List.forM_cons, bind_eq_ok_iff, List.forall_mem_cons]
    constructor
    · rintro ⟨_, htarget, hrest⟩
      exact ⟨checkTarget_eq_ok_iff.mp htarget, ih.mp hrest⟩
    · rintro ⟨htarget, hrest⟩
      exact ⟨(), checkTarget_eq_ok_iff.mpr htarget, ih.mpr hrest⟩

/-- An entry in the list of children of the node `id` at the given depth is a node that points back
and stands one step further down. -/
def Fits (below : Nat → Option Nat) (nodes : Array Node) (id : NodeId) (depth : Nat)
    (child : NodeId) : Prop :=
  ∃ node, nodes[child]? = some node ∧ node.parent = some id ∧ below depth = some node.depth

/-- Without a limit there is one step from any depth to the one of a child. -/
theorem fits_unboundedBelow_iff {nodes : Array Node} {id : NodeId} {depth : Nat} {child : NodeId} :
    Fits unboundedBelow nodes id depth child ↔
      ∃ node, nodes[child]? = some node ∧ node.parent = some id ∧ node.depth = depth + 1 := by
  refine exists_congr fun node => and_congr_right fun _ => and_congr_right fun _ => ?_
  rw [unboundedBelow, Option.some.injEq]
  exact eq_comm

/-- The entries of one list of children pass if each of them fits and none is met twice. -/
theorem foldlM_checkChild_eq_ok_iff {below : Nat → Option Nat} {nodes : Array Node} {id : NodeId}
    {depth : Nat} {children met met' : List NodeId} (hmet : met.Nodup) :
    children.foldlM (checkChild below nodes id depth) met = .ok met' ↔
      (∀ child ∈ children, Fits below nodes id depth child) ∧
        (children.reverse ++ met).Nodup ∧ met' = children.reverse ++ met := by
  induction children generalizing met with
  | nil =>
    constructor
    · intro h
      cases h
      exact ⟨List.forall_mem_nil _, hmet, rfl⟩
    · rintro ⟨-, -, rfl⟩
      rfl
  | cons child rest ih =>
    rw [List.foldlM_cons, bind_eq_ok_iff, List.forall_mem_cons, List.reverse_cons,
      List.append_assoc, List.singleton_append]
    constructor
    · rintro ⟨met₁, hchild, hrest⟩
      obtain ⟨hfits, hnew, rfl⟩ := checkChild_eq_ok_iff.mp hchild
      obtain ⟨hrest, hnodup, hmet'⟩ := (ih (List.nodup_cons.mpr ⟨hnew, hmet⟩)).mp hrest
      exact ⟨⟨hfits, hrest⟩, hnodup, hmet'⟩
    · rintro ⟨⟨hfits, hrest⟩, hnodup, hmet'⟩
      have hnext : (child :: met).Nodup := (List.nodup_append.mp hnodup).2.1
      exact ⟨child :: met, checkChild_eq_ok_iff.mpr ⟨hfits, (List.nodup_cons.mp hnext).1, rfl⟩,
        (ih hnext).mpr ⟨hrest, hnodup, hmet'⟩⟩

/-! ### The checks of all nodes -/

/-- The links of one node lead to nodes, and its children fit. -/
structure Resolved (below : Nat → Option Nat) (nodes : Array Node) (id : NodeId) (node : Node) :
    Prop where
  /-- The links to components and to the parent lead to nodes. -/
  known : ∀ target ∈ node.kind.components ++ node.parent.toList, target < nodes.size
  /-- A child points back and stands one step further down. -/
  fits : ∀ child ∈ node.children, Fits below nodes id node.depth child

theorem foldlM_checkNode_eq_ok_iff {below : Nat → Option Nat} {nodes : Array Node}
    {entries : List (Node × NodeId)} {met met' : List NodeId} (hmet : met.Nodup) :
    entries.foldlM (checkNode below nodes) met = .ok met' ↔
      (∀ entry ∈ entries, Resolved below nodes entry.2 entry.1) ∧
        ((entries.flatMap fun entry => entry.1.children).reverse ++ met).Nodup ∧
        met' = (entries.flatMap fun entry => entry.1.children).reverse ++ met := by
  induction entries generalizing met with
  | nil =>
    constructor
    · intro h
      cases h
      exact ⟨List.forall_mem_nil _, hmet, rfl⟩
    · rintro ⟨-, -, rfl⟩
      rfl
  | cons entry rest ih =>
    rw [List.foldlM_cons, bind_eq_ok_iff, List.forall_mem_cons, List.flatMap_cons,
      List.reverse_append, List.append_assoc]
    constructor
    · rintro ⟨met₁, hentry, hrest⟩
      obtain ⟨_, htargets, hchildren⟩ := bind_eq_ok_iff.mp hentry
      obtain ⟨hfits, hnodup, rfl⟩ := (foldlM_checkChild_eq_ok_iff hmet).mp hchildren
      obtain ⟨hrest, hnodup', hmet'⟩ := (ih hnodup).mp hrest
      exact ⟨⟨⟨forM_checkTarget_eq_ok_iff.mp htargets, hfits⟩, hrest⟩, hnodup', hmet'⟩
    · rintro ⟨⟨⟨htargets, hfits⟩, hrest⟩, hnodup, hmet'⟩
      have hnext : (entry.1.children.reverse ++ met).Nodup := (List.nodup_append.mp hnodup).2.1
      refine ⟨entry.1.children.reverse ++ met, bind_eq_ok_iff.mpr ⟨(), ?_, ?_⟩,
        (ih hnext).mpr ⟨hrest, hnodup, hmet'⟩⟩
      · exact forM_checkTarget_eq_ok_iff.mpr htargets
      · exact (foldlM_checkChild_eq_ok_iff hmet).mpr ⟨hfits, hnext, rfl⟩

/-- What the checks of a table see of its links. -/
structure Linked (below : Nat → Option Nat) (nodes : Array Node) : Prop where
  /-- The links of every node are sound. -/
  resolved : ∀ (id : NodeId) (node : Node), nodes[id]? = some node → Resolved below nodes id node
  /-- No node is listed twice. -/
  nodup : (listed nodes).Nodup

/-- Links that pass also do so without a limit, if nothing but one more than the depth of a node is
taken for the depth of its children. -/
theorem Linked.mono {below : Nat → Option Nat} {nodes : Array Node} (h : Linked below nodes)
    (hbelow : ∀ node ∈ nodes.toList, ∀ depth, below node.depth = some depth →
      node.depth + 1 = depth) : Linked unboundedBelow nodes := by
  refine ⟨fun id node hget => ?_, h.nodup⟩
  obtain ⟨hknown, hfits⟩ := h.resolved id node hget
  refine ⟨hknown, fun child hchild => ?_⟩
  obtain ⟨found, hfound, hparent, hdepth⟩ := hfits child hchild
  have hmem := Array.mem_toList_iff.mpr (Array.mem_of_getElem? hget)
  exact ⟨found, hfound, hparent, congrArg some (hbelow node hmem _ hdepth)⟩

theorem checkLinks_eq_ok_iff {below : Nat → Option Nat} {nodes : Array Node} {met : List NodeId} :
    checkLinks below nodes = .ok met ↔
      Linked below nodes ∧ met = (listed nodes).reverse := by
  have hlisted : (nodes.toList.zipIdx.flatMap fun entry => entry.1.children) = listed nodes := by
    rw [← List.flatMap_map Prod.fst Node.children, List.zipIdx_map_fst]
    rfl
  rw [checkLinks, foldlM_checkNode_eq_ok_iff List.nodup_nil, hlisted, List.append_nil,
    (List.reverse_perm _).nodup_iff]
  have hmem : ∀ (id : NodeId) (node : Node),
      (node, id) ∈ nodes.toList.zipIdx ↔ nodes[id]? = some node := by
    intro id node
    rw [List.mem_zipIdx_iff_getElem?, Array.getElem?_toList]
  constructor
  · rintro ⟨hentries, hnodup, rfl⟩
    exact ⟨⟨fun id node hget => hentries (node, id) ((hmem id node).mpr hget), hnodup⟩, rfl⟩
  · rintro ⟨⟨hresolved, hnodup⟩, rfl⟩
    exact ⟨fun entry hentry => hresolved entry.2 entry.1 ((hmem _ _).mp hentry), hnodup, rfl⟩

theorem firstUnlisted_eq_none_iff {size : Nat} {met : List NodeId} :
    firstUnlisted size met = none ↔ ∀ id, 0 < id → id < size → id ∈ met := by
  rw [firstUnlisted, List.find?_eq_none]
  constructor
  · intro h id hpos hlt
    have hmem : id ∈ (List.range size).drop 1 := by
      rw [List.mem_drop_iff_getElem]
      refine ⟨id - 1, ?_, ?_⟩
      · rw [List.length_range]
        omega
      · rw [List.getElem_range]
        omega
    simpa using h id hmem
  · intro h id hmem
    obtain ⟨i, hi, rfl⟩ := List.mem_drop_iff_getElem.mp hmem
    rw [List.length_range] at hi
    rw [List.getElem_range, Nat.add_comm]
    simpa using h (i + 1) (by omega) hi

/-- The tables that pass: the first node is a root, the links fit, and every other node is listed.
-/
theorem ofNodes_eq_ok_iff {below : Nat → Option Nat} {nodes : Array Node} {tree : Tree} :
    ofNodes below nodes = .ok tree ↔
      (∃ first, nodes[0]? = some first ∧ first.isRoot = true) ∧ Linked below nodes ∧
        (∀ id, 0 < id → id < nodes.size → id ∈ listed nodes) ∧ tree = counted nodes := by
  unfold ofNodes
  cases hfirst : nodes[0]? with
  | none =>
    constructor
    · intro h
      cases h
    · rintro ⟨⟨first, hget, -⟩, -⟩
      cases hget
  | some first =>
    simp only
    cases hroot : first.isRoot with
    | false =>
      rw [if_neg Bool.false_ne_true]
      constructor
      · intro h
        cases h
      · rintro ⟨⟨first', hget, hroot'⟩, -⟩
        cases hget
        rw [hroot] at hroot'
        cases hroot'
    | true =>
      rw [if_pos rfl, bind_eq_ok_iff]
      constructor
      · rintro ⟨met, hlinks, hrest⟩
        obtain ⟨hlinked, rfl⟩ := checkLinks_eq_ok_iff.mp hlinks
        split at hrest
        · cases hrest
        · rename_i hnone
          cases hrest
          refine ⟨⟨first, rfl, hroot⟩, hlinked, ?_, rfl⟩
          intro id hpos hlt
          exact List.mem_reverse.mp (firstUnlisted_eq_none_iff.mp hnone id hpos hlt)
      · rintro ⟨-, hlinked, hall, rfl⟩
        refine ⟨_, checkLinks_eq_ok_iff.mpr ⟨hlinked, rfl⟩, ?_⟩
        rw [firstUnlisted_eq_none_iff.mpr]
        intro id hpos hlt
        exact List.mem_reverse.mpr (hall id hpos hlt)

/-! ### Where the links to parents lead -/

/-- The root is reached in one number of steps only, as nothing is above it. -/
theorem ancestor?_steps_unique {nodes : Array Node} {first : Node}
    (hfirst : nodes[0]? = some first) (hnone : first.parent = none) {j k : Nat} {id : NodeId}
    (hj : ancestor? nodes j id = some root) (hk : ancestor? nodes k id = some root) : j = k := by
  have hstop : ∀ steps, ancestor? nodes (steps + 1) root = none :=
    fun steps => ancestor?_succ_of_none hfirst hnone steps
  induction j generalizing id k with
  | zero =>
    obtain rfl : id = root := Option.some.inj hj
    cases k with
    | zero => rfl
    | succ k =>
      rw [hstop] at hk
      cases hk
  | succ j ih =>
    cases k with
    | zero =>
      obtain rfl : id = root := Option.some.inj hk
      rw [hstop] at hj
      cases hj
    | succ k =>
      cases hget : nodes[id]? with
      | none =>
        rw [ancestor?, hget] at hj
        cases hj
      | some node =>
        cases hparent : node.parent with
        | none =>
          rw [ancestor?_succ_of_none hget hparent] at hj
          cases hj
        | some parent =>
          rw [ancestor?_succ hget hparent] at hj hk
          rw [ih hj hk]

theorem mem_listed_iff {nodes : Array Node} {child : NodeId} :
    child ∈ listed nodes ↔
      ∃ (id : NodeId) (node : Node), nodes[id]? = some node ∧ child ∈ node.children := by
  rw [listed, List.mem_flatMap]
  constructor
  · rintro ⟨node, hmem, hchild⟩
    obtain ⟨id, hget⟩ := Array.mem_iff_getElem?.mp (Array.mem_toList_iff.mp hmem)
    exact ⟨id, node, hget, hchild⟩
  · rintro ⟨id, node, hget, hchild⟩
    exact ⟨node, Array.mem_toList_iff.mpr (Array.mem_of_getElem? hget), hchild⟩

/-- If no node is listed twice, each stands in the list of one node only. -/
theorem lister_unique {nodes : Array Node} (hnodup : (listed nodes).Nodup) {i j : NodeId}
    {a b : Node} (hi : nodes[i]? = some a) (hj : nodes[j]? = some b) {child : NodeId}
    (ha : child ∈ a.children) (hb : child ∈ b.children) : i = j := by
  have hpairs := List.pairwise_iff_getElem.mp (List.pairwise_flatMap.mp hnodup).2
  have hne : ∀ i j : NodeId, ∀ a b : Node, nodes[i]? = some a → nodes[j]? = some b →
      child ∈ a.children → child ∈ b.children → ¬ i < j := by
    intro i j a b hi hj ha hb hlt
    rw [← Array.getElem?_toList] at hi hj
    obtain ⟨hilt, rfl⟩ := List.getElem?_eq_some_iff.mp hi
    obtain ⟨hjlt, rfl⟩ := List.getElem?_eq_some_iff.mp hj
    exact hpairs i j hilt hjlt hlt child ha child hb rfl
  exact Nat.le_antisymm (Nat.le_of_not_lt (hne j i b a hj hi hb ha))
    (Nat.le_of_not_lt (hne i j a b hi hj ha hb))

end Tree

namespace NodeTable

/-- A table of nodes with its counters forms one tree. -/
structure FormsTree (table : NodeTable) : Prop where
  /-- The first node is a root at depth 0 with nothing above it. -/
  root : ∃ first, table.nodes[0]? = some first ∧
    first.kind = .root ∧ first.parent = none ∧ first.depth = 0
  /-- Every link of a node leads to a node. -/
  known : ∀ node ∈ table.nodes.toList,
    ∀ target ∈ node.kind.components ++ node.parent.toList ++ node.children,
      target < table.nodes.size
  /-- Every node but the first occurs once in all lists of children. -/
  once : ∀ id, 0 < id → id < table.nodes.size → (Tree.listed table.nodes).count id = 1
  /-- Every node but the first occurs in the list of its parent. -/
  owned : ∀ id node, 0 < id → table.nodes[id]? = some node →
    ∃ parent host, node.parent = some parent ∧ table.nodes[parent]? = some host ∧
      id ∈ host.children
  /-- The first node occurs in no list of children. -/
  free : Tree.root ∉ Tree.listed table.nodes
  /-- The links to parents lead from a node to the first one in as many steps as its depth. -/
  steps : ∀ id node, table.nodes[id]? = some node →
    Tree.ancestor? table.nodes node.depth id = some Tree.root
  /-- The number of nodes is right. -/
  count : table.count = table.nodes.size
  /-- The height is the greatest depth. -/
  height : Tree.Greatest table.nodes Node.depth table.height
  /-- The degree is the greatest number of children. -/
  maxDegree : Tree.Greatest table.nodes (·.children.length) table.maxDegree

namespace FormsTree

variable {table : NodeTable}

/-- What is listed is a node, and not the first one. -/
theorem range_of_mem_listed (h : table.FormsTree) {id : NodeId}
    (hmem : id ∈ Tree.listed table.nodes) : 0 < id ∧ id < table.nodes.size := by
  refine ⟨Nat.pos_of_ne_zero ?_, ?_⟩
  · rintro rfl
    exact h.free hmem
  · obtain ⟨i, host, hget, hchild⟩ := Tree.mem_listed_iff.mp hmem
    exact h.known host (Array.mem_toList_iff.mpr (Array.mem_of_getElem? hget)) id
      (List.mem_append_right _ hchild)

theorem nodup (h : table.FormsTree) : (Tree.listed table.nodes).Nodup := by
  rw [List.nodup_iff_count]
  intro id
  by_cases hmem : id ∈ Tree.listed table.nodes
  · obtain ⟨hpos, hlt⟩ := h.range_of_mem_listed hmem
    exact Nat.le_of_eq (h.once id hpos hlt)
  · rw [List.count_eq_zero_of_not_mem hmem]
    exact Nat.zero_le _

/-- An entry of a list of children points back and stands one step further down, as depths are
counted along the links to parents. -/
theorem fits (h : table.FormsTree) {id child : NodeId} {host : Node}
    (hget : table.nodes[id]? = some host) (hchild : child ∈ host.children) :
    Tree.Fits unboundedBelow table.nodes id host.depth child := by
  obtain ⟨hpos, hlt⟩ := h.range_of_mem_listed (Tree.mem_listed_iff.mpr ⟨id, host, hget, hchild⟩)
  obtain ⟨node, hnode⟩ : ∃ node, table.nodes[child]? = some node :=
    ⟨_, Array.getElem?_eq_getElem hlt⟩
  obtain ⟨parent, host', hparent, hget', hchild'⟩ := h.owned child node hpos hnode
  obtain rfl : parent = id := Tree.lister_unique h.nodup hget' hget hchild' hchild
  refine Tree.fits_unboundedBelow_iff.mpr ⟨node, hnode, hparent, ?_⟩
  -- both depths are counted along the links to parents, and the last step leads to the parent
  obtain ⟨first, hfirst, -, hnone, -⟩ := h.root
  have hsteps := h.steps child node hnode
  cases hdepth : node.depth with
  | zero =>
    rw [hdepth, Tree.ancestor?_zero] at hsteps
    exact absurd (Option.some.inj hsteps) (Nat.ne_of_gt hpos)
  | succ depth =>
    rw [hdepth, Tree.ancestor?_succ hnode hparent] at hsteps
    rw [Tree.ancestor?_steps_unique hfirst hnone hsteps (h.steps parent host hget)]

end FormsTree

/-- A table passes if its nodes do and its counters are those of its nodes. -/
theorem toTree_eq_ok_iff {table : NodeTable} {below : Nat → Option Nat} {tree : Tree} :
    table.toTree below = .ok tree ↔
      Tree.ofNodes below table.nodes = .ok tree ∧ table.count = tree.count ∧
        table.height = tree.height ∧ table.maxDegree = tree.maxDegree := by
  unfold toTree
  rw [bind_eq_ok_iff]
  constructor
  · rintro ⟨tree', htree, hcounters⟩
    obtain ⟨_, hcount, hcounters⟩ := bind_eq_ok_iff.mp hcounters
    obtain ⟨_, hheight, hcounters⟩ := bind_eq_ok_iff.mp hcounters
    obtain ⟨_, hdegree, hsame⟩ := bind_eq_ok_iff.mp hcounters
    cases hsame
    exact ⟨htree, checkCounter_eq_ok_iff.mp hcount, checkCounter_eq_ok_iff.mp hheight,
      checkCounter_eq_ok_iff.mp hdegree⟩
  · rintro ⟨htree, hcount, hheight, hdegree⟩
    refine ⟨tree, htree, bind_eq_ok_iff.mpr ⟨(), checkCounter_eq_ok_iff.mpr hcount, ?_⟩⟩
    refine bind_eq_ok_iff.mpr ⟨(), checkCounter_eq_ok_iff.mpr hheight, ?_⟩
    exact bind_eq_ok_iff.mpr ⟨(), checkCounter_eq_ok_iff.mpr hdegree, rfl⟩

/-! ### The tables that are taken for a tree -/

section

variable {table : NodeTable} {below : Nat → Option Nat}

/-- The links of a table that forms a tree pass the checks. -/
theorem FormsTree.linked (h : table.FormsTree)
    (hbelow : ∀ node ∈ table.nodes.toList, below node.depth = some (node.depth + 1)) :
    Tree.Linked below table.nodes := by
  refine ⟨fun id node hget => ?_, h.nodup⟩
  have hmem : node ∈ table.nodes.toList :=
    Array.mem_toList_iff.mpr (Array.mem_of_getElem? hget)
  refine ⟨fun target htarget => h.known node hmem target (List.mem_append_left _ htarget), ?_⟩
  intro child hchild
  obtain ⟨found, hfound, hparent, hdepth⟩ := h.fits hget hchild
  exact ⟨found, hfound, hparent, (hbelow node hmem).trans hdepth⟩

/-- A listed node passed the check of the list that it stands in. -/
theorem owner_of_linked (hlinked : Tree.Linked below table.nodes)
    (hbelow : ∀ node ∈ table.nodes.toList, below node.depth = some (node.depth + 1)) {id : NodeId}
    {node : Node} (hget : table.nodes[id]? = some node) (hmem : id ∈ Tree.listed table.nodes) :
    ∃ parent host, node.parent = some parent ∧ table.nodes[parent]? = some host ∧
      id ∈ host.children ∧ node.depth = host.depth + 1 := by
  obtain ⟨parent, host, hhost, hchild⟩ := Tree.mem_listed_iff.mp hmem
  obtain ⟨found, hfound, hparent, hdepth⟩ := (hlinked.resolved parent host hhost).fits id hchild
  obtain rfl : node = found := Option.some.inj (hget.symm.trans hfound)
  rw [hbelow host (Array.mem_toList_iff.mpr (Array.mem_of_getElem? hhost))] at hdepth
  exact ⟨parent, host, hparent, hhost, hchild, (Option.some.inj hdepth).symm⟩

/-- Going to the parent lowers the depth by one, so as many steps as the depth lead to the root. -/
theorem ancestor?_depth_of_linked (hlinked : Tree.Linked below table.nodes)
    (hbelow : ∀ node ∈ table.nodes.toList, below node.depth = some (node.depth + 1))
    (hroot : ∃ first, table.nodes[0]? = some first ∧ first.isRoot = true)
    (hall : ∀ id, 0 < id → id < table.nodes.size → id ∈ Tree.listed table.nodes) {depth : Nat}
    {id : NodeId} {node : Node} (hget : table.nodes[id]? = some node)
    (hdepth : node.depth = depth) :
    Tree.ancestor? table.nodes depth id = some Tree.root := by
  induction depth generalizing id node with
  | zero =>
    -- a listed node has a positive depth
    by_cases hpos : 0 < id
    · obtain ⟨hlt, -⟩ := Array.getElem?_eq_some_iff.mp hget
      obtain ⟨parent, host, -, -, -, hbelow'⟩ :=
        owner_of_linked hlinked hbelow hget (hall id hpos hlt)
      omega
    · obtain rfl : id = 0 := Nat.eq_zero_of_not_pos hpos
      rfl
  | succ depth ih =>
    by_cases hpos : 0 < id
    · obtain ⟨hlt, -⟩ := Array.getElem?_eq_some_iff.mp hget
      obtain ⟨parent, host, hparent, hhost, -, hstep⟩ :=
        owner_of_linked hlinked hbelow hget (hall id hpos hlt)
      rw [Tree.ancestor?_succ hget hparent]
      exact ih hhost (by omega)
    · obtain rfl : id = 0 := Nat.eq_zero_of_not_pos hpos
      obtain ⟨first, hfirst, hisroot⟩ := hroot
      obtain rfl : node = first := Option.some.inj (hget.symm.trans hfirst)
      rw [(Node.isRoot_iff.mp hisroot).2.2] at hdepth
      cases hdepth

/-- A table whose nodes pass and whose counters are those of its nodes forms a tree. -/
theorem formsTree_of_linked (hlinked : Tree.Linked below table.nodes)
    (hbelow : ∀ node ∈ table.nodes.toList, below node.depth = some (node.depth + 1))
    (hroot : ∃ first, table.nodes[0]? = some first ∧ first.isRoot = true)
    (hall : ∀ id, 0 < id → id < table.nodes.size → id ∈ Tree.listed table.nodes)
    (hcount : table.count = table.nodes.size)
    (hheight : Tree.Greatest table.nodes Node.depth table.height)
    (hdegree : Tree.Greatest table.nodes (·.children.length) table.maxDegree) :
    table.FormsTree where
  root := by
    obtain ⟨first, hfirst, hisroot⟩ := hroot
    exact ⟨first, hfirst, Node.isRoot_iff.mp hisroot⟩
  known := by
    intro node hmem target htarget
    obtain ⟨id, hget⟩ := Array.mem_iff_getElem?.mp (Array.mem_toList_iff.mp hmem)
    rcases List.mem_append.mp htarget with hlink | hchild
    · exact (hlinked.resolved id node hget).known target hlink
    · obtain ⟨found, hfound, -⟩ := (hlinked.resolved id node hget).fits target hchild
      exact (Array.getElem?_eq_some_iff.mp hfound).1
  once := by
    intro id hpos hlt
    have hmem := List.count_pos_iff.mpr (hall id hpos hlt)
    have hle := List.nodup_iff_count.mp hlinked.nodup id
    omega
  owned := by
    intro id node hpos hget
    obtain ⟨hlt, -⟩ := Array.getElem?_eq_some_iff.mp hget
    obtain ⟨parent, host, hparent, hhost, hchild, -⟩ :=
      owner_of_linked hlinked hbelow hget (hall id hpos hlt)
    exact ⟨parent, host, hparent, hhost, hchild⟩
  free := by
    intro hmem
    obtain ⟨first, hfirst, hisroot⟩ := hroot
    obtain ⟨parent, host, hparent, -⟩ := owner_of_linked hlinked hbelow hfirst hmem
    rw [(Node.isRoot_iff.mp hisroot).2.1] at hparent
    cases hparent
  steps := fun _ _ hget => ancestor?_depth_of_linked hlinked hbelow hroot hall hget rfl
  count := hcount
  height := hheight
  maxDegree := hdegree

/-- A table is taken for a tree just if it forms one, as long as the depth of a child is one more
than that of its parent. Nothing in the table changes. -/
theorem isOk_toTree_iff_formsTree (table : NodeTable) (below : Nat → Option Nat)
    (hbelow : ∀ node ∈ table.nodes.toList, below node.depth = some (node.depth + 1)) :
    ((table.toTree below).isOk = true ↔ table.FormsTree) ∧
      ∀ tree, table.toTree below = .ok tree → tree.toTable = table := by
  constructor
  · constructor
    · intro hok
      cases htree : table.toTree below with
      | error halt =>
        rw [htree] at hok
        cases hok
      | ok tree =>
        obtain ⟨hnodes, hcount, hheight, hdegree⟩ := toTree_eq_ok_iff.mp htree
        obtain ⟨⟨first, hfirst, hisroot⟩, hlinked, hall, rfl⟩ := Tree.ofNodes_eq_ok_iff.mp hnodes
        refine formsTree_of_linked hlinked hbelow ⟨first, hfirst, hisroot⟩ hall hcount ?_ ?_
        · rw [hheight]
          exact Tree.greatest_foldl hfirst Node.depth
        · rw [hdegree]
          exact Tree.greatest_foldl hfirst (·.children.length)
    · intro h
      obtain ⟨first, hfirst, hisroot⟩ := h.root
      have hnodes : Tree.ofNodes below table.nodes = .ok (Tree.counted table.nodes) :=
        Tree.ofNodes_eq_ok_iff.mpr ⟨⟨first, hfirst, Node.isRoot_iff.mpr hisroot⟩,
          h.linked hbelow,
          fun id hpos hlt => List.count_pos_iff.mp (by rw [h.once id hpos hlt]; exact Nat.one_pos),
          rfl⟩
      have htree : table.toTree below = .ok (Tree.counted table.nodes) :=
        toTree_eq_ok_iff.mpr ⟨hnodes, h.count,
          h.height.unique (Tree.greatest_foldl hfirst Node.depth),
          h.maxDegree.unique (Tree.greatest_foldl hfirst (·.children.length))⟩
      rw [htree]
      rfl
  · intro tree htree
    obtain ⟨hnodes, hcount, hheight, hdegree⟩ := toTree_eq_ok_iff.mp htree
    obtain ⟨-, -, -, rfl⟩ := Tree.ofNodes_eq_ok_iff.mp hnodes
    rw [Tree.toTable, ← hcount, ← hheight, ← hdegree]
    rfl

/-- A blank below the root, with depths in words of 64 bits. -/
theorem isOk_toTree_iff_formsTree_blank :
    (∀ node ∈ (Tree.empty.pushChild 0 .space .start " ").toTable.nodes.toList,
      checkedBelow node.depth = some (node.depth + 1)) ∧
      (Tree.empty.pushChild 0 .space .start " ").toTable.FormsTree :=
  ⟨by decide, (isOk_toTree_iff_formsTree (Tree.empty.pushChild 0 .space .start " ").toTable
    checkedBelow (by decide)).1.mp (by decide)⟩

end

end NodeTable

end LosslessEbnf
