import LosslessEbnf.Proofs.Traversal

/-!
# Defects of tables

A table of nodes that is not taken for a tree is refused for a reason, and the reason is there: the
nodes that the defect names are as it says, and everything that is checked before it is in order.

## Main Definitions

* `Tree.ObjectsToChild` — why an entry in a list of children does not pass
* `Counter.Counts`, `NodeTable.counter` — the counters of some nodes, and those a table comes with
* `Defect.Present` — what a defect says of a table

## Main Statements

* `foldlM_eq_error_iff` — a pass fails at the first entry that does not pass
* `Tree.checkChild_eq_error_iff` — what ends the check of an entry
* `Tree.present_of_checkLinks` — the defects of links
* `NodeTable.present_of_toTree` — the defects of a table, where depths are counted without a limit
  or the addition is checked
* `NodeTable.present_of_toTree_error` — the defects of a table whose depths are words

## Design Notes

The checks stop at the first defect, so what a defect means depends on what was passed before it. A
node that is met twice, say, points back to the node that lists it, and so did the first time: both
times it is the same list.

Depths are words. Where there is no word for the depth of a child, the check ends without a defect,
so all that is reported of depths is true of depths without a limit.
-/

namespace LosslessEbnf

/-- A check after another one fails if the first one does, or if it passes and the second fails. -/
theorem bind_eq_error_iff {ε α β : Type} {first : Except ε α} {next : α → Except ε β} {e : ε} :
    (first >>= next) = .error e ↔ first = .error e ∨ ∃ a, first = .ok a ∧ next a = .error e := by
  cases first with
  | error e' =>
    constructor
    · intro h
      exact Or.inl (congrArg Except.error (Except.error.inj h))
    · rintro (h | ⟨a, h, -⟩)
      · exact congrArg Except.error (Except.error.inj h)
      · cases h
  | ok a =>
    constructor
    · intro h
      exact Or.inr ⟨a, rfl, h⟩
    · rintro (h | ⟨a', h, hnext⟩)
      · cases h
      · cases h
        exact hnext

/-- A pass over a list fails at the first entry that does not pass behind those in front of it. -/
theorem foldlM_eq_error_iff {ε α β : Type} {f : β → α → Except ε β} {xs : List α} {start : β}
    {e : ε} :
    xs.foldlM f start = .error e ↔
      ∃ front x back state, xs = front ++ x :: back ∧ front.foldlM f start = .ok state ∧
        f state x = .error e := by
  induction xs generalizing start with
  | nil =>
    constructor
    · intro h
      cases h
    · rintro ⟨front, x, back, state, hsplit, -⟩
      cases front <;> cases hsplit
  | cons y xs ih =>
    rw [List.foldlM_cons, bind_eq_error_iff]
    constructor
    · rintro (hy | ⟨middle, hy, hxs⟩)
      · exact ⟨[], y, xs, start, rfl, rfl, hy⟩
      · obtain ⟨front, x, back, state, rfl, hfront, hx⟩ := ih.mp hxs
        refine ⟨y :: front, x, back, state, rfl, ?_, hx⟩
        rw [List.foldlM_cons]
        exact bind_eq_ok_iff.mpr ⟨middle, hy, hfront⟩
    · rintro ⟨front, x, back, state, hsplit, hfront, hx⟩
      cases front with
      | nil =>
        obtain ⟨rfl, rfl⟩ := List.cons.inj hsplit
        cases hfront
        exact Or.inl hx
      | cons z front =>
        obtain ⟨rfl, rfl⟩ := List.cons.inj hsplit
        rw [List.foldlM_cons] at hfront
        obtain ⟨middle, hy, hfront⟩ := bind_eq_ok_iff.mp hfront
        exact Or.inr ⟨middle, hy, ih.mpr ⟨front, x, back, state, rfl, hfront, hx⟩⟩

/-! ### What does not pass -/

namespace Tree

variable {below : Nat → Option Nat} {nodes : Array Node} {id : NodeId} {depth : Nat}
  {met : List NodeId} {child : NodeId} {halt : Halt}

/-- A pass over links ends at one that leads to no node, and reports it with the node that has
it. -/
theorem forM_checkTarget_eq_error {targets : List Nat}
    (h : targets.forM (checkTarget nodes id) = .error halt) :
    ∃ target ∈ targets, nodes.size ≤ target ∧ halt = .defect (.unknownNode id target) := by
  induction targets with
  | nil => cases h
  | cons target rest ih =>
    rw [List.forM_eq_forM, List.forM_cons] at h
    rcases bind_eq_error_iff.mp h with htarget | ⟨_, -, hrest⟩
    · rw [checkTarget] at htarget
      split at htarget
      · cases htarget
      · rename_i hle
        exact ⟨target, List.mem_cons_self, Nat.le_of_not_lt hle, (Except.error.inj htarget).symm⟩
    · obtain ⟨other, hmem, hother⟩ := ih hrest
      exact ⟨other, List.mem_cons_of_mem _ hmem, hother⟩

/-- What ends the check of an entry in the list of children of the node `id` at the given depth. -/
inductive ObjectsToChild (below : Nat → Option Nat) (nodes : Array Node) (id : NodeId) (depth : Nat)
    (met : List NodeId) (child : NodeId) : Halt → Prop
  /-- It is no node. -/
  | unknown (get : nodes[child]? = none) :
      ObjectsToChild below nodes id depth met child (.defect (.unknownNode id child))
  /-- It does not point back. -/
  | oneSided {node : Node} (get : nodes[child]? = some node) (parent : node.parent ≠ some id) :
      ObjectsToChild below nodes id depth met child (.defect (.oneSidedLink id child))
  /-- It was met before. -/
  | twice {node : Node} (get : nodes[child]? = some node) (parent : node.parent = some id)
      (mem : child ∈ met) :
      ObjectsToChild below nodes id depth met child (.defect (.listedTwice child))
  /-- There is no depth for it. -/
  | tooDeep {node : Node} (get : nodes[child]? = some node) (parent : node.parent = some id)
      (new : child ∉ met) (none : below depth = none) :
      ObjectsToChild below nodes id depth met child .overflow
  /-- It does not stand one step further down. -/
  | misplaced {node : Node} {expected : Nat} (get : nodes[child]? = some node)
      (parent : node.parent = some id) (new : child ∉ met) (some : below depth = some expected)
      (ne : node.depth ≠ expected) :
      ObjectsToChild below nodes id depth met child
        (.defect (.depthMismatch child node.depth expected))

theorem checkChild_eq_error_iff :
    checkChild below nodes id depth met child = .error halt ↔
      ObjectsToChild below nodes id depth met child halt := by
  constructor
  · intro h
    unfold checkChild at h
    cases hget : nodes[child]? with
    | none =>
      rw [hget] at h
      cases h
      exact .unknown hget
    | some node =>
      rw [hget] at h
      dsimp only at h
      split at h
      · rename_i hparent
        cases h
        exact .oneSided hget hparent
      rename_i hparent
      have hparent : node.parent = some id := Decidable.of_not_not hparent
      split at h
      · rename_i hmem
        cases h
        exact .twice hget hparent hmem
      rename_i hnew
      cases hdepth : below depth with
      | none =>
        rw [hdepth] at h
        cases h
        exact .tooDeep hget hparent hnew hdepth
      | some expected =>
        rw [hdepth] at h
        dsimp only at h
        split at h
        · rename_i hne
          cases h
          exact .misplaced hget hparent hnew hdepth hne
        · cases h
  · intro h
    unfold checkChild
    cases h with
    | unknown hget => rw [hget]
    | oneSided hget hparent =>
      rw [hget]
      exact if_pos hparent
    | twice hget hparent hmem =>
      rw [hget]
      dsimp only
      rw [if_neg (not_not_intro hparent), if_pos hmem]
    | tooDeep hget hparent hnew hdepth =>
      rw [hget, hdepth]
      dsimp only
      rw [if_neg (not_not_intro hparent), if_neg hnew]
    | misplaced hget hparent hnew hdepth hne =>
      rw [hget, hdepth]
      dsimp only
      rw [if_neg (not_not_intro hparent), if_neg hnew, if_pos hne]

/-- The entries in front of one of them are the nodes with smaller numbers, which are those that the
pass has met before. -/
theorem mem_front_iff {front back : List (Node × NodeId)} {entry : Node × NodeId}
    (hsplit : nodes.toList.zipIdx = front ++ entry :: back) (other : Node × NodeId) :
    other ∈ front ↔ nodes[other.2]? = some other.1 ∧ other.2 < entry.2 := by
  obtain ⟨front', back', hnodes, rfl, hback⟩ := List.zipIdx_eq_append_iff.mp hsplit
  have hentry : entry.2 = front'.length := by
    cases back' with
    | nil => cases hback
    | cons node back' =>
      rw [List.zipIdx_cons, Nat.zero_add] at hback
      rw [(List.cons.inj hback).1]
  rw [hentry, ← Array.getElem?_toList, hnodes, List.mem_zipIdx_iff_getElem?]
  constructor
  · intro hget
    obtain ⟨hlt, -⟩ := List.getElem?_eq_some_iff.mp hget
    exact ⟨(List.getElem?_append_left hlt).trans hget, hlt⟩
  · rintro ⟨hget, hlt⟩
    exact (List.getElem?_append_left hlt).symm.trans hget

theorem get?_of_split {front back : List (Node × NodeId)} {entry : Node × NodeId}
    (hsplit : nodes.toList.zipIdx = front ++ entry :: back) : nodes[entry.2]? = some entry.1 := by
  have hmem : entry ∈ nodes.toList.zipIdx := hsplit ▸ List.mem_append_right _ List.mem_cons_self
  rw [List.mem_zipIdx_iff_getElem?, Array.getElem?_toList] at hmem
  exact hmem

/-- A child that points back was not listed by a node in front of the one that it points to. -/
theorem not_mem_of_resolved {front back : List (Node × NodeId)} {entry : Node × NodeId}
    (hsplit : nodes.toList.zipIdx = front ++ entry :: back)
    (hresolved : ∀ other ∈ front, Resolved below nodes other.2 other.1) {node : Node}
    (hget : nodes[child]? = some node) (hparent : node.parent = some entry.2) :
    child ∉ front.flatMap fun other => other.1.children := by
  intro hmem
  obtain ⟨other, hother, hchild⟩ := List.mem_flatMap.mp hmem
  obtain ⟨found, hfound, hpoints, -⟩ := (hresolved other hother).fits child hchild
  obtain rfl : node = found := Option.some.inj (hget.symm.trans hfound)
  have heq : entry.2 = other.2 := Option.some.inj (hparent.symm.trans hpoints)
  have hlt := ((mem_front_iff hsplit other).mp hother).2
  rw [heq] at hlt
  exact Nat.lt_irrefl _ hlt

end Tree

/-! ### What defects say -/

namespace Counter

/-- The counters that are compared before this one. -/
def earlier : Counter → List Counter
  | count => []
  | height => [count]
  | maxDegree => [count, height]

/-- The number is the counter of the nodes. -/
def Counts (nodes : Array Node) (n : Nat) : Counter → Prop
  | count => n = nodes.size
  | height => Tree.Greatest nodes Node.depth n
  | maxDegree => Tree.Greatest nodes (·.children.length) n

end Counter

/-- The counter that a table comes with. -/
def NodeTable.counter (table : NodeTable) : Counter → Nat
  | .count => table.count
  | .height => table.height
  | .maxDegree => table.maxDegree

namespace Defect

/-- What the defect says is true of the table. -/
def Present (table : NodeTable) : Defect → Prop
  | noNodes => table.nodes = #[]
  | noRoot => ∃ first, table.nodes[0]? = some first ∧
      ¬(first.kind = .root ∧ first.parent = none ∧ first.depth = 0)
  | unknownNode id target => ∃ node, table.nodes[id]? = some node ∧
      target ∈ node.kind.components ++ node.parent.toList ++ node.children ∧
      table.nodes.size ≤ target
  | oneSidedLink parent child => ∃ host node, table.nodes[parent]? = some host ∧
      child ∈ host.children ∧ table.nodes[child]? = some node ∧ node.parent ≠ some parent
  | listedTwice id => ∃ node parent host, table.nodes[id]? = some node ∧
      node.parent = some parent ∧ table.nodes[parent]? = some host ∧ 2 ≤ host.children.count id
  | depthMismatch id found expected => ∃ node parent host, table.nodes[id]? = some node ∧
      node.parent = some parent ∧ table.nodes[parent]? = some host ∧ id ∈ host.children ∧
      found = node.depth ∧ expected = host.depth + 1 ∧ found ≠ expected
  | unlisted id => 0 < id ∧ id < table.nodes.size ∧ id ∉ Tree.listed table.nodes ∧
      (∀ other, 0 < other → other < id → other ∈ Tree.listed table.nodes) ∧
      Tree.Linked unboundedBelow table.nodes
  | counterMismatch counter found expected =>
      (Tree.counted table.nodes).toTable.FormsTree ∧ found = table.counter counter ∧
      counter.Counts table.nodes expected ∧ found ≠ expected ∧
      ∀ other ∈ counter.earlier, other.Counts table.nodes (table.counter other)

end Defect

/-! ### The defects of links -/

/-- A pass over the links of a table fails for a defect that is there, if nothing but one more than
the depth of a node is taken for the depth of its children. -/
theorem Tree.present_of_checkLinks {table : NodeTable} {below : Nat → Option Nat} {defect : Defect}
    (hbelow : ∀ depth expected, below depth = some expected → depth + 1 = expected)
    (h : checkLinks below table.nodes = .error (.defect defect)) : defect.Present table := by
  obtain ⟨front, ⟨host, id⟩, back, met, hsplit, hfront, hentry⟩ := foldlM_eq_error_iff.mp h
  obtain ⟨hresolved, -, rfl⟩ := (foldlM_checkNode_eq_ok_iff List.nodup_nil).mp hfront
  have hhost : table.nodes[id]? = some host := get?_of_split hsplit
  rcases bind_eq_error_iff.mp hentry with htargets | ⟨_, -, hchildren⟩
  · obtain ⟨target, htarget, hle, hdefect⟩ := forM_checkTarget_eq_error htargets
    cases hdefect
    exact ⟨host, hhost, List.mem_append_left _ htarget, hle⟩
  · obtain ⟨earlier, child, later, met, hlist, hearlier, hchild⟩ := foldlM_eq_error_iff.mp hchildren
    have hmem : child ∈ host.children := hlist ▸ List.mem_append_right _ List.mem_cons_self
    cases checkChild_eq_error_iff.mp hchild with
    | unknown hget =>
      exact ⟨host, hhost, List.mem_append_right _ hmem, Array.getElem?_eq_none_iff.mp hget⟩
    | oneSided hget hparent => exact ⟨host, _, hhost, hmem, hget, hparent⟩
    | twice hget hparent hmet =>
      refine ⟨_, id, host, hget, hparent, hhost, ?_⟩
      -- a node that points back was met in the same list
      have hnew := not_mem_of_resolved hsplit hresolved hget hparent
      have hnodup : ((front.flatMap fun other : Node × NodeId =>
          other.1.children).reverse ++ []).Nodup :=
        ((foldlM_checkNode_eq_ok_iff List.nodup_nil).mp hfront).2.1
      obtain ⟨-, -, rfl⟩ := (foldlM_checkChild_eq_ok_iff hnodup).mp hearlier
      rw [List.append_nil, List.mem_append, List.mem_reverse, List.mem_reverse] at hmet
      have hcount := List.count_pos_iff.mpr (hmet.resolve_right hnew)
      rw [hlist, List.count_append, List.count_cons_self]
      omega
    | misplaced hget hparent _ hdepth hne =>
      exact ⟨_, id, host, hget, hparent, hhost, hmem, rfl, (hbelow _ _ hdepth).symm, hne⟩

theorem Tree.firstUnlisted_eq_some_iff {size id : Nat} {met : List NodeId} :
    firstUnlisted size met = some id ↔
      0 < id ∧ id < size ∧ id ∉ met ∧ ∀ other : Nat, 0 < other → other < id → other ∈ met := by
  have hrange : (List.range size).drop 1 = List.range' 1 (size - 1) := by
    rw [List.range_eq_range', List.drop_range', Nat.zero_add]
  rw [firstUnlisted, hrange, List.find?_range'_eq_some]
  simp only [decide_eq_true_eq, Bool.not_eq_true', decide_eq_false_iff_not, not_not,
    List.mem_range'_1]
  constructor
  · rintro ⟨hid, ⟨hpos, hlt⟩, hall⟩
    exact ⟨hpos, by omega, hid, fun other hother hlt' => hall other hother hlt'⟩
  · rintro ⟨hpos, hlt, hid, hall⟩
    exact ⟨hid, ⟨hpos, by omega⟩, fun other hother hlt' => hall other hother hlt'⟩

/-! ### The defects of tables -/

namespace NodeTable

variable {table : NodeTable} {below : Nat → Option Nat} {defect : Defect}

/-- The nodes of a table are refused for a defect that is there: each check in front of the one that
fails has passed. -/
theorem present_of_ofNodes
    (hbelow : ∀ depth expected, below depth = some expected → depth + 1 = expected)
    (h : Tree.ofNodes below table.nodes = .error (.defect defect)) : defect.Present table := by
  unfold Tree.ofNodes at h
  cases hfirst : table.nodes[0]? with
  | none =>
    rw [hfirst] at h
    cases h
    exact Array.eq_empty_of_size_eq_zero
      (Nat.eq_zero_of_le_zero (Array.getElem?_eq_none_iff.mp hfirst))
  | some first =>
    rw [hfirst] at h
    dsimp only at h
    split at h
    · rcases bind_eq_error_iff.mp h with hlinks | ⟨met, hlinks, hlisted⟩
      · exact Tree.present_of_checkLinks hbelow hlinks
      · obtain ⟨hlinked, rfl⟩ := Tree.checkLinks_eq_ok_iff.mp hlinks
        split at hlisted
        · rename_i id hid
          cases hlisted
          obtain ⟨hpos, hlt, hnew, hall⟩ := Tree.firstUnlisted_eq_some_iff.mp hid
          rw [List.mem_reverse] at hnew
          exact ⟨hpos, hlt, hnew, fun other hother hbefore =>
            List.mem_reverse.mp (hall other hother hbefore), hlinked.mono fun _ _ => hbelow _⟩
        · cases hlisted
    · rename_i hroot
      cases h
      exact ⟨first, hfirst, fun hfit => hroot (Node.isRoot_iff.mpr hfit)⟩

/-- A counter is refused if it is not that of the nodes. -/
theorem checkCounter_eq_error_iff {counter : Counter} {found expected : Nat} {halt : Halt} :
    checkCounter counter found expected = .error halt ↔
      found ≠ expected ∧ halt = .defect (.counterMismatch counter found expected) := by
  unfold checkCounter
  split
  · rename_i heq
    exact ⟨nofun, fun h => absurd heq h.1⟩
  · rename_i hne
    constructor
    · intro h
      exact ⟨hne, (Except.error.inj h).symm⟩
    · rintro ⟨-, rfl⟩
      rfl

/-- The counters of a tree are those of its nodes. -/
theorem counts_counted {tree : Tree} (h : Tree.ofNodes below table.nodes = .ok tree)
    (counter : Counter) : counter.Counts table.nodes (tree.toTable.counter counter) := by
  obtain ⟨⟨first, hfirst, -⟩, -, -, rfl⟩ := Tree.ofNodes_eq_ok_iff.mp h
  cases counter with
  | count => rfl
  | height => exact Tree.greatest_foldl hfirst Node.depth
  | maxDegree => exact Tree.greatest_foldl hfirst (·.children.length)

/-- A tree whose table passes forms a tree if depths are counted without a limit. -/
theorem formsTree_of_valid {tree : Tree} (h : tree.Valid) : tree.toTable.FormsTree := by
  have hnodes : Tree.ofNodes unboundedBelow tree.toTable.nodes = .ok tree := h
  have hcounts : ∀ counter, Counter.Counts tree.nodes (tree.toTable.counter counter) counter :=
    fun counter => counts_counted hnodes counter
  obtain ⟨hroot, hlinked, hall, -⟩ := Tree.ofNodes_eq_ok_iff.mp h
  exact formsTree_of_linked hlinked (fun _ _ => rfl) hroot hall (hcounts .count)
    (hcounts .height) (hcounts .maxDegree)

/-- A table is refused for a defect that is there, if nothing but one more than the depth of a node
is taken for the depth of its children. -/
theorem present_of_toTree
    (hbelow : ∀ depth expected, below depth = some expected → depth + 1 = expected)
    (h : table.toTree below = .error (.defect defect)) : defect.Present table := by
  unfold toTree at h
  rcases bind_eq_error_iff.mp h with hnodes | ⟨tree, htree, hcounters⟩
  · exact present_of_ofNodes hbelow hnodes
  have hcounts := counts_counted htree
  have hforms := formsTree_of_valid (Tree.valid_of_below htree fun _ _ => hbelow _).1
  obtain ⟨-, -, -, rfl⟩ := Tree.ofNodes_eq_ok_iff.mp htree
  -- the counters in front of the one that is refused agree with those of the nodes
  rcases bind_eq_error_iff.mp hcounters with hcount | ⟨_, hcount, hcounters⟩
  · obtain ⟨hne, hdefect⟩ := checkCounter_eq_error_iff.mp hcount
    cases hdefect
    exact ⟨hforms, rfl, hcounts .count, hne, List.forall_mem_nil _⟩
  have hcount : table.counter .count = _ := checkCounter_eq_ok_iff.mp hcount
  rcases bind_eq_error_iff.mp hcounters with hheight | ⟨_, hheight, hcounters⟩
  · obtain ⟨hne, hdefect⟩ := checkCounter_eq_error_iff.mp hheight
    cases hdefect
    refine ⟨hforms, rfl, hcounts .height, hne, List.forall_mem_singleton.mpr ?_⟩
    rw [hcount]
    exact hcounts .count
  have hheight : table.counter .height = _ := checkCounter_eq_ok_iff.mp hheight
  rcases bind_eq_error_iff.mp hcounters with hdegree | ⟨_, -, hsame⟩
  · obtain ⟨hne, hdefect⟩ := checkCounter_eq_error_iff.mp hdegree
    cases hdefect
    refine ⟨hforms, rfl, hcounts .maxDegree, hne, ?_⟩
    refine List.forall_mem_cons.mpr ⟨?_, List.forall_mem_singleton.mpr ?_⟩
    · rw [hcount]
      exact hcounts .count
    · rw [hheight]
      exact hcounts .height
  · cases hsame

/-- **Defects.** A table that is refused has the defect that is reported. -/
theorem present_of_toTree_error (table : NodeTable) (defect : Defect)
    (h : table.toTree = .error (.defect defect)) : defect.Present table :=
  present_of_toTree (fun _ _ hdepth => (checkedBelow_eq_some_iff.mp hdepth).2.symm) h

/-- A child that stands too deep, a node that is listed twice, one that nobody lists, and a height
that is not the greatest depth. -/
theorem present_of_toTree_error_misplaced :
    (Defect.depthMismatch 1 5 1).Present ⟨#[⟨.root, none, [1], 0, .start, ""⟩,
        ⟨.space, some 0, [], 5, .start, " "⟩], 2, 5, 1⟩ ∧
      (Defect.listedTwice 1).Present ⟨#[⟨.root, none, [1, 1], 0, .start, ""⟩,
        ⟨.space, some 0, [], 1, .start, " "⟩], 2, 1, 2⟩ ∧
      (Defect.unlisted 1).Present ⟨#[.emptyRoot, ⟨.space, some 0, [], 1, .start, " "⟩], 2, 1, 0⟩ ∧
      (Defect.counterMismatch .height 5 0).Present ⟨#[.emptyRoot], 1, 5, 0⟩ :=
  ⟨present_of_toTree_error _ _ (by decide), present_of_toTree_error _ _ (by decide),
    present_of_toTree_error _ _ (by decide), present_of_toTree_error _ _ (by decide)⟩

end NodeTable

end LosslessEbnf
