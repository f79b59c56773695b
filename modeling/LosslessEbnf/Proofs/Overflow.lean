import LosslessEbnf.Proofs.Defects

/-!
# Depths that overflow

The check of a table adds one to depths that come from outside. What the addition does beyond the
greatest word decides whether a table is refused or the check itself breaks off, but never whether a
table is taken for a tree.

## Main Definitions

* `Follows` — a check breaks off or comes to what another one comes to
* `Tree.Overflows` — the check of a node adds one to the greatest word

## Main Statements

* `NodeTable.toTree_follows` — checks whose additions agree where they have a result
* `NodeTable.toTree_eq_overflow_iff` — the tables whose check breaks off
* `NodeTable.arithmetic_of_toTree` — what the result has to do with the addition

## Design Notes

The depth below a node is asked for when a child of it is compared, and that may be before the depth
of the node itself was compared by the node above it: nodes are visited in the order of the table,
and a node that nobody lists is noticed in the end only. If the addition overflows, it does so at
the first child of a node, since no child of a node at the greatest depth can pass.
-/

namespace LosslessEbnf

/-! ### Checks that agree -/

/-- A check breaks off or comes to what another one comes to. -/
def Follows {α : Type} (check other : Except Halt α) : Prop :=
  check = .error .overflow ∨ check = other

namespace Follows

variable {α β : Type} {check other : Except Halt α}

/-- What passes the one check passes the other one, if its additions have the results of the first
one. -/
theorem of_ok (h : Follows check other) {a : α} (hok : check = .ok a) : other = .ok a := by
  rcases h with h | h
  · rw [h] at hok
    cases hok
  · exact h.symm.trans hok

theorem bind {next otherNext : α → Except Halt β} (h : Follows check other)
    (hnext : ∀ a, Follows (next a) (otherNext a)) :
    Follows (check >>= next) (other >>= otherNext) := by
  rcases h with rfl | rfl
  · exact Or.inl rfl
  · cases check with
    | error halt => exact Or.inr rfl
    | ok a => exact hnext a

theorem foldlM {f g : β → α → Except Halt β} (h : ∀ state x, Follows (f state x) (g state x))
    (xs : List α) (start : β) : Follows (xs.foldlM f start) (xs.foldlM g start) := by
  induction xs generalizing start with
  | nil => exact Or.inr rfl
  | cons x xs ih =>
    rw [List.foldlM_cons, List.foldlM_cons]
    exact (h start x).bind fun state => ih state

end Follows

section

variable {below other : Nat → Option Nat} {nodes : Array Node}

namespace Tree

/-- The check of an entry breaks off, or another addition that goes on where it does makes no
difference. -/
theorem checkChild_follows (hbelow : ∀ depth expected, below depth = some expected →
    other depth = some expected) (id : NodeId) (depth : Nat) (met : List NodeId) (child : NodeId) :
    Follows (checkChild below nodes id depth met child)
      (checkChild other nodes id depth met child) := by
  unfold checkChild
  cases nodes[child]? with
  | none => exact Or.inr rfl
  | some node =>
    dsimp only
    split
    · exact Or.inr rfl
    split
    · exact Or.inr rfl
    cases hdepth : below depth with
    | none => exact Or.inl rfl
    | some expected =>
      rw [hbelow depth expected hdepth]
      exact Or.inr rfl

theorem checkNode_follows (hbelow : ∀ depth expected, below depth = some expected →
    other depth = some expected) (met : List NodeId) (entry : Node × NodeId) :
    Follows (checkNode below nodes met entry) (checkNode other nodes met entry) :=
  Follows.bind (Or.inr rfl) fun _ =>
    Follows.foldlM (fun met child => checkChild_follows hbelow entry.2 entry.1.depth met child)
      entry.1.children met

theorem ofNodes_follows (hbelow : ∀ depth expected, below depth = some expected →
    other depth = some expected) : Follows (ofNodes below nodes) (ofNodes other nodes) := by
  unfold ofNodes
  cases nodes[0]? with
  | none => exact Or.inr rfl
  | some first =>
    dsimp only
    split
    · exact Follows.bind (Follows.foldlM (checkNode_follows hbelow) _ _) fun met => Or.inr rfl
    · exact Or.inr rfl

end Tree

/-- The check of a table breaks off, or it comes to what it comes to with every addition that has
the same results and more. -/
theorem NodeTable.toTree_follows (hbelow : ∀ depth expected, below depth = some expected →
    other depth = some expected) (table : NodeTable) :
    Follows (table.toTree below) (table.toTree other) :=
  (Tree.ofNodes_follows hbelow).bind fun _ => Or.inr rfl

/-! ### Checks that break off -/

namespace Tree

/-- The check of an entry breaks off if nothing but its depth is left to compare. -/
theorem checkChild_eq_overflow_iff {id : NodeId} {depth : Nat} {met : List NodeId}
    {child : NodeId} :
    checkChild below nodes id depth met child = .error .overflow ↔
      (∃ node, nodes[child]? = some node ∧ node.parent = some id) ∧ child ∉ met ∧
        below depth = none := by
  rw [checkChild_eq_error_iff]
  constructor
  · intro h
    cases h with
    | tooDeep hget hparent hnew hnone => exact ⟨⟨_, hget, hparent⟩, hnew, hnone⟩
  · rintro ⟨⟨node, hget, hparent⟩, hnew, hnone⟩
    exact .tooDeep hget hparent hnew hnone

/-- Where the check of a list of children breaks off, it does so at the first child, since the depth
is the same for all of them. -/
theorem exists_head_of_overflow {id : NodeId} {depth : Nat} {met children : List NodeId}
    (h : children.foldlM (checkChild below nodes id depth) met = .error .overflow) :
    below depth = none ∧ ∃ child node, children.head? = some child ∧ nodes[child]? = some node ∧
      node.parent = some id := by
  obtain ⟨earlier, child, later, met', hlist, hearlier, hchild⟩ := foldlM_eq_error_iff.mp h
  obtain ⟨⟨node, hget, hparent⟩, -, hnone⟩ := checkChild_eq_overflow_iff.mp hchild
  cases earlier with
  | nil => exact ⟨hnone, child, node, congrArg List.head? hlist, hget, hparent⟩
  | cons first earlier =>
    rw [List.foldlM_cons] at hearlier
    obtain ⟨met₁, hpassed, -⟩ := bind_eq_ok_iff.mp hearlier
    obtain ⟨⟨found, -, -, hdepth⟩, -⟩ := checkChild_eq_ok_iff.mp hpassed
    rw [hnone] at hdepth
    cases hdepth

/-- The check of a node breaks off in its list of children, behind the other links. -/
theorem checkNode_eq_overflow_iff {met : List NodeId} {entry : Node × NodeId} :
    checkNode below nodes met entry = .error .overflow ↔
      (∀ target ∈ entry.1.kind.components ++ entry.1.parent.toList, target < nodes.size) ∧
        entry.1.children.foldlM (checkChild below nodes entry.2 entry.1.depth) met =
          .error .overflow := by
  unfold checkNode
  rw [bind_eq_error_iff]
  constructor
  · rintro (htargets | ⟨u, htargets, hchildren⟩)
    · obtain ⟨_, -, -, hdefect⟩ := forM_checkTarget_eq_error htargets
      cases hdefect
    · exact ⟨forM_checkTarget_eq_ok_iff.mp htargets, hchildren⟩
  · rintro ⟨htargets, hchildren⟩
    exact Or.inr ⟨(), forM_checkTarget_eq_ok_iff.mpr htargets, hchildren⟩

/-- Nothing but the pass over the links breaks off, and it needs a root to begin. -/
theorem ofNodes_eq_overflow_iff :
    ofNodes below nodes = .error .overflow ↔
      (∃ first, nodes[0]? = some first ∧ first.isRoot = true) ∧
        checkLinks below nodes = .error .overflow := by
  unfold ofNodes
  cases nodes[0]? with
  | none => simp
  | some first =>
    simp only [Option.some.injEq, exists_eq_left']
    split
    · rename_i hroot
      rw [bind_eq_error_iff]
      constructor
      · rintro (hlinks | ⟨met, -, hlisted⟩)
        · exact ⟨hroot, hlinks⟩
        · split at hlisted <;> cases hlisted
      · exact fun h => Or.inl h.2
    · rename_i hroot
      constructor
      · intro h
        cases h
      · exact fun h => absurd h.1 hroot

end Tree

/-- The counters have nothing to do with it: they are compared after the nodes have been checked,
and nothing is added to them. -/
theorem NodeTable.toTree_eq_overflow_iff_nodes {table : NodeTable} :
    table.toTree below = .error .overflow ↔
      Tree.ofNodes below table.nodes = .error .overflow := by
  have hcounter : ∀ {counter : Counter} {found expected : Nat},
      checkCounter counter found expected ≠ .error .overflow := by
    intro counter found expected h
    cases (checkCounter_eq_error_iff.mp h).2
  unfold toTree
  rw [bind_eq_error_iff]
  constructor
  · rintro (hnodes | ⟨tree, -, hcounters⟩)
    · exact hnodes
    · rcases bind_eq_error_iff.mp hcounters with h | ⟨_, -, hcounters⟩
      · exact absurd h hcounter
      rcases bind_eq_error_iff.mp hcounters with h | ⟨_, -, hcounters⟩
      · exact absurd h hcounter
      rcases bind_eq_error_iff.mp hcounters with h | ⟨_, -, hcounters⟩
      · exact absurd h hcounter
      · cases hcounters
  · exact Or.inl

end

/-! ### Depths that are words -/

namespace Tree

/-- The check of the node `id` adds one to the greatest word: all that is checked before it passes,
and so do its links but for the children, and its first child points back. -/
structure Overflows (nodes : Array Node) (id : NodeId) : Prop where
  /-- The first node is a root. -/
  root : ∃ first, nodes[0]? = some first ∧ first.isRoot = true
  /-- The nodes in front of it pass. -/
  before : ∀ (other : NodeId) (node : Node), other < id → nodes[other]? = some node →
    Resolved unboundedBelow nodes other node ∧ node.children.Nodup
  /-- It stands at the greatest depth, and its first child points back. -/
  host : ∃ host, nodes[id]? = some host ∧ host.depth + 1 = Text.wordSize ∧
    (∀ target ∈ host.kind.components ++ host.parent.toList, target < nodes.size) ∧
    ∃ child node, host.children.head? = some child ∧ nodes[child]? = some node ∧
      node.parent = some id

variable {nodes : Array Node}

/-- An addition without a limit has every result that the checked one has. -/
theorem unboundedBelow_of_checkedBelow (depth expected : Nat)
    (h : checkedBelow depth = some expected) : unboundedBelow depth = some expected :=
  congrArg some (checkedBelow_eq_some_iff.mp h).2.symm

/-- An addition that wraps around has every result that the checked one has. -/
theorem wrappedBelow_of_checkedBelow (depth expected : Nat)
    (h : checkedBelow depth = some expected) : wrappedBelow depth = some expected := by
  obtain ⟨hlt, rfl⟩ := checkedBelow_eq_some_iff.mp h
  exact congrArg some (Nat.mod_eq_of_lt hlt)

/-- Nothing overflows where every child passes: its depth is a word. -/
theorem checkNode_ne_overflow (hwords : ∀ node ∈ nodes.toList, node.depth < Text.wordSize)
    {met : List NodeId} {entry : Node × NodeId}
    (h : Resolved unboundedBelow nodes entry.2 entry.1) :
    checkNode checkedBelow nodes met entry ≠ .error .overflow := by
  intro hover
  obtain ⟨-, hchildren⟩ := checkNode_eq_overflow_iff.mp hover
  obtain ⟨front, child, back, met', hsplit, -, hchild⟩ := foldlM_eq_error_iff.mp hchildren
  obtain ⟨-, -, hnone⟩ := checkChild_eq_overflow_iff.mp hchild
  have hmem : child ∈ entry.1.children := hsplit ▸ List.mem_append_right _ List.mem_cons_self
  obtain ⟨node, hget, -, hdepth⟩ := fits_unboundedBelow_iff.mp (h.fits child hmem)
  have hword := hwords node (Array.mem_toList_iff.mpr (Array.mem_of_getElem? hget))
  have hlast := checkedBelow_eq_none_iff.mp hnone
  omega

/-- The children of different nodes are different if they point back, so a list of all children
names none twice. -/
theorem nodup_flatMap_of_resolved {front back : List (Node × NodeId)} {entry : Node × NodeId}
    (hsplit : nodes.toList.zipIdx = front ++ entry :: back)
    (h : ∀ other ∈ front, Resolved unboundedBelow nodes other.2 other.1 ∧ other.1.children.Nodup) :
    (front.flatMap fun other : Node × NodeId => other.1.children).Nodup := by
  have hids : (front.map Prod.snd).Nodup := by
    have hall : (nodes.toList.zipIdx.map Prod.snd).Nodup := by
      rw [List.zipIdx_map_snd]
      exact List.nodup_range'
    rw [hsplit, List.map_append] at hall
    exact (List.nodup_append.mp hall).1
  refine List.pairwise_flatMap.mpr ⟨fun other hother => (h other hother).2, ?_⟩
  refine (List.pairwise_map.mp hids).imp_of_mem ?_
  intro one other hone hother hne child hchild child' hchild' heq
  obtain ⟨node, hget, hparent, -⟩ := (h one hone).1.fits child hchild
  obtain ⟨node', hget', hparent', -⟩ := (h other hother).1.fits child' hchild'
  rw [heq] at hget
  obtain rfl : node = node' := Option.some.inj (hget.symm.trans hget')
  exact hne (Option.some.inj (hparent.symm.trans hparent'))

/-- In front of a node the pass comes to no node that overflows, if all these nodes are resolved. It
goes through them as it would without a limit, and has met all of their children. -/
theorem foldlM_checkNode_of_resolved
    (hwords : ∀ node ∈ nodes.toList, node.depth < Text.wordSize) {front back : List (Node × NodeId)}
    {entry : Node × NodeId} (hsplit : nodes.toList.zipIdx = front ++ entry :: back)
    (h : ∀ other ∈ front, Resolved unboundedBelow nodes other.2 other.1 ∧ other.1.children.Nodup) :
    front.foldlM (checkNode checkedBelow nodes) [] =
      .ok (front.flatMap fun other : Node × NodeId => other.1.children).reverse := by
  have hunbounded : front.foldlM (checkNode unboundedBelow nodes) [] =
      .ok (front.flatMap fun other : Node × NodeId => other.1.children).reverse := by
    rw [foldlM_checkNode_eq_ok_iff List.nodup_nil, List.append_nil]
    exact ⟨fun other hother => (h other hother).1,
      (List.reverse_perm _).nodup_iff.mpr (nodup_flatMap_of_resolved hsplit h), rfl⟩
  rcases Follows.foldlM (checkNode_follows unboundedBelow_of_checkedBelow) front [] with
    hover | hsame
  · obtain ⟨_, other, _, _, hfront, -, hother⟩ := foldlM_eq_error_iff.mp hover
    have hmem : other ∈ front := hfront ▸ List.mem_append_right _ List.mem_cons_self
    exact absurd hother (checkNode_ne_overflow hwords (h other hmem).1)
  · rw [hsame, hunbounded]

/-- Where the pass over the nodes overflows, a node adds one to the greatest word. All nodes in
front of it have passed, with any addition. -/
theorem exists_overflows (hwords : ∀ node ∈ nodes.toList, node.depth < Text.wordSize)
    (hroot : ∃ first, nodes[0]? = some first ∧ first.isRoot = true)
    (h : checkLinks checkedBelow nodes = .error .overflow) : ∃ id, Overflows nodes id := by
  obtain ⟨front, ⟨host, id⟩, back, met, hsplit, hfront, hentry⟩ := foldlM_eq_error_iff.mp h
  have hhost : nodes[id]? = some host := get?_of_split hsplit
  -- what has passed with the check passes without a limit, too
  obtain ⟨hresolved, hnodup, -⟩ := (foldlM_checkNode_eq_ok_iff List.nodup_nil).mp
    ((Follows.foldlM (checkNode_follows unboundedBelow_of_checkedBelow) front []).of_ok hfront)
  rw [List.append_nil, (List.reverse_perm _).nodup_iff] at hnodup
  obtain ⟨hknown, hchildren⟩ := checkNode_eq_overflow_iff.mp hentry
  obtain ⟨hnone, hhead⟩ := exists_head_of_overflow hchildren
  have hlast : Text.wordSize ≤ host.depth + 1 := checkedBelow_eq_none_iff.mp hnone
  have hword := hwords host (Array.mem_toList_iff.mpr (Array.mem_of_getElem? hhost))
  refine ⟨id, hroot, fun other node hlt hget => ?_, host, hhost, by omega, hknown, hhead⟩
  have hmem := (mem_front_iff hsplit (node, other)).mpr ⟨hget, hlt⟩
  exact ⟨hresolved _ hmem, (List.pairwise_flatMap.mp hnodup).1 _ hmem⟩

/-- At a node that adds one to the greatest word the pass over the nodes overflows. -/
theorem Overflows.checkLinks_eq (hwords : ∀ node ∈ nodes.toList, node.depth < Text.wordSize)
    {id : NodeId} (h : Overflows nodes id) : checkLinks checkedBelow nodes = .error .overflow := by
  obtain ⟨-, hbefore, host, hhost, hlast, hknown, child, node, hhead, hget, hparent⟩ := h
  have hmem : (host, id) ∈ nodes.toList.zipIdx := by
    rw [List.mem_zipIdx_iff_getElem?, Array.getElem?_toList]
    exact hhost
  obtain ⟨front, back, hsplit⟩ := List.append_of_mem hmem
  have hfront : ∀ other ∈ front,
      Resolved unboundedBelow nodes other.2 other.1 ∧ other.1.children.Nodup := by
    intro other hother
    obtain ⟨hget', hlt⟩ := (mem_front_iff hsplit other).mp hother
    exact hbefore other.2 other.1 hlt hget'
  have hnew : child ∉ (front.flatMap fun other : Node × NodeId => other.1.children).reverse := by
    rw [List.mem_reverse]
    exact not_mem_of_resolved hsplit (fun other hother => (hfront other hother).1) hget hparent
  obtain ⟨rest, hchildren⟩ := List.head?_eq_some_iff.mp hhead
  refine foldlM_eq_error_iff.mpr ⟨front, (host, id), back, _, hsplit,
    foldlM_checkNode_of_resolved hwords hsplit hfront, checkNode_eq_overflow_iff.mpr ⟨hknown, ?_⟩⟩
  refine foldlM_eq_error_iff.mpr ⟨[], child, rest, _, hchildren, rfl, ?_⟩
  exact checkChild_eq_overflow_iff.mpr
    ⟨⟨node, hget, hparent⟩, hnew, checkedBelow_eq_none_iff.mpr (Nat.le_of_eq hlast.symm)⟩

end Tree

namespace NodeTable

variable {table : NodeTable}

/-- The tables whose check overflows are just those with a node at the greatest depth whose first
child points back to it, unless something is found wrong before that child is looked at. -/
theorem toTree_eq_overflow_iff
    (hwords : ∀ node ∈ table.nodes.toList, node.depth < Text.wordSize) :
    table.toTree = .error .overflow ↔ ∃ id, Tree.Overflows table.nodes id := by
  rw [toTree_eq_overflow_iff_nodes, Tree.ofNodes_eq_overflow_iff]
  constructor
  · rintro ⟨hroot, hlinks⟩
    exact Tree.exists_overflows hwords hroot hlinks
  · rintro ⟨id, hover⟩
    exact ⟨hover.root, hover.checkLinks_eq hwords⟩

/-- A table with a node whose check adds one to the greatest word is not taken for a tree, however
depths are counted. -/
theorem ne_ok_of_overflows (hsize : table.nodes.size < Text.wordSize)
    (hwords : ∀ node ∈ table.nodes.toList, node.depth < Text.wordSize) {id : NodeId}
    (h : Tree.Overflows table.nodes id) (tree : Tree) :
    table.toTree wrappedBelow ≠ .ok tree ∧ table.toTree unboundedBelow ≠ .ok tree := by
  obtain ⟨host, hhost, hlast, -, child, node, hhead, hget, -⟩ := h.host
  have hmem : child ∈ host.children := List.mem_of_mem_head? hhead
  -- the child would have to be at a depth that is no word
  have hrefused : ∀ tree, Tree.ofNodes unboundedBelow table.nodes ≠ .ok tree := by
    intro tree hnodes
    obtain ⟨-, hlinked, -⟩ := Tree.ofNodes_eq_ok_iff.mp hnodes
    obtain ⟨found, hfound, -, hdepth⟩ :=
      Tree.fits_unboundedBelow_iff.mp ((hlinked.resolved id host hhost).fits child hmem)
    have hword := hwords found (Array.mem_toList_iff.mpr (Array.mem_of_getElem? hfound))
    omega
  constructor
  · intro htree
    obtain ⟨hvalid, hnodes⟩ :=
      Tree.valid_of_ofNodes_wrapped (toTree_eq_ok_iff.mp htree).1 hsize
    rw [Tree.Valid, hnodes] at hvalid
    exact hrefused tree hvalid
  · intro htree
    exact hrefused tree (toTree_eq_ok_iff.mp htree).1

/-- **Arithmetic of depths.** In a table whose depths are words, the depth below the greatest word
is asked for just where the check comes to a node at this depth whose first child points back. There
the program breaks off, and such a table is no tree, however depths are counted. For every other
table the result is the same with an addition that is checked, one that wraps around and one without
a limit; so it is always the same which tables are taken for which trees. -/
theorem arithmetic_of_toTree (table : NodeTable) (hsize : table.nodes.size < Text.wordSize)
    (hwords : ∀ node ∈ table.nodes.toList, node.depth < Text.wordSize) :
    (table.toTree = .error .overflow ↔ ∃ id, Tree.Overflows table.nodes id) ∧
      ((¬∃ id, Tree.Overflows table.nodes id) →
        table.toTree = table.toTree wrappedBelow ∧ table.toTree = table.toTree unboundedBelow) ∧
      ∀ tree, (table.toTree = .ok tree ↔ table.toTree wrappedBelow = .ok tree) ∧
        (table.toTree = .ok tree ↔ table.toTree unboundedBelow = .ok tree) := by
  have hover := toTree_eq_overflow_iff hwords
  have hsame : (¬∃ id, Tree.Overflows table.nodes id) →
      table.toTree = table.toTree wrappedBelow ∧
        table.toTree = table.toTree unboundedBelow := by
    intro hnone
    have hne : table.toTree ≠ .error .overflow := fun h => hnone (hover.mp h)
    exact ⟨(toTree_follows Tree.wrappedBelow_of_checkedBelow table).resolve_left hne,
      (toTree_follows Tree.unboundedBelow_of_checkedBelow table).resolve_left hne⟩
  refine ⟨hover, hsame, fun tree => ?_⟩
  by_cases hsome : ∃ id, Tree.Overflows table.nodes id
  · obtain ⟨id, hid⟩ := hsome
    obtain ⟨hwrapped, hunbounded⟩ := ne_ok_of_overflows hsize hwords hid tree
    have hchecked : table.toTree ≠ .ok tree := by
      rw [hover.mpr ⟨id, hid⟩]
      nofun
    exact ⟨iff_of_false hchecked hwrapped, iff_of_false hchecked hunbounded⟩
  · obtain ⟨hwrapped, hunbounded⟩ := hsame hsome
    exact ⟨by rw [← hwrapped], by rw [← hunbounded]⟩

/-- A root beside a node at the greatest depth, which has a child at the given depth. -/
def atGreatestDepth (depth : Nat) : NodeTable where
  nodes := #[.emptyRoot, ⟨.space, some 0, [2], 18446744073709551615, .start, " "⟩,
    ⟨.space, some 1, [], depth, .start, " "⟩]
  count := 3
  height := 18446744073709551615
  maxDegree := 1

/-- A node at the greatest depth with a child, which nobody lists. -/
theorem arithmetic_of_toTree_overflow :
    (atGreatestDepth 0).nodes.size < Text.wordSize ∧
      (∀ node ∈ (atGreatestDepth 0).nodes.toList, node.depth < Text.wordSize) ∧
      ∃ id, Tree.Overflows (atGreatestDepth 0).nodes id :=
  ⟨by decide, by decide,
    (arithmetic_of_toTree (atGreatestDepth 0) (by decide) (by decide)).1.mp (by decide)⟩

/-- The check may break off, and what a table is refused for may depend on the addition: here nobody
lists a node at the greatest depth, and its child is at depth 0. -/
theorem not_arithmetic_of_toTree :
    (¬∀ table : NodeTable, table.nodes.size < Text.wordSize →
      (∀ node ∈ table.nodes.toList, node.depth < Text.wordSize) →
        table.toTree ≠ .error .overflow) ∧
      ¬∀ table : NodeTable, table.nodes.size < Text.wordSize →
        (∀ node ∈ table.nodes.toList, node.depth < Text.wordSize) →
          table.toTree wrappedBelow = table.toTree unboundedBelow := by
  constructor
  · intro h
    exact h (atGreatestDepth 0) (by decide) (by decide) (by decide)
  · intro h
    have hwrapped : (atGreatestDepth 0).toTree wrappedBelow = .error (.defect (.unlisted 1)) := by
      decide
    have hunbounded : (atGreatestDepth 0).toTree unboundedBelow =
        .error (.defect (.depthMismatch 2 0 18446744073709551616)) := by decide
    rw [h (atGreatestDepth 0) (by decide) (by decide), hunbounded] at hwrapped
    cases hwrapped

end NodeTable

end LosslessEbnf
