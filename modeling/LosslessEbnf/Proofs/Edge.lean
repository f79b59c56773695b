import LosslessEbnf.Proofs.Coordinates
import LosslessEbnf.Proofs.Tables

/-!
# The right edge of a tree

A tree that is cut off ends with the node that was added last. That node and those above it are
still open, and their spans need not be right. All other nodes are complete.

## Main Definitions

* `Tree.OnEdge` — the node that was added last, and the nodes above it
* `Tree.ExactAt` — the span of a node covers just the text of the node
* `Spine.Settled` — all that is below the open nodes is exact, but for exempt nodes

## Main Statements

* `Tree.Shows.onEdge` — the open nodes are on the edge
* `Tree.Settled.exactAt` — off the edge, the nodes of a settled tree are exact

## Design Notes

A node without text is exact if its span is empty. Where that span stands does not matter: at the
end of a text there is no character that it could stand in front of.
-/

namespace LosslessEbnf

/-! ### Exact spans -/

/-- The span is empty if the part is, and otherwise it denotes the part. -/
structure Span.Exact (whole : List Char) (offset : Nat) (text : List Char) (span : Span) :
    Prop where
  /-- A part without characters has an empty span. -/
  gap : text = [] → span.isEmpty = true
  /-- A part with characters begins and ends where its span does. -/
  denotes : text ≠ [] → span.Denotes whole offset text

theorem Span.Denotes.exact {whole text : List Char} {offset : Nat} {span : Span}
    (h : span.Denotes whole offset text) : span.Exact whole offset text where
  gap hnil := by
    subst hnil
    exact h.isEmpty
  denotes _ := h

/-- Every tree of the forest has an exact span, if the forest has `offset` characters of `whole` in
front and its first node has the number `number`. Exempt nodes may have any span. -/
def Forest.Exact (exempt : NodeId → Prop) (whole : List Char) (number offset : Nat) :
    Forest → Prop
  | .nil => True
  | .cons top below beside =>
    (exempt number ∨ top.span.Exact whole offset (top.data.toList ++ below.text)) ∧
      below.Exact exempt whole (number + 1) (offset + top.data.toList.length) ∧
      beside.Exact exempt whole (number + 1 + below.size)
        (offset + (top.data.toList ++ below.text).length)

namespace Forest

variable {exempt exempt' : NodeId → Prop} {whole : List Char} {number offset : Nat}

theorem exact_append {left right : Forest} :
    (left ++ right).Exact exempt whole number offset ↔
      left.Exact exempt whole number offset ∧
        right.Exact exempt whole (number + left.size) (offset + left.text.length) := by
  induction left generalizing number offset with
  | nil => simp [Exact]
  | cons top below beside _ ih =>
    simp only [cons_append, Exact, ih, text_cons, size_cons, List.length_append, Nat.add_assoc,
      and_assoc]

theorem exact_single {top : Label} {below : Forest} :
    (single top below).Exact exempt whole number offset ↔
      (exempt number ∨ top.span.Exact whole offset (top.data.toList ++ below.text)) ∧
        below.Exact exempt whole (number + 1) (offset + top.data.toList.length) := by
  simp [single, Exact]

/-- Where every tree of a forest denotes its text, every tree is exact, and so is what is below
it. -/
theorem Placed.exact {forest : Forest} (h : forest.Placed whole offset) :
    forest.Exact exempt whole number offset := by
  induction forest generalizing number offset with
  | nil => trivial
  | cons top below beside ihBelow ihBeside =>
    exact ⟨Or.inr h.1.exact, ihBelow h.2.1, ihBeside h.2.2⟩

/-- More nodes may be exempt, for what is said of the others stays true. -/
theorem Exact.mono {forest : Forest} (h : forest.Exact exempt whole number offset)
    (himp : ∀ id, exempt id → exempt' id) : forest.Exact exempt' whole number offset := by
  induction forest generalizing number offset with
  | nil => trivial
  | cons top below beside ihBelow ihBeside =>
    exact ⟨h.1.imp_left (himp number), ihBelow h.2.1, ihBeside h.2.2⟩

end Forest

namespace Tree

/-- The span of the node covers just the text of the node in `whole`. -/
def ExactAt (whole : List Char) (tree : Tree) (id : NodeId) : Prop :=
  if tree.textAt id = "" then (tree.span id).isEmpty = true
  else (tree.span id).slice? whole = some (tree.textAt id).toList

instance (whole : List Char) (tree : Tree) (id : NodeId) : Decidable (tree.ExactAt whole id) :=
  inferInstanceAs (Decidable (if tree.textAt id = "" then (tree.span id).isEmpty = true
    else (tree.span id).slice? whole = some (tree.textAt id).toList))

theorem exactAt_of_exact {whole : List Char} {tree : Tree} {id : NodeId} {offset : Nat}
    (h : (tree.span id).Exact whole offset (tree.textAt id).toList)
    (hown : (tree.textAt id).toList <+: whole.drop offset) : tree.ExactAt whole id := by
  unfold ExactAt
  split
  · rename_i hempty
    exact h.gap (by rw [hempty]; rfl)
  · rename_i hne
    exact (h.denotes fun hnil => hne (String.toList_eq_nil_iff.mp hnil)).slice?_eq hown

/-- In a table that holds a forest, a node that is not exempt is exact, because its tree stands
somewhere in the forest. -/
theorem Holds.exactAt {exempt : NodeId → Prop} {whole : List Char} {tree : Tree} {forest : Forest}
    {parent : Option NodeId} {depth number offset id : Nat}
    (h : tree.Holds parent depth number forest) (hsize : number + forest.size ≤ tree.size)
    (hexact : forest.Exact exempt whole number offset)
    (htext : forest.text <+: whole.drop offset) (hle : number ≤ id)
    (hlt : id < number + forest.size) : exempt id ∨ tree.ExactAt whole id := by
  induction forest generalizing parent depth number offset with
  | nil => exact absurd hlt (Nat.not_lt_of_le hle)
  | cons top below beside ihBelow ihBeside =>
    obtain ⟨htop, hbelowExact, hbesideExact⟩ := hexact
    rw [Forest.text_cons] at htext
    have hfirst := (List.prefix_append ..).trans htext
    have hown := tree.textAt_of_holds h (by
      simp only [Forest.size_cons, Forest.size_single] at hsize ⊢; omega)
    obtain ⟨hget, hbelow, hbeside⟩ := h
    rw [Forest.size_cons] at hsize hlt
    -- the node is the top of the first tree, or below it, or beside it
    rcases Nat.lt_trichotomy id number with hid | rfl | hid
    · exact absurd hid (Nat.not_lt_of_le hle)
    · have hspan : tree.span id = top.span := by
        rw [Tree.span, hget]
        rfl
      rw [← hown, ← hspan] at htop
      exact htop.imp_right fun hspan => exactAt_of_exact hspan (hown ▸ hfirst)
    · by_cases hin : id < number + 1 + below.size
      · exact ihBelow hbelow (by omega) hbelowExact (Forest.second_of_parts hfirst) hid hin
      · exact ihBeside hbeside (by omega) hbesideExact (Forest.second_of_parts htext) (by omega)
          (by omega)

end Tree

/-! ### Open nodes -/

/-- The numbers of the open nodes. -/
def Spine.ids : Spine → List NodeId
  | [] => []
  | _ :: outer => size outer :: ids outer

/-- All that is below the open nodes is exact, but for exempt nodes. -/
def Spine.Settled (exempt : NodeId → Prop) (whole : List Char) : Spine → Prop
  | [] => True
  | node :: outer =>
    node.below.Exact exempt whole (size outer + 1)
        ((text outer).length + node.label.data.toList.length) ∧
      Settled exempt whole outer

/-- More nodes may be exempt along the open nodes, too. -/
theorem Spine.Settled.mono {exempt exempt' : NodeId → Prop} {whole : List Char} {spine : Spine}
    (h : spine.Settled exempt whole) (himp : ∀ id, exempt id → exempt' id) :
    spine.Settled exempt' whole := by
  induction spine with
  | nil => trivial
  | cons node outer ih => exact ⟨h.1.mono himp, ih h.2⟩

/-- The innermost open node is closed, if it is exact or exempt. -/
theorem Spine.Settled.close {exempt : NodeId → Prop} {whole : List Char} {node host : OpenNode}
    {outer : Spine} (h : Settled exempt whole (node :: host :: outer))
    (hnode : exempt (size (host :: outer)) ∨
      node.label.span.Exact whole (text (host :: outer)).length node.text) :
    Settled exempt whole (host.add node :: outer) := by
  obtain ⟨hbelow, hhost, houter⟩ := h
  rw [text_cons, OpenNode.text, List.length_append, List.length_append, ← Nat.add_assoc]
    at hbelow hnode
  exact ⟨Forest.exact_append.mpr ⟨hhost, Forest.exact_single.mpr ⟨hnode, hbelow⟩⟩, houter⟩

/-- The tree has open nodes, and all that is below them is exact, but for exempt nodes. -/
def Tree.Settled (exempt : NodeId → Prop) (whole : List Char) (tree : Tree) : Prop :=
  ∃ node outer, tree.Shows (node :: outer) ∧ Spine.Settled exempt whole (node :: outer)

theorem Tree.Settled.mono {exempt exempt' : NodeId → Prop} {whole : List Char} {tree : Tree}
    (h : tree.Settled exempt whole) (himp : ∀ id, exempt id → exempt' id) :
    tree.Settled exempt' whole := by
  obtain ⟨node, outer, hshows, hsettled⟩ := h
  exact ⟨node, outer, hshows, hsettled.mono himp⟩

/-- The node is the one that was added last, or above it. -/
def Tree.OnEdge (tree : Tree) (id : NodeId) : Prop :=
  ∃ steps, ancestor? tree.nodes steps (tree.size - 1) = some id

/-- Where the links to parents have come to an end, they lead nowhere. -/
theorem Tree.ancestor?_eq_none_of_le {nodes : Array Node} {id : NodeId} {bound steps : Nat}
    (h : ancestor? nodes bound id = none) (hle : bound ≤ steps) :
    ancestor? nodes steps id = none := by
  induction bound generalizing id steps with
  | zero => cases h
  | succ bound ih =>
    obtain ⟨steps, rfl⟩ := Nat.exists_eq_add_of_le' hle
    rw [ancestor?] at h
    rw [← Nat.add_assoc, ancestor?]
    split at h
    · exact ih h (Nat.le_add_left ..)
    · rfl

/-- The edge, from the node that was added last. -/
def Tree.edge (tree : Tree) : List NodeId :=
  (List.range tree.size).filterMap fun steps => ancestor? tree.nodes steps (tree.size - 1)

/-- The edge is found in as many steps as there are nodes, if the links to parents end by then. -/
theorem Tree.onEdge_iff_mem_edge {tree : Tree} {id : NodeId}
    (h : ancestor? tree.nodes tree.size (tree.size - 1) = none) :
    tree.OnEdge id ↔ id ∈ tree.edge := by
  rw [edge, List.mem_filterMap]
  refine ⟨fun ⟨steps, hsteps⟩ => ⟨steps, List.mem_range.mpr ?_, hsteps⟩,
    fun ⟨steps, _, hsteps⟩ => ⟨steps, hsteps⟩⟩
  refine Nat.lt_of_not_le fun hle => ?_
  rw [ancestor?_eq_none_of_le h hle] at hsteps
  cases hsteps

namespace Tree.Shows

variable {tree : Tree} {node : OpenNode} {outer : Spine} {id : NodeId}

/-- From the innermost open node the links to parents lead to all open nodes. -/
theorem exists_ancestor? (h : tree.Shows (node :: outer)) (hid : id ∈ Spine.ids (node :: outer)) :
    ∃ steps, ancestor? tree.nodes steps outer.size = some id := by
  induction outer generalizing node with
  | nil =>
    obtain rfl : id = 0 := List.mem_singleton.mp hid
    exact ⟨0, rfl⟩
  | cons host outer ih =>
    rcases List.mem_cons.mp hid with rfl | hid
    · exact ⟨0, rfl⟩
    · obtain ⟨steps, hsteps⟩ := ih h.close hid
      exact ⟨steps + 1, (ancestor?_succ h.get?_top rfl steps).trans hsteps⟩

/-- The open nodes are on the edge, as each of them is the last child of the one around it. -/
theorem onEdge (h : tree.Shows (node :: outer)) (hid : id ∈ Spine.ids (node :: outer)) :
    tree.OnEdge id := by
  -- the last tree below the innermost node is opened again, until there is none
  induction hn : node.below.size using Nat.strongRecOn generalizing node outer with
  | ind n ih =>
    by_cases hnil : node.below = .nil
    · have hlatest : tree.size - 1 = outer.size := by
        rw [h.size_eq, Spine.size_cons, hnil, Forest.size_nil, Nat.add_zero, Nat.add_sub_cancel]
      rw [OnEdge, hlatest]
      exact h.exists_ancestor? hid
    · obtain ⟨front, top, below, hlast⟩ := Forest.exists_last hnil
      have hopen : tree.Shows (⟨top, below⟩ :: ⟨node.label, front⟩ :: outer) := by
        apply Shows.reopen
        rw [OpenNode.add, ← hlast]
        exact h
      refine ih below.size ?_ hopen (List.mem_cons_of_mem _ hid) rfl
      rw [← hn, hlast, Forest.size_append, Forest.size_single]
      omega

/-- With all open nodes closed, whatever is not exempt is exact, if the open nodes are exempt. -/
theorem exists_root {exempt : NodeId → Prop} {whole : List Char} (h : tree.Shows (node :: outer))
    (hsettled : Spine.Settled exempt whole (node :: outer))
    (hexempt : ∀ id ∈ Spine.ids (node :: outer), exempt id) :
    ∃ root, tree.Shows [root] ∧ (Forest.single root.label root.below).Exact exempt whole 0 0 := by
  induction outer generalizing node with
  | nil =>
    refine ⟨node, h, Forest.exact_single.mpr ⟨Or.inl (hexempt 0 List.mem_cons_self), ?_⟩⟩
    exact hsettled.1
  | cons host outer ih =>
    refine ih h.close (hsettled.close (Or.inl (hexempt _ List.mem_cons_self))) fun id hid => ?_
    exact hexempt id (List.mem_cons_of_mem _ hid)

end Tree.Shows

/-- Off the edge, the nodes of a settled tree are exact, if they are not exempt. -/
theorem Tree.Settled.exactAt {exempt : NodeId → Prop} {whole : List Char} {tree : Tree}
    {id : NodeId} (h : tree.Settled exempt whole) (htext : tree.text.toList <+: whole)
    (hid : id < tree.size) (hoff : ¬tree.OnEdge id) : exempt id ∨ tree.ExactAt whole id := by
  obtain ⟨node, outer, hshows, hsettled⟩ := h
  have hmore : Spine.Settled (fun id => exempt id ∨ tree.OnEdge id) whole (node :: outer) :=
    hsettled.mono fun _ => Or.inl
  obtain ⟨root, hroot, hexact⟩ :=
    hshows.exists_root hmore fun id hid => Or.inr (hshows.onEdge hid)
  have hsize : tree.size = 0 + (Forest.single root.label root.below).size := by
    rw [hroot.size_eq, Spine.size_cons, Spine.size_nil, Forest.size_single, Nat.zero_add,
      Nat.zero_add]
  have hwhole : (Forest.single root.label root.below).text <+: whole.drop 0 := by
    rw [Forest.text_single, List.drop_zero]
    rwa [hroot.text] at htext
  rcases hroot.holds_root.exactAt (Nat.le_of_eq hsize.symm) hexact hwhole (Nat.zero_le id)
    (hsize ▸ hid) with (hexempt | hedge) | hexact
  · exact Or.inl hexempt
  · exact absurd hedge hoff
  · exact Or.inr hexact

end LosslessEbnf
