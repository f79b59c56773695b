import LosslessEbnf.Proofs.Nesting
import LosslessEbnf.Proofs.Shifting

/-!
# Two runs on the same text

A text is read on its own, and the same text is read behind other text. The two runs go on side by
side: what the one adds to its tree, the other one adds to its own, shifted.

## Main Definitions

* `Seam` — the trees of two runs when they begin to go on side by side
* `Seam.Alike` — the trees of two runs that have gone on side by side

## Main Statements

* `Seam.Alike.update`, `Seam.Alike.push`, `Seam.Alike.closeAtLastChild` — the same change keeps two
  trees alike

## Design Notes

What stands in front of the seam stays as it is, but for the children of the root. The nodes behind
the seam do not name any node in front of it but the root, and the root keeps its number.
-/

namespace LosslessEbnf

theorem Tree.get?_eq_none {tree : Tree} {id : NodeId} (h : tree.size ≤ id) : tree.get? id = none :=
  Array.getElem?_eq_none h

/-- The trees of two runs when they begin to go on side by side: the run on a part of a text, and
the run on the whole of it. -/
structure Seam where
  /-- What stands in front of the part. -/
  shift : Shift
  /-- The tree of the run on the part. -/
  part : Tree
  /-- The tree of the run on the whole text. -/
  whole : Tree
  /-- There is a root. -/
  part_pos : 0 < part.size
  /-- The whole text has so many nodes more. -/
  size_eq : whole.size = part.size + shift.count

namespace Seam

/-- The number of the first node behind the seam. -/
def first (s : Seam) : NodeId := s.part.size

/-- Two trees that grew alike behind a seam, with the same new children of the root. -/
structure Alike (s : Seam) (items : List NodeId) (part whole : Tree) : Prop where
  /-- Nothing was taken away. -/
  first_le : s.first ≤ part.size
  /-- So many nodes were added to one tree as to the other. -/
  size_eq : whole.size = part.size + s.shift.count
  /-- The root of the part has the new children behind its old ones. -/
  items_part : part.children Tree.root = s.part.children Tree.root ++ items
  /-- So has the root of the whole text. -/
  items_whole : whole.children Tree.root =
    s.whole.children Tree.root ++ items.map s.shift.number
  /-- The roots are equally deep. -/
  depth_root : whole.depth Tree.root = part.depth Tree.root
  /-- The nodes of the part in front of the seam are as they were. -/
  old_part : ∀ id, 0 < id → id < s.first → part.get? id = s.part.get? id
  /-- So are those of the whole text. -/
  old_whole : ∀ id, 0 < id → id < s.whole.size → whole.get? id = s.whole.get? id
  /-- The nodes behind the seam are the same, shifted. -/
  new : ∀ id, s.first ≤ id → whole.get? (s.shift.number id) = (part.get? id).map s.shift.node
  /-- The children of the nodes behind the seam are nodes behind the seam. -/
  below : ∀ id, s.first ≤ id → ∀ child ∈ part.children id, s.first ≤ child ∧ child < part.size

variable {s : Seam} {items : List NodeId} {part whole : Tree}

theorem number_pos {id : NodeId} (h : s.first ≤ id) : 0 < id := Nat.lt_of_lt_of_le s.part_pos h

theorem ne_root {id : NodeId} (h : s.first ≤ id) : id ≠ Tree.root := Nat.ne_of_gt (number_pos h)

/-- A node behind the seam keeps being another one than the root, which both trees share. -/
theorem number_ne_root {id : NodeId} (h : s.first ≤ id) : s.shift.number id ≠ Tree.root :=
  Nat.ne_of_gt (Shift.number_pos (number_pos h))

/-- A node behind the seam of the part is behind the seam of the whole text. -/
theorem size_le_number {id : NodeId} (h : s.first ≤ id) : s.whole.size ≤ s.shift.number id := by
  rw [Shift.number_eq (number_pos h), s.size_eq]
  exact Nat.add_le_add_right h _

/-- Two trees are alike when they begin to go on side by side, for neither has a node behind the
seam yet. -/
theorem alike_refl (hdepth : s.whole.depth Tree.root = s.part.depth Tree.root) :
    s.Alike [] s.part s.whole where
  first_le := Nat.le_refl _
  size_eq := s.size_eq
  items_part := (List.append_nil _).symm
  items_whole := (List.append_nil _).symm
  depth_root := hdepth
  old_part _ _ _ := rfl
  old_whole _ _ _ := rfl
  new id hid := by
    rw [Tree.get?_eq_none (size_le_number hid), Tree.get?_eq_none hid]
    rfl
  below id hid child hchild := by
    rw [Tree.children, Tree.get?_eq_none hid] at hchild
    cases hchild

end Seam

/-! ### Changes of a tree -/

namespace Tree

variable {tree : Tree} {id other parent : NodeId} {change : Node → Node} {kind : Kind} {span : Span}
  {data : String}

theorem children_update (hchange : ∀ node, (change node).children = node.children) :
    (tree.update id change).children other = tree.children other := by
  rw [children, children, get?_update]
  split
  · cases tree.get? other with
    | none => rfl
    | some node => exact hchange node
  · rfl

theorem children_withLast (last : Position) :
    (tree.withLast id last).children other = tree.children other :=
  children_update fun _ => rfl

theorem children_closeAtLastChild :
    (tree.closeAtLastChild id).children other = tree.children other := by
  unfold closeAtLastChild
  split
  · exact children_withLast _
  · rfl

/-- A new node is listed only as a child of its parent, and only if there is such a parent. -/
theorem children_pushChild_of_not (h : other ≠ tree.size)
    (hparent : ¬(parent < tree.size ∧ parent = other)) :
    (tree.pushChild parent kind span data).children other = tree.children other := by
  rw [children, get?_pushChild_of_ne h, children]
  split
  · rename_i heq
    rw [get?_eq_none (Nat.le_of_not_lt fun hlt => hparent ⟨heq ▸ hlt, heq⟩)]
    rfl
  · rfl

theorem children_pushChild_of_ne (h : other ≠ tree.size) (hparent : parent ≠ other) :
    (tree.pushChild parent kind span data).children other = tree.children other :=
  children_pushChild_of_not h fun hboth => hparent hboth.2

/-- The new child stands behind the other children of its parent. -/
theorem children_pushChild_parent (h : parent < tree.size) :
    (tree.pushChild parent kind span data).children parent =
      tree.children parent ++ [tree.size] := by
  rw [children, get?_pushChild_of_ne (Nat.ne_of_lt h), if_pos rfl, children]
  obtain ⟨node, hnode⟩ := Option.isSome_iff_exists.mp (isSome_get?_iff.mpr h)
  rw [hnode]
  rfl

theorem children_pushChild_size :
    (tree.pushChild parent kind span data).children tree.size = [] := by
  rw [children, get?_pushChild_size]
  rfl

end Tree

namespace Seam

variable {s : Seam} {items : List NodeId} {part whole : Tree} {id parent : NodeId}

namespace Alike

/-- The next node gets the next number in either tree. -/
theorem size_whole (h : s.Alike items part whole) :
    whole.size = s.shift.number part.size := by
  rw [h.size_eq, Shift.number_eq (number_pos h.first_le)]

theorem root_ne_size_whole (h : s.Alike items part whole) : Tree.root ≠ whole.size := by
  rw [h.size_whole]
  exact (number_ne_root h.first_le).symm

/-- What is done to a node behind the seam is done to the shifted node, and nothing in front of the
seam changes. -/
theorem update {change change' : Node → Node} (h : s.Alike items part whole) (hid : s.first ≤ id)
    (hchange : ∀ node, change' (s.shift.node node) = s.shift.node (change node))
    (hpart : ∀ node, (change node).children = node.children)
    (hwhole : ∀ node, (change' node).children = node.children) :
    s.Alike items (part.update id change) (whole.update (s.shift.number id) change') where
  first_le := by
    rw [Tree.size_update]
    exact h.first_le
  size_eq := by
    rw [Tree.size_update, Tree.size_update]
    exact h.size_eq
  items_part := (Tree.children_update hpart).trans h.items_part
  items_whole := (Tree.children_update hwhole).trans h.items_whole
  depth_root := by
    rw [Tree.depth, Tree.get?_update_of_ne (number_ne_root hid), Tree.depth,
      Tree.get?_update_of_ne (ne_root hid)]
    exact h.depth_root
  old_part other hpos hlt := by
    have hne : id ≠ other := fun heq => absurd hid (Nat.not_le_of_lt (heq ▸ hlt))
    rw [Tree.get?_update_of_ne hne]
    exact h.old_part other hpos hlt
  old_whole other hpos hlt := by
    have hne : s.shift.number id ≠ other := fun heq =>
      absurd (size_le_number hid) (Nat.not_le_of_lt (heq ▸ hlt))
    rw [Tree.get?_update_of_ne hne]
    exact h.old_whole other hpos hlt
  new other hother := by
    by_cases heq : id = other
    · subst heq
      rw [Tree.get?_update_self, Tree.get?_update_self, h.new id hid]
      cases part.get? id with
      | none => rfl
      | some node => exact congrArg some (hchange node)
    · have hne : s.shift.number id ≠ s.shift.number other := fun hnumber =>
        heq ((Shift.number_inj (number_pos hid) (number_pos hother)).mp hnumber)
      rw [Tree.get?_update_of_ne hne, Tree.get?_update_of_ne heq]
      exact h.new other hother
  below other hother child hchild := by
    rw [Tree.children_update hpart] at hchild
    rw [Tree.size_update]
    exact h.below other hother child hchild

/-- A change of kind behind the seam is made in both trees, with the numbers of the components
counted on. -/
theorem withKind (h : s.Alike items part whole) (hid : s.first ≤ id) (kind : Kind) :
    s.Alike items (part.withKind id kind)
      (whole.withKind (s.shift.number id) (s.shift.kind kind)) :=
  h.update hid (fun _ => rfl) (fun _ => rfl) fun _ => rfl

/-- A change of the end behind the seam is made in both trees, with the position counted on. -/
theorem withLast (h : s.Alike items part whole) (hid : s.first ≤ id) (last : Position) :
    s.Alike items (part.withLast id last)
      (whole.withLast (s.shift.number id) (s.shift.base.behind last)) :=
  h.update hid (fun _ => rfl) (fun _ => rfl) fun _ => rfl

theorem withData (h : s.Alike items part whole) (hid : s.first ≤ id) (data : String) :
    s.Alike items (part.withData id data) (whole.withData (s.shift.number id) data) :=
  h.update hid (fun _ => rfl) (fun _ => rfl) fun _ => rfl

/-- A character that is added behind the seam is added in both trees, at the nodes of the same
number. -/
theorem pushText (h : s.Alike items part whole) (hid : s.first ≤ id) (c : Char) :
    s.Alike items (part.pushText id c) (whole.pushText (s.shift.number id) c) :=
  h.update hid (fun _ => rfl) (fun _ => rfl) fun _ => rfl

theorem extend (h : s.Alike items part whole) (hid : s.first ≤ id) (c : Char) (here : Position) :
    s.Alike items (part.extend id c here)
      (whole.extend (s.shift.number id) c (s.shift.base.behind here)) :=
  (h.pushText hid c).withLast hid here

theorem data_eq (h : s.Alike items part whole) (hid : s.first ≤ id) :
    whole.data (s.shift.number id) = part.data id := by
  rw [Tree.data, Tree.data, h.new id hid]
  cases part.get? id <;> rfl

/-- A node behind the seam has the same children in both trees, apart from the shift. The root has
more of them in the whole tree. -/
theorem children_eq (h : s.Alike items part whole) (hid : s.first ≤ id) :
    whole.children (s.shift.number id) = (part.children id).map s.shift.number := by
  rw [Tree.children, Tree.children, h.new id hid]
  cases part.get? id <;> rfl

theorem depth_eq (h : s.Alike items part whole) (hid : id = Tree.root ∨ s.first ≤ id) :
    whole.depth (s.shift.number id) = part.depth id := by
  rcases hid with rfl | hid
  · exact h.depth_root
  · rw [Tree.depth, Tree.depth, h.new id hid]
    cases part.get? id <;> rfl

/-- A node behind the seam has the same span in both trees, apart from the shift. -/
theorem span_eq (h : s.Alike items part whole) (hid : s.first ≤ id) (hlt : id < part.size) :
    whole.span (s.shift.number id) = s.shift.span (part.span id) := by
  obtain ⟨node, hnode⟩ := Option.isSome_iff_exists.mp (Tree.isSome_get?_iff.mpr hlt)
  rw [Tree.span, Tree.span, h.new id hid, hnode]
  rfl

/-- A node ends where its last child does, and behind the seam the last children correspond as
well. -/
theorem closeAtLastChild (h : s.Alike items part whole) (hid : s.first ≤ id) :
    s.Alike items (part.closeAtLastChild id) (whole.closeAtLastChild (s.shift.number id)) := by
  have hlast : (whole.children (s.shift.number id)).getLast? =
      (part.children id).getLast?.map s.shift.number := by
    rw [h.children_eq hid, List.getLast?_map]
  unfold Tree.closeAtLastChild
  rw [hlast]
  cases hchild : (part.children id).getLast? with
  | none => exact h
  | some child =>
    obtain ⟨hle, hlt⟩ := h.below id hid child (List.mem_of_getLast? hchild)
    dsimp only [Option.map_some]
    rw [h.span_eq hle hlt]
    exact h.withLast hid _

/-- A new child behind the seam is the same in either tree, whatever becomes of the children of the
root. -/
theorem new_push (h : s.Alike items part whole) (hparent : parent = Tree.root ∨ s.first ≤ parent)
    (kind : Kind) (span : Span) (data : String) (other : NodeId) (hother : s.first ≤ other) :
    (whole.pushChild (s.shift.number parent) (s.shift.kind kind) (s.shift.span span) data).get?
        (s.shift.number other) =
      ((part.pushChild parent kind span data).get? other).map s.shift.node := by
  by_cases heq : other = part.size
  · subst heq
    rw [← h.size_whole, Tree.get?_pushChild_size, Tree.get?_pushChild_size, h.depth_eq hparent]
    rfl
  · have hne : s.shift.number other ≠ whole.size := fun hnumber => heq <|
      (Shift.number_inj (number_pos hother) (number_pos h.first_le)).mp
        (hnumber.trans h.size_whole)
    rw [Tree.get?_pushChild_of_ne hne, Tree.get?_pushChild_of_ne heq, h.new other hother,
      h.size_whole]
    by_cases hparenteq : parent = other
    · rw [if_pos hparenteq, if_pos (congrArg _ hparenteq)]
      cases part.get? other with
      | none => rfl
      | some node => simp [Shift.node]
    · have hnumber : s.shift.number parent ≠ s.shift.number other := by
        rcases hparent with rfl | hparent
        · exact fun hnumber => number_ne_root hother hnumber.symm
        · exact fun hnumber =>
            hparenteq ((Shift.number_inj (number_pos hparent) (number_pos hother)).mp hnumber)
      rw [if_neg hparenteq, if_neg hnumber]

/-- A new node is behind the seam, and so all children of nodes behind the seam stay there. -/
theorem below_push (h : s.Alike items part whole) (kind : Kind) (span : Span) (data : String)
    (other : NodeId) (hother : s.first ≤ other) :
    ∀ child ∈ (part.pushChild parent kind span data).children other,
      s.first ≤ child ∧ child < (part.pushChild parent kind span data).size := by
  intro child hchild
  rw [Tree.size_pushChild]
  have hold : child ∈ part.children other → s.first ≤ child ∧ child < part.size + 1 :=
    fun hmem => by
      obtain ⟨hle, hlt⟩ := h.below other hother child hmem
      exact ⟨hle, Nat.lt_succ_of_lt hlt⟩
  by_cases heq : other = part.size
  · rw [heq, Tree.children_pushChild_size] at hchild
    cases hchild
  by_cases hlt : parent < part.size ∧ parent = other
  · obtain ⟨hlt, rfl⟩ := hlt
    rw [Tree.children_pushChild_parent hlt] at hchild
    rcases List.mem_append.mp hchild with hmem | hmem
    · exact hold hmem
    · rw [List.mem_singleton.mp hmem]
      exact ⟨h.first_le, Nat.lt_succ_self _⟩
  · refine hold ?_
    rwa [Tree.children_pushChild_of_not heq hlt] at hchild

/-- A new node is added below the root or behind the seam. So it changes no other node of the part
that was there at the seam. -/
theorem old_push_part (h : s.Alike items part whole)
    (hparent : parent = Tree.root ∨ s.first ≤ parent) (kind : Kind) (span : Span) (data : String)
    (other : NodeId) (hpos : 0 < other) (hlt : other < s.first) :
    (part.pushChild parent kind span data).get? other = s.part.get? other := by
  have hne : parent ≠ other := by
    rcases hparent with rfl | hparent
    · exact Nat.ne_of_lt hpos
    · exact fun heq => absurd hparent (Nat.not_le_of_lt (heq ▸ hlt))
  rw [Tree.get?_pushChild_of_ne (Nat.ne_of_lt (Nat.lt_of_lt_of_le hlt h.first_le)), if_neg hne]
  exact h.old_part other hpos hlt

/-- A new node is added below the root or behind the seam. So it changes no other node of the whole
that was there at the seam. -/
theorem old_push_whole (h : s.Alike items part whole)
    (hparent : parent = Tree.root ∨ s.first ≤ parent) (kind : Kind) (span : Span) (data : String)
    (other : NodeId) (hpos : 0 < other) (hlt : other < s.whole.size) :
    (whole.pushChild (s.shift.number parent) kind span data).get? other = s.whole.get? other := by
  have hne : s.shift.number parent ≠ other := by
    rcases hparent with rfl | hparent
    · exact Nat.ne_of_lt hpos
    · exact fun heq => absurd (size_le_number hparent) (Nat.not_le_of_lt (heq ▸ hlt))
  have hsize : other ≠ whole.size := by
    rw [h.size_whole]
    exact fun heq => absurd (size_le_number h.first_le) (Nat.not_le_of_lt (heq ▸ hlt))
  rw [Tree.get?_pushChild_of_ne hsize, if_neg hne]
  exact h.old_whole other hpos hlt

/-- The root and the nodes behind the seam get the same children in either tree, so it is enough to
know the children of the root. -/
theorem pushChild {items' : List NodeId} (h : s.Alike items part whole)
    (hparent : parent = Tree.root ∨ s.first ≤ parent) (kind : Kind) (span : Span) (data : String)
    (hpart : (part.pushChild parent kind span data).children Tree.root =
      s.part.children Tree.root ++ items')
    (hwhole : (whole.pushChild (s.shift.number parent) (s.shift.kind kind) (s.shift.span span)
      data).children Tree.root = s.whole.children Tree.root ++ items'.map s.shift.number) :
    s.Alike items' (part.pushChild parent kind span data)
      (whole.pushChild (s.shift.number parent) (s.shift.kind kind) (s.shift.span span) data) where
  first_le := by
    rw [Tree.size_pushChild]
    exact Nat.le_succ_of_le h.first_le
  size_eq := by
    rw [Tree.size_pushChild, Tree.size_pushChild, h.size_eq, Nat.add_right_comm]
  items_part := hpart
  items_whole := hwhole
  depth_root := by
    rw [Tree.depth_pushChild_of_ne h.root_ne_size_whole,
      Tree.depth_pushChild_of_ne (ne_root h.first_le).symm]
    exact h.depth_root
  old_part := h.old_push_part hparent kind span data
  old_whole := h.old_push_whole hparent _ _ data
  new := h.new_push hparent kind span data
  below := h.below_push kind span data

/-- A node behind the seam gets the same child in either tree. -/
theorem push (h : s.Alike items part whole) (hparent : s.first ≤ parent) (kind : Kind)
    (span : Span) (data : String) :
    s.Alike items (part.pushChild parent kind span data)
      (whole.pushChild (s.shift.number parent) (s.shift.kind kind) (s.shift.span span) data) := by
  refine h.pushChild (.inr hparent) kind span data ?_ ?_
  · rw [Tree.children_pushChild_of_ne (ne_root h.first_le).symm (ne_root hparent)]
    exact h.items_part
  · rw [Tree.children_pushChild_of_ne h.root_ne_size_whole (number_ne_root hparent)]
    exact h.items_whole

/-- The root gets one more child in either tree. -/
theorem pushItem (h : s.Alike items part whole) (kind : Kind) (span : Span) (data : String) :
    s.Alike (items ++ [part.size]) (part.pushChild Tree.root kind span data)
      (whole.pushChild Tree.root (s.shift.kind kind) (s.shift.span span) data) := by
  refine h.pushChild (.inl rfl) kind span data ?_ ?_
  · have hpos : Tree.root < part.size := number_pos h.first_le
    rw [Tree.children_pushChild_parent hpos, h.items_part, List.append_assoc]
  · have hpos : Tree.root < whole.size := Nat.pos_of_ne_zero h.root_ne_size_whole.symm
    show (whole.pushChild Tree.root (s.shift.kind kind) (s.shift.span span) data).children
      Tree.root = _
    rw [Tree.children_pushChild_parent hpos, h.items_whole, h.size_whole, List.append_assoc,
      List.map_append]
    rfl

/-- The end of the root is not compared: it is behind the whole text in both trees. -/
theorem withLast_root (h : s.Alike items part whole) (last last' : Position) :
    s.Alike items (part.withLast Tree.root last) (whole.withLast Tree.root last') where
  first_le := by
    rw [Tree.withLast, Tree.size_update]
    exact h.first_le
  size_eq := by
    rw [Tree.withLast, Tree.withLast, Tree.size_update, Tree.size_update]
    exact h.size_eq
  items_part := by
    rw [Tree.children_withLast]
    exact h.items_part
  items_whole := by
    rw [Tree.children_withLast]
    exact h.items_whole
  depth_root := by
    rw [Tree.withLast, Tree.withLast, Tree.depth_update, Tree.depth_update]
    · exact h.depth_root
    · exact fun _ => rfl
    · exact fun _ => rfl
  old_part other hpos hlt := by
    rw [Tree.withLast, Tree.get?_update_of_ne (show Tree.root ≠ other from Nat.ne_of_lt hpos)]
    exact h.old_part other hpos hlt
  old_whole other hpos hlt := by
    rw [Tree.withLast, Tree.get?_update_of_ne (show Tree.root ≠ other from Nat.ne_of_lt hpos)]
    exact h.old_whole other hpos hlt
  new other hother := by
    rw [Tree.withLast, Tree.get?_update_of_ne (number_ne_root hother).symm, Tree.withLast,
      Tree.get?_update_of_ne (ne_root hother).symm]
    exact h.new other hother
  below other hother child hchild := by
    rw [Tree.children_withLast] at hchild
    rw [Tree.withLast, Tree.size_update]
    exact h.below other hother child hchild

end Alike

end Seam

end LosslessEbnf
