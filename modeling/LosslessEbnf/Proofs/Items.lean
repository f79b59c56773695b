import LosslessEbnf.Proofs.Seams
import LosslessEbnf.Proofs.Spine

/-!
# Items of a text

The children of the root with all that is below them, as a forest.

## Main Definitions

* `Tree.Items` — the trees below the root

## Main Statements

* `Tree.Items.unique` — a tree has its items in one way only
* `Tree.Items.take` — the items that were there first come first
* `Seam.Alike.items` — behind a seam the whole text gets the items of the part, shifted
-/

namespace LosslessEbnf

/-- The trees below the root, which are all that the tree has besides the root. -/
structure Tree.Items (tree : Tree) (items : Forest) : Prop where
  /-- There are no other nodes. -/
  size_eq : tree.size = 1 + items.size
  /-- Their tops are the children of the root. -/
  children_eq : tree.children Tree.root = items.roots 1
  /-- They stand right behind the root. -/
  holds : tree.Holds (some Tree.root) 1 1 items

/-! ### Forests in a table -/

@[simp] theorem Forest.append_nil (forest : Forest) : forest ++ nil = forest := by
  induction forest with
  | nil => rfl
  | cons top below beside _ ih => rw [cons_append, ih]

namespace Tree.Holds

variable {tree tree' : Tree} {parent : Option NodeId} {depth number : Nat}
  {forest left right : Forest}

/-- The right one of two forests begins where the left one ends. -/
theorem append_iff :
    tree.Holds parent depth number (left ++ right) ↔
      tree.Holds parent depth number left ∧ tree.Holds parent depth (number + left.size) right := by
  induction left generalizing number with
  | nil => exact ⟨fun h => ⟨trivial, h⟩, And.right⟩
  | cons top below beside _ ih =>
    have hsize : number + (Forest.cons top below beside).size =
        number + 1 + below.size + beside.size := by
      rw [Forest.size_cons]
      omega
    rw [Forest.cons_append, Holds, Holds, ih, hsize, and_assoc, and_assoc]

/-- A forest stands in any tree that has the same nodes where the forest stands. -/
theorem congr (h : tree.Holds parent depth number forest)
    (hget : ∀ id, number ≤ id → id < number + forest.size → tree'.get? id = tree.get? id) :
    tree'.Holds parent depth number forest := by
  induction forest generalizing parent depth number with
  | nil => trivial
  | cons top below beside ihBelow ihBeside =>
    obtain ⟨htop, hbelow, hbeside⟩ := h
    rw [Forest.size_cons] at hget
    refine ⟨?_, ?_, ?_⟩
    · rw [hget number (Nat.le_refl _) (by omega), htop]
    · exact ihBelow hbelow fun id hle hlt => hget id (by omega) (by omega)
    · exact ihBeside hbeside fun id hle hlt => hget id (by omega) (by omega)

/-- Of two forests that stand in the same place, the one with fewer tops is the front of the
other. -/
theorem exists_append {more : List NodeId} (hleft : tree.Holds parent depth number left)
    (hforest : tree.Holds parent depth number forest)
    (hroots : forest.roots number = left.roots number ++ more) :
    ∃ back, forest = left ++ back := by
  induction left generalizing parent depth number forest more with
  | nil => exact ⟨forest, rfl⟩
  | cons top below beside ihBelow ihBeside =>
    cases forest with
    | nil => cases hroots
    | cons top' below' beside' =>
      obtain ⟨htop, hbelow, hbeside⟩ := hleft
      obtain ⟨htop', hbelow', hbeside'⟩ := hforest
      -- there is one node at the place of the top, so the labels and the children are the same
      rw [htop] at htop'
      obtain ⟨hkind, -, hchildren, -, hspan, hdata⟩ := Node.mk.inj (Option.some.inj htop')
      obtain rfl : top = top' := by
        cases top
        cases top'
        subst hkind hspan hdata
        rfl
      obtain ⟨rest, rfl⟩ := ihBelow hbelow hbelow'
        (hchildren.symm.trans (List.append_nil _).symm)
      obtain rfl : rest = .nil := by
        rw [Forest.roots_append, List.self_eq_append_right] at hchildren
        cases rest with
        | nil => rfl
        | cons => cases hchildren
      rw [Forest.append_nil] at hroots hbeside' ⊢
      obtain ⟨back, rfl⟩ := ihBeside hbeside hbeside' (List.cons.inj hroots).2
      exact ⟨back, rfl⟩

end Tree.Holds

/-! ### Items -/

namespace Tree.Items

variable {tree tree' : Tree} {items other : Forest}

/-- The trees below the root are not changed with the root. -/
theorem congr (h : tree.Items items) (hsize : tree'.size = tree.size)
    (hchildren : tree'.children Tree.root = tree.children Tree.root)
    (hget : ∀ id, 0 < id → id < tree.size → tree'.get? id = tree.get? id) : tree'.Items items where
  size_eq := hsize.trans h.size_eq
  children_eq := hchildren.trans h.children_eq
  holds := h.holds.congr fun id hle hlt => hget id hle (h.size_eq ▸ hlt)

theorem withLast_root (h : tree.Items items) (last : Position) :
    (tree.withLast Tree.root last).Items items :=
  h.congr (Tree.size_update ..) (Tree.children_withLast last) fun _ hpos _ =>
    Tree.get?_update_of_ne (Nat.ne_of_lt hpos)

/-- The items that were there first come first, if the tree has only grown at its root and behind
them. -/
theorem take {more : List NodeId} (h : tree.Items items)
    (hchildren : tree'.children Tree.root = tree.children Tree.root ++ more)
    (hget : ∀ id, 0 < id → id < tree.size → tree'.get? id = tree.get? id)
    (h' : tree'.Items other) : ∃ back, other = items ++ back := by
  have hholds := h.holds.congr fun id hle hlt => hget id hle (h.size_eq ▸ hlt)
  rw [h'.children_eq, h.children_eq] at hchildren
  exact hholds.exists_append h'.holds hchildren

/-- A tree has its items in one way only. -/
theorem unique (h : tree.Items items) (h' : tree.Items other) : items = other := by
  obtain ⟨back, rfl⟩ := h.take (List.append_nil _).symm (fun _ _ _ => rfl) h'
  have hsize := h.size_eq.symm.trans h'.size_eq
  rw [Forest.size_append] at hsize
  cases back with
  | nil => rw [Forest.append_nil]
  | cons => simp only [Forest.size_cons] at hsize; omega

end Tree.Items

/-- The trees below the root of a tree whose other nodes are closed. -/
theorem Tree.Shows.items {tree : Tree} {root : OpenNode} (h : tree.Shows [root]) :
    tree.Items root.below where
  size_eq := by
    rw [h.size_eq, Spine.size_cons, Spine.size_nil, Nat.zero_add]
  children_eq := by
    rw [Tree.children, show Tree.root = Spine.size [] from rfl, h.get?_top]
    rfl
  holds := h.holds_below

/-- Behind a seam the whole text gets the items of the part, shifted, and it keeps the items in
front of the seam. -/
theorem Seam.Alike.items {s : Seam} {new : List NodeId} {part whole : Tree}
    {front back front' : Forest} (h : s.Alike new part whole) (hpart : s.part.Items front')
    (hwhole : s.whole.Items front) (hitems : part.Items (front' ++ back)) :
    whole.Items (front ++ s.shift.forest back) := by
  have hcount : 1 + front.size = 1 + front'.size + s.shift.count := by
    rw [← hwhole.size_eq, s.size_eq, hpart.size_eq]
  have hnumber : 1 + front'.size = s.first := hpart.size_eq.symm
  have hsize := hitems.size_eq
  rw [Forest.size_append] at hsize
  have hnew : new = back.roots (1 + front'.size) := by
    have hchildren := h.items_part.symm.trans hitems.children_eq
    rw [hpart.children_eq, Forest.roots_append] at hchildren
    exact List.append_cancel_left hchildren
  refine ⟨?_, ?_, ?_⟩
  · rw [h.size_eq, hsize, Forest.size_append, Shift.size_forest]
    omega
  · rw [h.items_whole, hwhole.children_eq, Forest.roots_append, hcount, hnew,
      Shift.roots_forest (Nat.lt_of_lt_of_le Nat.one_pos (Nat.le_add_right _ _))]
  · refine Tree.Holds.append_iff.mpr ⟨?_, ?_⟩
    · exact hwhole.holds.congr fun id hle hlt => h.old_whole id hle (hwhole.size_eq ▸ hlt)
    · rw [hcount]
      exact Shift.holds_forest (Nat.lt_of_lt_of_le Nat.one_pos (Nat.le_add_right _ _))
        (fun id hle _ => h.new id (hnumber ▸ hle)) (Tree.Holds.append_iff.mp hitems.holds).2

end LosslessEbnf
