import LosslessEbnf.Proofs.RoundTrip

/-!
# Coordinates

In the tree of an accepted text the span of every node denotes the text of the node, at the place
where the node stands.

## Main Definitions

* `Tree.offset` — the number of characters in front of a node
* `Span.slice?` — the part of a text that a span covers

## Main Statements

* `places_injective` — no two characters of a text stand in the same place
* `Tree.Finished.denotes` — the spans of a finished tree
* `coordinates_of_parseText` — the spans of the tree of an accepted text

## Design Notes

A tree numbers its nodes in the order in which they were read. In a finished tree this is the order
in which a walk meets them, so the nodes in front of a node are those with a smaller number.
-/

namespace LosslessEbnf

/-! ### Places of different characters -/

/-- A position comes before another one in the text. -/
def Position.Before (p q : Position) : Prop :=
  p.line < q.line ∨ p.line = q.line ∧ p.column < q.column

theorem Position.before_after (p : Position) (c : Char) : p.Before (p.after c) := by
  rw [after]
  split
  · exact Or.inl (Nat.lt_succ_self _)
  · exact Or.inr ⟨rfl, Nat.lt_succ_self _⟩

theorem Position.Before.trans {p q r : Position} (h : p.Before q) (h' : q.Before r) :
    p.Before r := by
  unfold Before at h h' ⊢
  omega

theorem before_of_mem_placesFrom {p q : Position} {text : List Char} (h : q ∈ placesFrom p text) :
    p.Before q := by
  induction text generalizing p with
  | nil => cases h
  | cons c text ih =>
    rw [placesFrom_cons, List.mem_cons] at h
    rcases h with rfl | h
    · exact p.before_after c
    · exact (p.before_after c).trans (ih h)

theorem pairwise_placesFrom (p : Position) (text : List Char) :
    (placesFrom p text).Pairwise Position.Before := by
  induction text generalizing p with
  | nil => exact .nil
  | cons c text ih => exact .cons (fun q hq => before_of_mem_placesFrom hq) (ih _)

/-- A character in front of another one stands before it, in an earlier line or further to the
left. -/
theorem before_of_places {text : List Char} {p q : Position} {i j : Nat}
    (hi : (places text)[i]? = some p) (hj : (places text)[j]? = some q) (hlt : i < j) :
    p.Before q := by
  obtain ⟨hi', rfl⟩ := List.getElem?_eq_some_iff.mp hi
  obtain ⟨hj', rfl⟩ := List.getElem?_eq_some_iff.mp hj
  exact List.pairwise_iff_getElem.mp (pairwise_placesFrom .start text) i j hi' hj' hlt

/-- A character does not stand before one that is not behind it. -/
theorem not_before_of_places {text : List Char} {p q : Position} {i j : Nat}
    (hi : (places text)[i]? = some p) (hj : (places text)[j]? = some q) (hle : i ≤ j) :
    ¬q.Before p := by
  rcases Nat.lt_or_eq_of_le hle with hlt | rfl
  · have hbefore := before_of_places hi hj hlt
    unfold Position.Before at hbefore ⊢
    omega
  · obtain rfl := Option.some.inj (hi.symm.trans hj)
    unfold Position.Before
    omega

/-- No two characters of a text stand in the same place. -/
theorem places_injective {text : List Char} {p : Position} {i j : Nat}
    (hi : (places text)[i]? = some p) (hj : (places text)[j]? = some p) : i = j := by
  have hirrefl : ¬p.Before p := by
    unfold Position.Before
    omega
  rcases Nat.lt_trichotomy i j with hlt | heq | hlt
  · exact absurd (before_of_places hi hj hlt) hirrefl
  · exact heq
  · exact absurd (before_of_places hj hi hlt) hirrefl

/-! ### Slices -/

/-- The part of a text that a span covers, if the span ends in the places of characters. -/
def Span.slice? (text : List Char) (span : Span) : Option (List Char) :=
  if span.isEmpty then some []
  else
    match (places text).findIdx? (· == span.first), (places text).findIdx? (· == span.last) with
    | some first, some last => some ((text.drop first).take (last + 1 - first))
    | _, _ => none

theorem findIdx?_places {text : List Char} {p : Position} {i : Nat}
    (h : (places text)[i]? = some p) : (places text).findIdx? (· == p) = some i := by
  obtain ⟨hi, hp⟩ := List.getElem?_eq_some_iff.mp h
  refine List.findIdx?_eq_some_iff_getElem.mpr ⟨hi, beq_iff_eq.mpr hp, fun j hlt hj => ?_⟩
  have hother := List.getElem?_eq_getElem (Nat.lt_trans hlt hi)
  rw [beq_iff_eq.mp hj] at hother
  exact Nat.ne_of_lt hlt (places_injective hother h)

/-- A span with text in it does not end in front of its start, as later characters stand behind
earlier ones. -/
theorem Span.Denotes.isEmpty_eq_false {whole own : List Char} {offset : Nat} {span : Span}
    (h : span.Denotes whole offset own) (hne : own ≠ []) : span.isEmpty = false := by
  have hlength := List.length_pos_iff.mpr hne
  have hle : span.first = span.last ∨ span.first.Before span.last := by
    by_cases hone : own.length = 1
    · have hlast := h.last hne
      rw [hone, Nat.add_sub_cancel, h.first, Option.some.injEq] at hlast
      exact Or.inl hlast
    · exact Or.inr (before_of_places h.first (h.last hne) (by omega))
  rw [Span.isEmpty, Bool.and_eq_false_iff, beq_eq_false_iff_ne, decide_eq_false_iff_not]
  rcases hle with heq | hbefore
  · rw [heq]
    omega
  · unfold Position.Before at hbefore
    omega

/-- A span covers the part of the text that it denotes: it is found again by the places of its
ends. -/
theorem Span.Denotes.slice?_eq {whole own : List Char} {offset : Nat} {span : Span}
    (h : span.Denotes whole offset own) (hown : own <+: whole.drop offset) :
    span.slice? whole = some own := by
  rw [slice?]
  by_cases hnil : own = []
  · subst hnil
    rw [if_pos h.isEmpty]
  · have hlength := List.length_pos_iff.mpr hnil
    rw [h.isEmpty_eq_false hnil, if_neg nofun, findIdx?_places h.first,
      findIdx?_places (h.last hnil)]
    show some ((whole.drop offset).take (offset + own.length - 1 + 1 - offset)) = some own
    rw [show offset + own.length - 1 + 1 - offset = own.length by omega,
      ← List.prefix_iff_eq_take.mp hown]

/-! ### Trees -/

/-- The number of characters in the nodes that a walk meets before the node `id`. -/
def Tree.offset (tree : Tree) (id : NodeId) : Nat :=
  (((tree.preorder root).takeWhile (· != id)).flatMap fun other => (tree.data other).toList).length

/-- The nodes of a tree of which only the root is open stand in its table. -/
theorem Tree.Shows.holds_root {tree : Tree} {root : OpenNode} (h : tree.Shows [root]) :
    tree.Holds none 0 0 (.single root.label root.below) :=
  ⟨h.get?_top, h.holds_below, trivial⟩

/-- A tree of which only the root is open numbers its nodes in the order of a walk. -/
theorem Tree.Shows.preorder_root {tree : Tree} {root : OpenNode} (h : tree.Shows [root]) :
    tree.preorder Tree.root = List.range' 0 tree.size := by
  have hwalk := tree.walk_of_holds h.holds_root 0 []
  have hsize : (Forest.single root.label root.below).size = tree.size := by
    rw [h.size_eq, Spine.size_cons, Spine.size_nil, Forest.size_single, Nat.zero_add]
  rw [hsize, List.append_nil, walk_zero, List.append_nil] at hwalk
  exact hwalk

theorem takeWhile_range' {n id : Nat} (h : id < n) :
    (List.range' 0 n).takeWhile (· != id) = List.range' 0 id := by
  obtain ⟨more, rfl⟩ := Nat.exists_eq_add_of_lt h
  have hfront : ∀ other ∈ List.range' 0 id, (other != id) = true := by
    intro other hmem
    have := List.mem_range'_1.mp hmem
    rw [bne_iff_ne]
    omega
  rw [Nat.add_assoc, Nat.add_comm more 1, ← List.range'_append_1, ← List.range'_append_1,
    List.takeWhile_append_of_pos hfront, Nat.zero_add, List.range'_one, List.singleton_append,
    List.takeWhile_cons_of_neg (by simp), List.append_nil]

/-- In front of a node stand the nodes with a smaller number. -/
theorem Tree.Shows.offset_eq {tree : Tree} {root : OpenNode} {id : NodeId} (h : tree.Shows [root])
    (hid : id < tree.size) :
    tree.offset id =
      ((List.range' 0 id).flatMap fun other => (tree.data other).toList).length := by
  rw [Tree.offset, h.preorder_root, takeWhile_range' hid]

/-- In a tree of which only the root was open, the span of every node denotes its text. -/
theorem Tree.Shows.denotes {whole : List Char} {tree : Tree} {root : OpenNode} {id : NodeId}
    (h : tree.Shows [root]) (htext : root.text = whole) (hroot : root.Complete True whole 0)
    (hid : id < tree.size) :
    (tree.span id).Denotes whole (tree.offset id) (tree.textAt id).toList ∧
      (tree.textAt id).toList <+: whole.drop (tree.offset id) := by
  have hsize : tree.size = 0 + (Forest.single root.label root.below).size := by
    rw [h.size_eq, Spine.size_cons, Spine.size_nil, Forest.size_single, Nat.zero_add, Nat.zero_add]
  have hplaced : (Forest.single root.label root.below).Placed whole 0 :=
    Forest.placed_single.mpr (hroot trivial)
  have hwhole : (Forest.single root.label root.below).text <+: whole.drop 0 := by
    rw [Forest.text_single, List.drop_zero, ← htext]
    exact List.prefix_rfl
  obtain ⟨top, hspan, htop⟩ := h.holds_root.exists_of_spread (Nat.le_of_eq hsize.symm)
    (hplaced.and (Forest.spread_of_text hwhole)) (Nat.zero_le id) (hsize ▸ hid)
  rw [hspan, h.offset_eq hid]
  rw [Nat.zero_add, Nat.sub_zero] at htop
  exact htop

/-! ### Accepted texts -/

/-- **Coordinates.** A walk of the tree of an accepted text meets every node, and the span of a node
starts and ends with the text of the node at its own place. The span of a node without text is empty
and starts with the next character. The tree of the empty text is a root at 1,1-1,0. -/
theorem coordinates_of_parseText {text : String} {maxNesting : Nat} {tree : Tree} {id : NodeId}
    (h : parseText text maxNesting = .ok tree) (hid : id < tree.size) :
    id ∈ tree.preorder Tree.root ∧
      (tree.textAt id ≠ "" →
        (places text.toList)[tree.offset id]? = some (tree.span id).first ∧
          (places text.toList)[tree.offset id + (tree.textAt id).toList.length - 1]? =
            some (tree.span id).last) ∧
      (tree.textAt id = "" →
        (tree.span id).isEmpty = true ∧
          (text ≠ "" →
            (places text.toList)[tree.offset id]? = some (tree.span id).first ∧
              (tree.span id).last.line = (tree.span id).first.line ∧
              (tree.span id).last.column + 1 = (tree.span id).first.column)) ∧
      (text = "" → id = Tree.root ∧ tree.span id = ⟨⟨1, 1⟩, ⟨1, 0⟩⟩) ∧
      (tree.span id).slice? text.toList = some (tree.textAt id).toList := by
  obtain ⟨root, hshows, htext, hroot⟩ := finished_of_parseText h
  have hmem : id ∈ tree.preorder Tree.root := by
    rw [hshows.preorder_root]
    exact List.mem_range'_1.mpr ⟨Nat.zero_le id, (Nat.zero_add _).symm ▸ hid⟩
  refine ⟨hmem, ?_⟩
  by_cases hnil : text = ""
  · -- a text without characters has no places, so its root is handled apart
    subst hnil
    have hroot := hroot trivial
    rw [String.toList_empty, if_pos rfl] at hroot
    subst hroot
    have hsize : tree.size = 1 := hshows.size_eq
    obtain rfl : id = Tree.root := Nat.lt_one_iff.mp (hsize ▸ hid)
    have hspan : tree.span Tree.root = ⟨⟨1, 1⟩, ⟨1, 0⟩⟩ := by
      show ((tree.get? (Spine.size [])).map Node.span).getD .start = _
      rw [hshows.get?_top]
      rfl
    have htext : tree.textAt Tree.root = "" := String.toList_inj.mp hshows.text
    rw [hspan, htext]
    exact ⟨fun h => absurd rfl h, fun _ => ⟨rfl, fun h => absurd rfl h⟩, fun _ => ⟨rfl, rfl⟩, rfl⟩
  · have hne : text.toList ≠ [] := fun h => hnil (String.toList_eq_nil_iff.mp h)
    have hcomplete := hroot trivial
    rw [if_neg hne] at hcomplete
    obtain ⟨hdenotes, hown⟩ := hshows.denotes htext hcomplete hid
    refine ⟨fun hne => ⟨hdenotes.first, hdenotes.last ?_⟩, fun hempty => ?_, fun h => absurd h hnil,
      hdenotes.slice?_eq hown⟩
    · exact fun h => hne (String.toList_eq_nil_iff.mp h)
    · rw [hempty] at hdenotes
      obtain ⟨hlast, hcolumn⟩ := hdenotes.gap rfl
      refine ⟨hdenotes.isEmpty, fun _ => ⟨hdenotes.first, ?_, ?_⟩⟩
      · rw [hlast]
        rfl
      · rw [hlast, Position.left]
        exact Nat.succ_pred hcolumn

/-- An empty term in front of a closer of two characters, behind a line feed. -/
theorem coordinates_of_parseText_empty_term :
    ∃ tree, parseText "a =(/\n b,/);" 2 = .ok tree ∧ 16 < tree.size ∧ tree.textAt 16 = "" ∧
      (tree.span 16).isEmpty = true := by
  have hfacts : (parseText "a =(/\n b,/);" 2).toOption.map
      (fun tree => (tree.size, tree.textAt 16)) = some (20, "") := by decide +kernel
  cases h : parseText "a =(/\n b,/);" 2 with
  | error error =>
    rw [h] at hfacts
    cases hfacts
  | ok tree =>
    rw [h] at hfacts
    obtain ⟨hsize, htext⟩ := Prod.mk.inj (Option.some.inj hfacts)
    have hid : 16 < tree.size := by rw [hsize]; decide
    exact ⟨tree, rfl, hid, htext, ((coordinates_of_parseText h hid).2.2.1 htext).1⟩

end LosslessEbnf
