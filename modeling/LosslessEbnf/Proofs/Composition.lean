import LosslessEbnf.Proofs.Joining

/-!
# Texts behind texts

A text that is put together from texts that can be read can be read, and its tree is put together
from their trees. What is read of one item does not depend on the items in front of it.

## Main Definitions

* `MeetInSpace` — there is white space on both sides where two texts meet
* `Tree.shiftTo` — what stands in front of a child of the root

## Main Statements

* `Composes` — the tree of two texts one behind the other
* `exists_front_of_lt` — the text in front of a child of the root can be read, and so can the rest
* `parseText_compositional` — texts can be put together and taken apart between items
-/

namespace LosslessEbnf

variable {limit k : Nat} {text : List Char} {tree : Tree} {items : Forest}

/-- Where two texts meet there is white space on both sides. -/
def MeetInSpace (front back : List Char) : Prop :=
  front.getLast?.any isSpace = true ∧ back.head?.any isSpace = true

/-- What stands in front of a child of the root: the nodes with smaller numbers and their text. -/
def Tree.shiftTo (tree : Tree) (child : NodeId) : Shift :=
  ⟨child - 1, Position.start.afterAll ((List.range child).flatMap fun id => (tree.data id).toList)⟩

/-- The items of two texts one behind the other, of which the first one ends at `base`: those of the
first and, shifted, those of the second. If `meet` holds, the white space where they meet is one
item. -/
def Composes (meet : Prop) (base : Position) (front back : Forest) (tree : Tree) : Prop :=
  (¬meet → tree.Items (front ++ (Shift.mk front.size base).forest back)) ∧
    (meet → ∃ before first second behind,
      front = before ++ .single first .nil ∧ back = .single second .nil ++ behind ∧
        first.kind = .space ∧ second.kind = .space ∧
        tree.Items (before ++ .single (first.merge base second) .nil ++
          (Shift.mk before.size base).forest behind))

namespace Joins

variable {shift : Shift} {front front' : Forest} {result : Except ParseError Tree}

theorem of_part (h : Joins shift front' front (.ok tree) result) :
    ∃ whole back, result = .ok whole ∧ tree.Items (front' ++ back) ∧
      whole.Items (front ++ shift.forest back) := by
  cases h with
  | ok is_part is_whole => exact ⟨_, _, rfl, is_part, is_whole⟩

theorem of_whole (h : Joins shift front' front result (.ok tree)) :
    ∃ part back, result = .ok part ∧ part.Items (front' ++ back) ∧
      tree.Items (front ++ shift.forest back) := by
  cases h with
  | ok is_part is_whole => exact ⟨_, _, rfl, is_part, is_whole⟩

end Joins

/-! ### Putting together -/

/-- Where two texts do not meet in white space the second one is read as on its own. -/
theorem Reached.ends_of_not_meet {config : Config} {back : List Char}
    (h : Reached limit text config) (hends : config.Ends none) (hmeet : ¬MeetInSpace text back) :
    config.Ends back.head? := by
  cases hends with
  | fresh hframes => exact .fresh hframes
  | ripe hripe =>
    exact .ripe hripe fun hspace => Bool.eq_false_iff.mpr fun hback =>
      hmeet ⟨(h.endsWithSpace_iff hripe).mp hspace, hback⟩

/-- Where two texts meet in white space a run of it is open between them. -/
theorem Reached.frames_of_meet {config : Config} {back : List Char}
    (h : Reached limit text config) (hends : config.Ends none) (hmeet : MeetInSpace text back) :
    ∃ id, config.frames = [.run .space id, .grammar true] := by
  cases hends with
  | fresh hframes =>
    obtain ⟨rfl, -⟩ := h.eq_initial hframes
    cases hmeet.1
  | ripe hripe => exact hripe.eq_of_endsWithSpace ((h.endsWithSpace_iff hripe).mpr hmeet.1)

/-- Two texts that can be read can be read one behind the other, and the items of the whole are
those of both. White space that meets at the seam is merged. -/
theorem exists_composed {front back : List Char} {first second : Tree}
    (hfront : runText limit .initial front = .ok first)
    (hback : runText limit .initial back = .ok second) :
    ∃ tree items items', runText limit .initial (front ++ back) = .ok tree ∧
      first.Items items ∧ second.Items items' ∧
      Composes (MeetInSpace front back) (Position.start.afterAll front) items items' tree := by
  obtain ⟨config, items, hreached, hends, ⟨hitems, -⟩, -⟩ := exists_ends_of_ok hfront
  by_cases hmeet : MeetInSpace front back
  · obtain ⟨id, hframes⟩ := hreached.frames_of_meet hends hmeet
    obtain ⟨c, hc, hspace⟩ := (Option.any_eq_true _ _).mp hmeet.2
    obtain ⟨rest, rfl⟩ := List.head?_eq_some_iff.mp hc
    obtain ⟨before, space, space', rfl, hkind, hkind', hjoins⟩ :=
      hreached.merges hframes hspace hfront hitems
    rw [hback] at hjoins
    obtain ⟨tree, behind, hrun, hsecond, htree⟩ := hjoins.of_part
    exact ⟨tree, _, _, hrun, hitems, hsecond, fun hnot => absurd hmeet hnot,
      fun _ => ⟨before, space, space', behind, rfl, rfl, hkind, hkind', htree⟩⟩
  · have hjoins := hreached.joins (hreached.ends_of_not_meet hends hmeet) hfront hitems
    rw [hback] at hjoins
    obtain ⟨tree, items', hrun, hsecond, htree⟩ := hjoins.of_part
    exact ⟨tree, items, items', hrun, hitems, hsecond, fun _ => htree,
      fun hyes => absurd hyes hmeet⟩

/-! ### Taking apart -/

/-- The text in front of a child of the root can be read, and so can the rest. -/
theorem exists_front_of_lt (h : runText limit .initial text = .ok tree)
    (hitems : tree.Items items) (hk : k < (tree.children Tree.root).length) :
    ∃ front back first part before behind, text = front ++ back ∧
      runText limit .initial front = .ok first ∧ first.Holding before front ∧
      (before.roots 1).length = k ∧
      runText limit .initial back = .ok part ∧ part.Holding behind back ∧
      items = before ++ (Shift.mk before.size (Position.start.afterAll front)).forest behind := by
  obtain ⟨config, -, hreached, -, -, hchildren⟩ := exists_ends_of_ok h
  rw [hchildren] at hk
  obtain ⟨front, c, back, last, rfl, hlast, hends, hlength⟩ := hreached.exists_cut hk
  obtain ⟨first, before, hfirst, hbefore, hroots⟩ := hlast.accepts hends
  have hjoins : Joins ⟨before.size, Position.start.afterAll front⟩ .nil before
      (runText limit .initial (c :: back)) (runText limit .initial (front ++ c :: back)) :=
    hlast.joins hends hfirst hbefore.is_items
  rw [h] at hjoins
  obtain ⟨part, behind, hback, hbehind, htree⟩ := hjoins.of_whole
  obtain ⟨-, behind', -, -, hholding, -⟩ := exists_ends_of_ok hback
  obtain rfl : behind = behind' := hbehind.unique hholding.is_items
  refine ⟨front, c :: back, first, part, before, behind, rfl, hfirst, hbefore, ?_, hback, hholding,
    hitems.unique htree⟩
  rw [← hbefore.is_items.children_eq, hroots, hlength]

/-- The text up to the end of a child of the root can be read. -/
theorem exists_front_of_le (h : runText limit .initial text = .ok tree)
    (hitems : tree.Holding items text) (hk : k ≤ (tree.children Tree.root).length) :
    ∃ front first before rest, runText limit .initial front = .ok first ∧
      first.Holding before front ∧ (before.roots 1).length = k ∧ items = before ++ rest := by
  rcases Nat.lt_or_eq_of_le hk with hlt | rfl
  · obtain ⟨front, -, first, -, before, behind, -, hfirst, hbefore, hlength, -, -, hall⟩ :=
      exists_front_of_lt h hitems.is_items hlt
    exact ⟨front, first, before, _, hfirst, hbefore, hlength, hall⟩
  · refine ⟨text, tree, items, .nil, h, hitems, ?_, (Forest.append_nil items).symm⟩
    rw [hitems.is_items.children_eq]

theorem Forest.exists_single_of_length {forest : Forest} {number : NodeId}
    (h : (forest.roots number).length = 1) : ∃ top below, forest = .single top below := by
  cases forest with
  | nil => cases h
  | cons top below beside =>
    cases beside with
    | nil => exact ⟨top, below, rfl⟩
    | cons => cases h

/-- The text of every child of the root can be read on its own, since in front of it and behind it
an item ends. -/
theorem exists_alone (h : runText limit .initial text = .ok tree)
    (hitems : tree.Holding items text) (hk : k < (tree.children Tree.root).length) :
    ∃ front alone top below before behind rest,
      runText limit .initial (Forest.single top below).text = .ok alone ∧
      alone.Items (.single top below) ∧ before.text = front ∧ (before.roots 1).length = k ∧
      behind = (Shift.mk before.size (Position.start.afterAll front)).forest (.single top below) ∧
      items = before ++ behind ++ rest := by
  obtain ⟨text', tree', items', rest, hrun, hitems', hlength, rfl⟩ :=
    exists_front_of_le h hitems (Nat.succ_le_of_lt hk)
  have hk' : k < (tree'.children Tree.root).length := by
    rw [hitems'.is_items.children_eq, hlength]
    exact Nat.lt_succ_self k
  obtain ⟨front, back, first, alone, before, behind, rfl, -, hbefore, hcount, halone, hbehind,
    rfl⟩ := exists_front_of_lt hrun hitems'.is_items hk'
  have hone : (behind.roots 1).length = 1 := by
    have hroots : ((Shift.mk before.size (Position.start.afterAll front)).forest behind).roots
        (1 + before.size) = (behind.roots 1).map _ :=
      Shift.roots_forest (d := ⟨before.size, Position.start.afterAll front⟩) Nat.one_pos behind
    rw [Forest.roots_append, List.length_append, hcount, hroots, List.length_map] at hlength
    omega
  obtain ⟨top, below, rfl⟩ := Forest.exists_single_of_length hone
  rw [← hbehind.text_eq] at halone
  exact ⟨front, alone, top, below, before, _, rest, halone, hbehind.is_items, hbefore.text_eq,
    hcount, rfl, rfl⟩

/-- The trees on the left of a child of the root are what stands in front of it. -/
theorem Tree.Holding.shiftTo_eq {before behind : Forest}
    (h : tree.Holding (before ++ behind) text) :
    tree.shiftTo (1 + before.size) = ⟨before.size, Position.start.afterAll before.text⟩ := by
  obtain ⟨hbefore, -⟩ := Tree.Holds.append_iff.mp h.is_items.holds
  have hdata : (tree.data 0).toList = [] := congrArg String.toList h.data_root
  have htext : ((List.range (1 + before.size)).flatMap fun id => (tree.data id).toList) =
      before.text := by
    rw [List.range_eq_range', ← List.range'_append_1, List.range'_one, List.flatMap_append,
      List.flatMap_singleton, hdata, List.nil_append]
    exact tree.flatMap_data_of_holds hbefore
  rw [Tree.shiftTo, htext, Nat.add_sub_cancel_left]

/-- A child of the root on its own: its text can be read, and the tree has one item, which is that
child but for what stands in front of it. -/
theorem exists_alone_of_mem {child : NodeId} (h : runText limit .initial text = .ok tree)
    (hchild : child ∈ tree.children Tree.root) :
    ∃ alone top below, runText limit .initial (tree.textAt child).toList = .ok alone ∧
      alone.Items (.single top below) ∧
      tree.Holds (some Tree.root) 1 child ((tree.shiftTo child).forest (.single top below)) := by
  obtain ⟨-, items, -, -, hitems, -⟩ := exists_ends_of_ok h
  obtain ⟨k, hk, rfl⟩ := List.getElem_of_mem hchild
  obtain ⟨front, alone, top, below, before, behind, rest, hrun, halone, rfl, hlength, rfl, rfl⟩ :=
    exists_alone h hitems hk
  rw [Forest.append_assoc] at hitems
  have hid : (tree.children Tree.root)[k] = 1 + before.size := by
    refine Option.some.inj ?_
    rw [← List.getElem?_eq_getElem hk, hitems.is_items.children_eq, Forest.roots_append,
      List.getElem?_append_right (Nat.le_of_eq hlength), hlength, Nat.sub_self]
    rfl
  have hholds := (Tree.Holds.append_iff.mp hitems.is_items.holds).2
  have hsize := hitems.is_items.size_eq
  rw [hid, hitems.shiftTo_eq]
  refine ⟨alone, top, below, ?_, halone, (Tree.Holds.append_iff.mp hholds).1⟩
  have htext := tree.textAt_of_holds hholds (by
    rw [Forest.size_append, Forest.size_append, Shift.size_forest] at hsize
    rw [Forest.size_single, Shift.size_forest, hsize, Forest.size_single]
    omega)
  rw [htext, Shift.text_forest, ← hrun, Forest.text_single]
  rfl

/-- **Composition.** Two texts that can be read can be read one behind the other, and the items of
the whole text are those of the first text and then those of the second one, shifted; only white
space on both sides of the place where they meet becomes one item. Conversely, the text of every
item of a text can be read, and its tree has one item, which is that item shifted back. -/
theorem parseText_compositional (maxNesting : Nat) :
    (∀ (front back : String) (first second : Tree),
      parseText front maxNesting = .ok first → parseText back maxNesting = .ok second →
      ∃ tree items items', parseText (front ++ back) maxNesting = .ok tree ∧
        first.Items items ∧ second.Items items' ∧
        Composes (MeetInSpace front.toList back.toList) (Position.start.afterAll front.toList)
          items items' tree) ∧
    ∀ (text : String) (tree : Tree), parseText text maxNesting = .ok tree →
      ∀ child ∈ tree.children Tree.root, ∃ alone top below,
        parseText (tree.textAt child) maxNesting = .ok alone ∧
        alone.Items (.single top below) ∧
        tree.Holds (some Tree.root) 1 child
          ((tree.shiftTo child).forest (.single top below)) := by
  constructor
  · intro front back first second hfront hback
    rw [parseText_eq] at hfront hback
    rw [parseText_eq, String.toList_append]
    exact exists_composed hfront hback
  · intro text tree htree child hchild
    rw [parseText_eq] at htree
    simp only [parseText_eq]
    exact exists_alone_of_mem htree hchild

/-- A product with white space behind it and a comment with white space in front of it. -/
theorem parseText_compositional_spaces :
    (∃ first second tree items items',
      parseText "a=b; " 1 = .ok first ∧ parseText " (* c *)" 1 = .ok second ∧
        parseText ("a=b; " ++ " (* c *)") 1 = .ok tree ∧
        first.Items items ∧ second.Items items' ∧
        Composes (MeetInSpace "a=b; ".toList " (* c *)".toList)
          (Position.start.afterAll "a=b; ".toList) items items' tree) ∧
    ∃ tree alone top below, parseText "a=b; " 1 = .ok tree ∧ 1 ∈ tree.children Tree.root ∧
      parseText (tree.textAt 1) 1 = .ok alone ∧ alone.Items (.single top below) ∧
      tree.Holds (some Tree.root) 1 1 ((tree.shiftTo 1).forest (.single top below)) := by
  obtain ⟨first, hfirst⟩ := exists_tree_of_isOk
    (show (parseText "a=b; " 1).isOk = true by with_unfolding_all decide)
  obtain ⟨second, hsecond⟩ := exists_tree_of_isOk
    (show (parseText " (* c *)" 1).isOk = true by with_unfolding_all decide)
  have hchild : 1 ∈ first.children Tree.root := by
    have hany : (parseText "a=b; " 1).toOption.any
        (fun tree => decide (1 ∈ tree.children Tree.root)) = true := by
      with_unfolding_all decide
    rw [hfirst] at hany
    exact of_decide_eq_true hany
  obtain ⟨hcompose, hparts⟩ := parseText_compositional 1
  obtain ⟨tree, items, items', hcomposed⟩ := hcompose _ _ first second hfirst hsecond
  obtain ⟨alone, top, below, halone⟩ := hparts _ first hfirst 1 hchild
  exact ⟨⟨first, second, tree, items, items', hfirst, hsecond, hcomposed⟩,
    first, alone, top, below, hfirst, hchild, halone⟩

end LosslessEbnf
