import LosslessEbnf.Tree.Walk

/-!
# Forests

A tree keeps its nodes in a table, and the nodes name each other by number. Here the nodes of a
table are seen as what they stand for: a row of trees, each with its own trees below it.

## Main Definitions

* `Label` — what a node says of itself, without its links
* `Forest` — trees side by side
* `Forest.table` — the nodes of a forest as they stand in a table
* `Tree.Holds` — the forest that stands in a table from a given number on
* `Spread` — a property of every tree of a forest, given where its text begins

## Main Statements

* `walk_of_holds` — a walk meets the nodes of a forest in the order of the table
* `Tree.Holds.exists_of_spread` — what is spread over a forest is true of every node of the table

## Design Notes

The numbers of the nodes are not kept in a forest: the table lists a tree before the trees on its
right, and a node before the trees below it, so a number is the count of the nodes in front.
-/

namespace LosslessEbnf

/-- What a node says of itself. -/
structure Label where
  /-- What the node was read as. -/
  kind : Kind
  /-- Where its text stands. -/
  span : Span
  /-- The text that it holds itself. -/
  data : String

/-- Trees side by side: nothing, or a first tree with the trees `below` its top, and the others. -/
inductive Forest
  /-- No tree. -/
  | nil
  /-- A first tree and the trees beside it. -/
  | cons (top : Label) (below beside : Forest)

namespace Forest

/-- The tree with the given top as a forest of its own. -/
def single (top : Label) (below : Forest) : Forest := cons top below nil

/-- Two forests side by side. -/
def append : Forest → Forest → Forest
  | nil, other => other
  | cons top below beside, other => cons top below (beside.append other)

instance : Append Forest := ⟨append⟩

@[simp] theorem nil_append (other : Forest) : nil ++ other = other := rfl

@[simp] theorem cons_append (top : Label) (below beside other : Forest) :
    cons top below beside ++ other = cons top below (beside ++ other) := rfl

/-- The number of nodes. -/
def size : Forest → Nat
  | nil => 0
  | cons _ below beside => 1 + below.size + beside.size

@[simp] theorem size_nil : nil.size = 0 := rfl

@[simp] theorem size_cons (top : Label) (below beside : Forest) :
    (cons top below beside).size = 1 + below.size + beside.size := rfl

@[simp] theorem size_append (left right : Forest) :
    (left ++ right).size = left.size + right.size := by
  induction left with
  | nil => simp
  | cons top below beside _ ih =>
    rw [cons_append, size_cons, size_cons, ih, ← Nat.add_assoc]

@[simp] theorem size_single (top : Label) (below : Forest) :
    (single top below).size = 1 + below.size := rfl

/-- The text of the nodes, each before the trees below it. -/
def text : Forest → List Char
  | nil => []
  | cons top below beside => top.data.toList ++ below.text ++ beside.text

@[simp] theorem text_nil : nil.text = [] := rfl

@[simp] theorem text_cons (top : Label) (below beside : Forest) :
    (cons top below beside).text = top.data.toList ++ below.text ++ beside.text := rfl

@[simp] theorem text_append (left right : Forest) :
    (left ++ right).text = left.text ++ right.text := by
  induction left with
  | nil => rfl
  | cons top below beside _ ih =>
    rw [cons_append, text_cons, text_cons, ih, ← List.append_assoc]

@[simp] theorem text_single (top : Label) (below : Forest) :
    (single top below).text = top.data.toList ++ below.text := by
  simp [single]

/-- The numbers of the tops, if the first of them has the number `number`. -/
def roots (number : Nat) : Forest → List NodeId
  | nil => []
  | cons _ below beside => number :: beside.roots (number + 1 + below.size)

@[simp] theorem roots_nil (number : Nat) : nil.roots number = [] := rfl

@[simp] theorem roots_cons (number : Nat) (top : Label) (below beside : Forest) :
    (cons top below beside).roots number = number :: beside.roots (number + 1 + below.size) := rfl

theorem roots_append (number : Nat) (left right : Forest) :
    (left ++ right).roots number = left.roots number ++ right.roots (number + left.size) := by
  induction left generalizing number with
  | nil => simp
  | cons top below beside _ ih =>
    rw [cons_append, roots_cons, roots_cons, ih, size_cons, List.cons_append]
    simp only [Nat.add_assoc]

/-- The nodes of a forest are numbered one after the other from the first number on. -/
theorem bounds_of_mem_roots {number id : Nat} {forest : Forest}
    (h : id ∈ forest.roots number) : number ≤ id ∧ id < number + forest.size := by
  induction forest generalizing number with
  | nil => cases h
  | cons top below beside _ ih =>
    rw [size_cons]
    rcases List.mem_cons.mp h with rfl | h
    · omega
    · have := ih h
      omega

/-- The nodes of the forest as they stand in a table from `number` on. -/
def table (parent : Option NodeId) (depth number : Nat) : Forest → List Node
  | nil => []
  | cons top below beside =>
    ⟨top.kind, parent, below.roots (number + 1), depth, top.span, top.data⟩ ::
      (below.table (some number) (depth + 1) (number + 1) ++
        beside.table parent depth (number + 1 + below.size))

@[simp] theorem table_nil (parent : Option NodeId) (depth number : Nat) :
    nil.table parent depth number = [] := rfl

/-- In a table the first tree of a forest comes first: its root, then what is below it, and then the
other trees. -/
theorem table_cons (parent : Option NodeId) (depth number : Nat) (top : Label)
    (below beside : Forest) :
    (cons top below beside).table parent depth number =
      ⟨top.kind, parent, below.roots (number + 1), depth, top.span, top.data⟩ ::
        (below.table (some number) (depth + 1) (number + 1) ++
          beside.table parent depth (number + 1 + below.size)) := rfl

@[simp] theorem length_table (parent : Option NodeId) (depth number : Nat) (forest : Forest) :
    (forest.table parent depth number).length = forest.size := by
  induction forest generalizing parent depth number with
  | nil => rfl
  | cons top below beside ihBelow ihBeside =>
    rw [table_cons, List.length_cons, List.length_append, ihBelow, ihBeside, size_cons]
    omega

/-- Two forests beside each other have their tables one behind the other, the second one with
numbers from behind the first one on. -/
theorem table_append (parent : Option NodeId) (depth number : Nat) (left right : Forest) :
    (left ++ right).table parent depth number =
      left.table parent depth number ++ right.table parent depth (number + left.size) := by
  induction left generalizing number with
  | nil => simp
  | cons top below beside _ ih =>
    rw [cons_append, table_cons, table_cons, ih, size_cons, List.cons_append, List.append_assoc]
    simp only [Nat.add_assoc]

end Forest

/-! ### The forest in a table -/

/-- The forest stands in the table from `number` on. -/
def Tree.Holds (tree : Tree) (parent : Option NodeId) (depth number : Nat) : Forest → Prop
  | .nil => True
  | .cons top below beside =>
    tree.get? number =
        some ⟨top.kind, parent, below.roots (number + 1), depth, top.span, top.data⟩ ∧
      tree.Holds (some number) (depth + 1) (number + 1) below ∧
      tree.Holds parent depth (number + 1 + below.size) beside

/-- A tree holds a forest if the table of the forest stands in its list of nodes, from the first
number on. -/
theorem Tree.holds_of_drop {tree : Tree} {forest : Forest} {parent : Option NodeId}
    {depth number : Nat} {after : List Node}
    (h : tree.nodes.toList.drop number = forest.table parent depth number ++ after) :
    tree.Holds parent depth number forest := by
  induction forest generalizing parent depth number after with
  | nil => trivial
  | cons top below beside ihBelow ihBeside =>
    rw [Forest.table_cons, List.cons_append, List.append_assoc] at h
    have hrest : tree.nodes.toList.drop (number + 1) =
        below.table (some number) (depth + 1) (number + 1) ++
          (beside.table parent depth (number + 1 + below.size) ++ after) := by
      rw [← List.drop_drop, h, List.drop_one, List.tail_cons]
    have hbeside : tree.nodes.toList.drop (number + 1 + below.size) =
        beside.table parent depth (number + 1 + below.size) ++ after := by
      rw [← List.drop_drop, hrest, List.drop_left' (Forest.length_table ..)]
    refine ⟨?_, ihBelow hrest, ihBeside hbeside⟩
    have hget : tree.nodes.toList[number]? = (tree.nodes.toList.drop number)[0]? := by
      rw [List.getElem?_drop, Nat.add_zero]
    rw [h, List.getElem?_cons_zero] at hget
    rw [Tree.get?, ← Array.getElem?_toList, hget]

/-- The right one of two forests stands behind the left one. -/
theorem Tree.Holds.of_append {tree : Tree} {left right : Forest} {parent : Option NodeId}
    {depth number : Nat} (h : tree.Holds parent depth number (left ++ right)) :
    tree.Holds parent depth (number + left.size) right := by
  induction left generalizing number with
  | nil => exact h
  | cons top below beside _ ih =>
    rw [Forest.size_cons, show number + (1 + below.size + beside.size) =
      number + 1 + below.size + beside.size by omega]
    exact ih h.2.2

theorem Tree.Holds.of_append_left {tree : Tree} {left right : Forest} {parent : Option NodeId}
    {depth number : Nat} (h : tree.Holds parent depth number (left ++ right)) :
    tree.Holds parent depth number left := by
  induction left generalizing parent depth number with
  | nil => trivial
  | cons top below beside _ ih => exact ⟨h.1, h.2.1, ih h.2.2⟩

/-- A walk meets the nodes of a forest in the order of the table, and then goes on with what was
pending. -/
theorem Tree.walk_of_holds {tree : Tree} {forest : Forest} {parent : Option NodeId}
    {depth number : Nat} (h : tree.Holds parent depth number forest) (steps : Nat)
    (pending : List NodeId) :
    tree.walk (forest.size + steps) (forest.roots number ++ pending) =
      List.range' number forest.size ++ tree.walk steps pending := by
  induction forest generalizing parent depth number steps pending with
  | nil => simp
  | cons top below beside ihBelow ihBeside =>
    obtain ⟨htop, hbelow, hbeside⟩ := h
    have hchildren : tree.children number = below.roots (number + 1) := by
      rw [Tree.children, htop]
      rfl
    rw [Forest.roots_cons, Forest.size_cons, List.cons_append,
      show 1 + below.size + beside.size + steps = below.size + (beside.size + steps) + 1 by omega,
      walk_succ_cons, hchildren, ihBelow hbelow, ihBeside hbeside,
      show 1 + below.size + beside.size = 1 + (below.size + beside.size) by omega,
      ← List.range'_append_1, List.range'_one, ← List.range'_append_1, List.append_assoc,
      List.append_assoc, List.singleton_append]

/-- The text of the nodes of a forest that stands in a table. -/
theorem Tree.flatMap_data_of_holds {tree : Tree} {forest : Forest} {parent : Option NodeId}
    {depth number : Nat} (h : tree.Holds parent depth number forest) :
    (List.range' number forest.size).flatMap (fun id => (tree.data id).toList) = forest.text := by
  induction forest generalizing parent depth number with
  | nil => rfl
  | cons top below beside ihBelow ihBeside =>
    obtain ⟨htop, hbelow, hbeside⟩ := h
    have hdata : tree.data number = top.data := by
      rw [Tree.data, htop]
      rfl
    rw [Forest.size_cons, Nat.add_assoc,
      ← List.range'_append_1, List.range'_one, List.flatMap_append, ← List.range'_append_1,
      List.flatMap_append, ihBelow hbelow, ihBeside hbeside, List.flatMap_singleton, hdata,
      Forest.text_cons, List.append_assoc]

/-- The text of a subtree is the text of the tree that stands in the table. -/
theorem Tree.textAt_of_holds {tree : Tree} {top : Label} {below beside : Forest}
    {parent : Option NodeId} {depth number : Nat}
    (h : tree.Holds parent depth number (.cons top below beside))
    (hsize : (Forest.single top below).size ≤ tree.size) :
    (tree.textAt number).toList = top.data.toList ++ below.text := by
  have hsingle : tree.Holds parent depth number (.single top below) := ⟨h.1, h.2.1, trivial⟩
  obtain ⟨steps, hsteps⟩ := Nat.exists_eq_add_of_le hsize
  have hwalk := tree.walk_of_holds hsingle steps []
  rw [← hsteps, walk_nil, List.append_nil, List.append_nil] at hwalk
  rw [Tree.textAt, Tree.preorder, String.toList_join, List.flatMap_map]
  change (tree.walk tree.size ((Forest.single top below).roots number)).flatMap _ = _
  rw [hwalk, tree.flatMap_data_of_holds hsingle, Forest.text_single]

/-! ### Properties of the nodes by where their text begins -/

/-- A property of every tree of a forest: of the place where its text begins, counted from
`offset` on, of the text, and of the label of the top. -/
def Forest.Spread (P : Nat → List Char → Label → Prop) (offset : Nat) : Forest → Prop
  | .nil => True
  | .cons top below beside =>
    P offset (top.data.toList ++ below.text) top ∧
      below.Spread P (offset + top.data.toList.length) ∧
      beside.Spread P (offset + (top.data.toList ++ below.text).length)

namespace Forest

variable {P Q : Nat → List Char → Label → Prop} {offset : Nat}

@[simp] theorem spread_nil : nil.Spread P offset := trivial

/-- A property that depends on the offset is spread over two forests if it is over each of them, the
second one behind the text of the first. -/
theorem spread_append {left right : Forest} :
    (left ++ right).Spread P offset ↔
      left.Spread P offset ∧ right.Spread P (offset + left.text.length) := by
  induction left generalizing offset with
  | nil => simp
  | cons top below beside _ ih =>
    simp only [cons_append, Spread, ih, text_cons, List.length_append, Nat.add_assoc, and_assoc]

/-- Below a root the offset is behind what the root holds itself. -/
theorem spread_single {top : Label} {below : Forest} :
    (single top below).Spread P offset ↔
      P offset (top.data.toList ++ below.text) top ∧
        below.Spread P (offset + top.data.toList.length) := by
  simp [single, Spread]

theorem Spread.and {forest : Forest} (hp : forest.Spread P offset) (hq : forest.Spread Q offset) :
    forest.Spread (fun o text top => P o text top ∧ Q o text top) offset := by
  induction forest generalizing offset with
  | nil => trivial
  | cons top below beside ihBelow ihBeside =>
    exact ⟨⟨hp.1, hq.1⟩, ihBelow hp.2.1 hq.2.1, ihBeside hp.2.2 hq.2.2⟩

/-- The second of two parts begins where the first one ends. -/
theorem second_of_parts {whole first second : List Char}
    (h : first ++ second <+: whole.drop offset) :
    second <+: whole.drop (offset + first.length) := by
  obtain ⟨after, hafter⟩ := h
  refine ⟨after, ?_⟩
  rw [← List.drop_drop, ← hafter, List.append_assoc, List.drop_left]

/-- The text of every tree of a forest is a part of the text of the forest. -/
theorem spread_of_text {whole : List Char} {forest : Forest}
    (h : forest.text <+: whole.drop offset) :
    forest.Spread (fun o text _ => text <+: whole.drop o) offset := by
  induction forest generalizing offset with
  | nil => trivial
  | cons top below beside ihBelow ihBeside =>
    rw [text_cons] at h
    have hfirst := (List.prefix_append ..).trans h
    exact ⟨hfirst, ihBelow (second_of_parts hfirst), ihBeside (second_of_parts h)⟩

theorem Spread.mono (h : ∀ o text top, P o text top → Q o text top) {forest : Forest}
    (hp : forest.Spread P offset) : forest.Spread Q offset := by
  induction forest generalizing offset with
  | nil => trivial
  | cons top below beside ihBelow ihBeside =>
    exact ⟨h _ _ _ hp.1, ihBelow hp.2.1, ihBeside hp.2.2⟩

end Forest

/-- What is spread over a forest is true of every node of the table that the forest takes up, of the
text of its subtree, and of the length of the text of the nodes in front. -/
theorem Tree.Holds.exists_of_spread {P : Nat → List Char → Label → Prop} {tree : Tree}
    {forest : Forest} {parent : Option NodeId} {depth number offset id : Nat}
    (h : tree.Holds parent depth number forest) (hsize : number + forest.size ≤ tree.size)
    (hspread : forest.Spread P offset) (hle : number ≤ id) (hlt : id < number + forest.size) :
    ∃ top, tree.span id = top.span ∧
      P (offset + ((List.range' number (id - number)).flatMap
          fun id => (tree.data id).toList).length)
        (tree.textAt id).toList top := by
  induction forest generalizing parent depth number offset with
  | nil => simp only [Forest.size_nil] at hlt; omega
  | cons top below beside ihBelow ihBeside =>
    obtain ⟨hP, hbelowP, hbesideP⟩ := hspread
    have htext := tree.textAt_of_holds h (by
      simp only [Forest.size_cons, Forest.size_single] at hsize ⊢; omega)
    have hsingle : tree.Holds parent depth number (.single top below) := ⟨h.1, h.2.1, trivial⟩
    obtain ⟨htop, hbelow, hbeside⟩ := h
    have hdata : tree.data number = top.data := by
      rw [Tree.data, htop]
      rfl
    rw [Forest.size_cons] at hsize hlt
    -- the node is the top of the first tree, or below it, or beside it
    rcases Nat.lt_trichotomy id number with hid | rfl | hid
    · omega
    · refine ⟨top, ?_, ?_⟩
      · rw [Tree.span, htop]
        rfl
      · rw [htext, Nat.sub_self]
        exact hP
    · by_cases hin : id < number + 1 + below.size
      · obtain ⟨found, hspan, hfound⟩ :=
          ihBelow hbelow (by omega) hbelowP (by omega) (by omega)
        refine ⟨found, hspan, ?_⟩
        rw [show id - number = 1 + (id - (number + 1)) by omega, ← List.range'_append_1,
          List.range'_one, List.flatMap_append, List.flatMap_singleton, hdata, List.length_append,
          ← Nat.add_assoc]
        exact hfound
      · obtain ⟨found, hspan, hfound⟩ :=
          ihBeside hbeside (by omega) hbesideP (by omega) (by omega)
        refine ⟨found, hspan, ?_⟩
        rw [show id - number = (1 + below.size) + (id - (number + 1 + below.size)) by omega,
          ← List.range'_append_1, List.flatMap_append, List.length_append, ← Nat.add_assoc,
          ← Nat.add_assoc]
        have hfront := tree.flatMap_data_of_holds hsingle
        rw [Forest.text_single, Forest.size_single] at hfront
        rw [hfront]
        exact hfound

end LosslessEbnf
