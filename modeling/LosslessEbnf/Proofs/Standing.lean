import LosslessEbnf.Machine.Step
import LosslessEbnf.Proofs.Waiting

/-!
# How the machine stands

What is true of the tree and of the open productions whenever the machine is about to make a step.

## Main Definitions

* `Marks.Plain` — candidates for a mark among which there is never a choice
* `Spelt` — what a name and the white space behind it say about the leaf that holds both
* `Standing` — the machine at any time

## Main Statements

* `Standing.weaken` — more text does not change how the machine stands
* `Standing.exists_held` — at most two of the characters that were taken are not in the tree

## Design Notes

Only the production on top can be in the middle of something. It may hold characters that are not in
the tree yet, and then it knows where they stand, or it fills a leaf.
-/

namespace LosslessEbnf

/-- Candidates for a mark: short ones, none of which begins with another one. -/
def Marks.Plain (candidates : List String) : Prop :=
  ∀ a ∈ candidates, a.toList.length ≤ 2 ∧ ∀ b ∈ candidates, a.toList <+: b.toList → a = b

instance (candidates : List String) : Decidable (Marks.Plain candidates) :=
  inferInstanceAs (Decidable (∀ a ∈ candidates, _ ∧ ∀ b ∈ candidates, _ → _))

/-- The characters that a comment holds back. -/
def CommentStage.held : CommentStage → List Char
  | body => []
  | mark c _ => [c]
  | opened _ => ['(', '*']

/-- The characters that a comment holds back have `offset` characters in front. -/
def CommentStage.Placed (whole : List Char) (offset : Nat) : CommentStage → Prop
  | body => True
  | mark c here => (Span.point here).Denotes whole offset [c]
  | opened opener => opener.Denotes whole offset ['(', '*']

/-- The leaf `run` is the last child of a node. -/
def OpenNode.Grows (node : OpenNode) (outer : Spine) (run : NodeId) : Prop :=
  ∃ front leaf, node = front.add (.bare leaf) ∧ run = Spine.size (front :: outer) ∧
    leaf.data.toList ≠ []

/-- A leaf with `offset` characters in front holds a name and the white space behind it. -/
structure Spelt (whole : List Char) (offset : Nat) (leaf : Label) (trailing : Option Span)
    (name blank : List Char) : Prop where
  /-- Both are in the leaf. -/
  data : leaf.data.toList = name ++ blank
  /-- The name does not end with white space. -/
  solid : ∃ front c, name = front ++ [c] ∧ isSpace c = false
  /-- Behind the name there is nothing but white space. -/
  spaces : ∀ c ∈ blank, isSpace c = true
  /-- The leaf has the span of the name. -/
  denotes : leaf.span.Denotes whole offset name
  /-- The white space has a span of its own. -/
  trailing_eq : match trailing with
    | none => blank = []
    | some span => blank ≠ [] ∧ span.Denotes whole (offset + name.length) blank

/-- How the machine stands after `done` was taken, if `done` and the next character, if there is
one, make up `whole`. -/
inductive Standing (sure : Prop) (whole done : List Char) (tree : Tree) : List Frame → Prop
  /-- Nothing was read. -/
  | fresh (tree_eq : tree = .empty) (done_eq : done = []) :
      Standing sure whole done tree [.grammar false]
  /-- All that was taken is in the tree, and the production on top goes on. -/
  | idle {frame : Frame} {below : List Frame} {node : OpenNode} {outer : Spine}
      (rest : Resting sure whole tree (frame :: below) (node :: outer))
      (done_eq : Spine.text (node :: outer) = done)
      (ready : frame.Ready sure whole done.length node) :
      Standing sure whole done tree (frame :: below)
  /-- A comment may hold back a mark, and its last text can grow. -/
  | comment {id : NodeId} {text : Option NodeId} {stage : CommentStage} {below : List Frame}
      {node : OpenNode} {outer : Spine}
      (rest : Resting sure whole tree (.comment id none .body :: below) (node :: outer))
      (grows : ∀ run, text = some run → node.Grows outer run)
      (done_eq : Spine.text (node :: outer) ++ stage.held = done)
      (placed : stage.Placed whole (Spine.text (node :: outer)).length) :
      Standing sure whole done tree (.comment id text stage :: below)
  /-- The definitions of a product ended with the closer of a bracket. -/
  | product {id lhs list : NodeId} {closer : Span} {below : List Frame} {node : OpenNode}
      {outer : Spine}
      (rest : Resting sure whole tree (.product id lhs (.body list none) :: below) (node :: outer))
      (done_eq : Spine.text (node :: outer) ++ ['/', ')'] = done)
      (denotes : closer.Denotes whole (Spine.text (node :: outer)).length ['/', ')']) :
      Standing sure whole done tree (.product id lhs (.body list (some closer)) :: below)
  /-- The definitions of a bracket ended with a closer. -/
  | bracket {b : Bracket} {id : NodeId} {closer : Span} {below : List Frame} {node : OpenNode}
      {outer : Spine}
      (rest : Resting sure whole tree (.bracket b id (.body none) :: below) (node :: outer))
      (done_eq : Spine.text (node :: outer) ++ ['/', ')'] = done)
      (denotes : closer.Denotes whole (Spine.text (node :: outer)).length ['/', ')']) :
      Standing sure whole done tree (.bracket b id (.body (some closer)) :: below)
  /-- A `/` behind a definition is held back. -/
  | slash {id : NodeId} {slash : Position} {below : List Frame} {node : OpenNode} {outer : Spine}
      (rest : Resting sure whole tree (.definitions id .start :: below) (node :: outer))
      (done_eq : Spine.text (node :: outer) ++ ['/'] = done)
      (denotes : (Span.point slash).Denotes whole (Spine.text (node :: outer)).length ['/'])
      (column : slash.column ≠ 0) :
      Standing sure whole done tree (.definitions id (.afterSlash slash) :: below)
  /-- A `(` is held back. -/
  | paren {parent : NodeId} {start : Position} {host : Frame} {below : List Frame}
      {node : OpenNode} {outer : Spine}
      (rest : Resting sure whole tree (host :: below) (node :: outer))
      (admitted : .primary ∈ host.components) (parent_eq : parent = outer.size)
      (done_eq : Spine.text (node :: outer) ++ ['('] = done)
      (denotes : (Span.point start).Denotes whole (Spine.text (node :: outer)).length ['(']) :
      Standing sure whole done tree (.paren parent start :: host :: below)
  /-- An opener is held back. -/
  | opener {b : Bracket} {parent : NodeId} {opener : Span} {host : Frame} {below : List Frame}
      {node : OpenNode} {outer : Spine}
      (rest : Resting sure whole tree (host :: below) (node :: outer))
      (admitted : .primary ∈ host.components) (parent_eq : parent = outer.size)
      (done_eq : Spine.text (node :: outer) ++ b.roundOpener.toList = done)
      (denotes : opener.Denotes whole (Spine.text (node :: outer)).length b.roundOpener.toList) :
      Standing sure whole done tree (.opener b parent opener :: host :: below)
  /-- The text between two marks is read. -/
  | quoted {form : Quoted} {id run : NodeId} {below : List Frame} {leaf : Label} {node : OpenNode}
      {outer : Spine}
      (fill : Filling sure whole tree (.quoted form id none :: below) leaf (node :: outer))
      (run_eq : run = Spine.size (node :: outer))
      (done_eq : Spine.text (node :: outer) ++ leaf.data.toList = done)
      (first : sure → (places whole)[(Spine.text (node :: outer)).length]? = some leaf.span.first) :
      Standing sure whole done tree (.quoted form id (some run) :: below)
  /-- A run is read. -/
  | run {run : Run} {id : NodeId} {host : Frame} {below : List Frame} {leaf : Label}
      {node : OpenNode} {outer : Spine}
      (fill : Filling sure whole tree (host :: below) leaf (node :: outer))
      (admitted : (Frame.run run id).component ∈ host.components)
      (id_eq : id = Spine.size (node :: outer))
      (done_eq : Spine.text (node :: outer) ++ leaf.data.toList = done)
      (denotes : leaf.span.Denotes whole (Spine.text (node :: outer)).length leaf.data.toList) :
      Standing sure whole done tree (.run run id :: host :: below)
  /-- A name is read. -/
  | identifier {id parent : NodeId} {trailing : Option Span} {host : Frame} {below : List Frame}
      {leaf : Label} {node : OpenNode} {outer : Spine} {name blank : List Char}
      (fill : Filling sure whole tree (host :: below) leaf (node :: outer))
      (admitted : .name ∈ host.components) (id_eq : id = Spine.size (node :: outer))
      (parent_eq : parent = outer.size)
      (done_eq : Spine.text (node :: outer) ++ leaf.data.toList = done)
      (spelt : Spelt whole (Spine.text (node :: outer)).length leaf trailing name blank) :
      Standing sure whole done tree (.identifier id parent trailing :: host :: below)
  /-- A mark is read, and one of its candidates goes on. -/
  | literal {id : NodeId} {candidates : List String} {read : List Char} {host : Frame}
      {below : List Frame} {leaf : Label} {node : OpenNode} {outer : Spine}
      (fill : Filling sure whole tree (host :: below) leaf (node :: outer))
      (admitted : .mark ∈ host.components) (id_eq : id = Spine.size (node :: outer))
      (data : leaf.data = "") (plain : Marks.Plain candidates)
      (goes : candidates.any (goesOn read) = true)
      (done_eq : Spine.text (node :: outer) ++ read = done)
      (first : (places whole)[(Spine.text (node :: outer)).length]? = some leaf.span.first) :
      Standing sure whole done tree (.literal id candidates read none :: host :: below)
  /-- A mark was read in full. -/
  | matched {id : NodeId} {text : List Char} {last : Position} {host : Frame} {below : List Frame}
      {leaf : Label} {node : OpenNode} {outer : Spine}
      (fill : Filling sure whole tree (host :: below) leaf (node :: outer))
      (admitted : .mark ∈ host.components) (id_eq : id = Spine.size (node :: outer))
      (data : leaf.data = "") (length : text.length ≤ 2)
      (done_eq : Spine.text (node :: outer) ++ text = done)
      (denotes : Span.Denotes whole (Spine.text (node :: outer)).length text
        ⟨leaf.span.first, last⟩) :
      Standing sure whole done tree (.matched id text last :: host :: below)

/-! ### More text -/

theorem ColumnAt.weaken {sure sure' : Prop} {whole : List Char} {offset : Nat}
    (h : ColumnAt sure whole offset) (hsure : sure' → sure) (more : List Char) :
    ColumnAt sure' (whole ++ more) offset := by
  intro hs
  obtain ⟨here, hhere, hcolumn⟩ := h (hsure hs)
  exact ⟨here, places_append_of_eq_some hhere more, hcolumn⟩

theorem Frame.Ready.weaken {sure sure' : Prop} {whole : List Char} {offset : Nat} {node : OpenNode}
    {frame : Frame} (h : frame.Ready sure whole offset node) (hsure : sure' → sure)
    (more : List Char) : frame.Ready sure' (whole ++ more) offset node := by
  revert h
  unfold Ready
  split
  case h_4 => exact fun h => h.weaken hsure more
  all_goals exact id

theorem CommentStage.Placed.append {whole : List Char} {offset : Nat} {stage : CommentStage}
    (h : stage.Placed whole offset) (more : List Char) : stage.Placed (whole ++ more) offset := by
  cases stage with
  | body => trivial
  | mark c here => exact Span.Denotes.append h more
  | opened opener => exact Span.Denotes.append h more

theorem Spelt.append {whole : List Char} {offset : Nat} {leaf : Label} {trailing : Option Span}
    {name blank : List Char} (h : Spelt whole offset leaf trailing name blank) (more : List Char) :
    Spelt (whole ++ more) offset leaf trailing name blank where
  data := h.data
  solid := h.solid
  spaces := h.spaces
  denotes := h.denotes.append more
  trailing_eq := by
    have := h.trailing_eq
    cases trailing with
    | none => exact this
    | some span => exact ⟨this.1, this.2.append more⟩

theorem Resting.weaken {sure sure' : Prop} {whole : List Char} {tree : Tree} {frames : List Frame}
    {spine : Spine} (h : Resting sure whole tree frames spine) (hsure : sure' → sure)
    (more : List Char) : Resting sure' (whole ++ more) tree frames spine :=
  ⟨h.shows, h.waiting.weaken hsure more⟩

theorem Filling.weaken {sure sure' : Prop} {whole : List Char} {tree : Tree} {frames : List Frame}
    {leaf : Label} {spine : Spine} (h : Filling sure whole tree frames leaf spine)
    (hsure : sure' → sure) (more : List Char) :
    Filling sure' (whole ++ more) tree frames leaf spine :=
  ⟨h.shows, h.waiting.weaken hsure more⟩

/-- More text does not change how the machine stands, and less may be claimed of the spans. This is
how the next character comes into view. -/
theorem Standing.weaken {sure sure' : Prop} {whole done : List Char} {tree : Tree}
    {frames : List Frame} (h : Standing sure whole done tree frames) (hsure : sure' → sure)
    (more : List Char) : Standing sure' (whole ++ more) done tree frames := by
  cases h with
  | fresh tree_eq done_eq => exact .fresh tree_eq done_eq
  | idle rest done_eq ready =>
    exact .idle (rest.weaken hsure more) done_eq (ready.weaken hsure more)
  | comment rest grows done_eq placed =>
    exact .comment (rest.weaken hsure more) grows done_eq (placed.append more)
  | product rest done_eq denotes =>
    exact .product (rest.weaken hsure more) done_eq (denotes.append more)
  | bracket rest done_eq denotes =>
    exact .bracket (rest.weaken hsure more) done_eq (denotes.append more)
  | slash rest done_eq denotes column =>
    exact .slash (rest.weaken hsure more) done_eq (denotes.append more) column
  | paren rest admitted parent_eq done_eq denotes =>
    exact .paren (rest.weaken hsure more) admitted parent_eq done_eq (denotes.append more)
  | opener rest admitted parent_eq done_eq denotes =>
    exact .opener (rest.weaken hsure more) admitted parent_eq done_eq (denotes.append more)
  | quoted fill run_eq done_eq first =>
    exact .quoted (fill.weaken hsure more) run_eq done_eq
      fun hs => places_append_of_eq_some (first (hsure hs)) more
  | run fill admitted id_eq done_eq denotes =>
    exact .run (fill.weaken hsure more) admitted id_eq done_eq (denotes.append more)
  | identifier fill admitted id_eq parent_eq done_eq spelt =>
    exact .identifier (fill.weaken hsure more) admitted id_eq parent_eq done_eq (spelt.append more)
  | literal fill admitted id_eq data plain goes done_eq first =>
    exact .literal (fill.weaken hsure more) admitted id_eq data plain goes done_eq
      (places_append_of_eq_some first more)
  | matched fill admitted id_eq data length done_eq denotes =>
    exact .matched (fill.weaken hsure more) admitted id_eq data length done_eq (denotes.append more)

theorem Standing.mono {sure sure' : Prop} {whole done : List Char} {tree : Tree}
    {frames : List Frame} (h : Standing sure whole done tree frames) (hsure : sure' → sure) :
    Standing sure' whole done tree frames := by
  have := h.weaken hsure []
  rwa [List.append_nil] at this

/-! ### What is held back -/

theorem CommentStage.length_held_le (stage : CommentStage) : stage.held.length ≤ 2 := by
  cases stage <;> simp [held]

theorem Bracket.length_roundOpener_le (b : Bracket) : b.roundOpener.toList.length ≤ 2 := by
  cases b <;> decide

/-- A mark of which some candidate goes on is not read in full. -/
theorem Marks.Plain.length_lt_of_goesOn {candidates : List String} {read : List Char}
    (h : Plain candidates) (hgoes : candidates.any (goesOn read) = true) : read.length < 2 := by
  obtain ⟨candidate, hmem, hgoes⟩ := List.any_eq_true.mp hgoes
  rw [goesOn, Bool.and_eq_true, decide_eq_true_eq] at hgoes
  exact Nat.lt_of_lt_of_le hgoes.1 (h candidate hmem).1

namespace Resting

variable {sure : Prop} {whole : List Char} {tree : Tree} {frames : List Frame} {node : OpenNode}
  {outer : Spine}

theorem text_eq (h : Resting sure whole tree frames (node :: outer)) :
    tree.text.toList = Spine.text (node :: outer) := h.shows.text

end Resting

theorem Filling.text_eq {sure : Prop} {whole : List Char} {tree : Tree} {frames : List Frame}
    {leaf : Label} {spine : Spine} (h : Filling sure whole tree frames leaf spine) :
    tree.text.toList = spine.text ++ leaf.data.toList := by
  rw [h.shows.text, Spine.text_cons, OpenNode.text_bare]

/-- At most two of the characters that were taken are not in the tree: those of a mark that is being
read, or of one that waits for its node. -/
theorem Standing.exists_held {sure : Prop} {whole done : List Char} {tree : Tree}
    {frames : List Frame} (h : Standing sure whole done tree frames) :
    ∃ held, tree.text.toList ++ held = done ∧ held.length ≤ 2 := by
  cases h with
  | fresh tree_eq done_eq =>
    subst tree_eq done_eq
    exact ⟨[], by decide, by decide⟩
  | idle rest done_eq =>
    exact ⟨[], by rw [rest.text_eq, List.append_nil, done_eq], by decide⟩
  | @comment _ _ stage _ _ _ rest _ done_eq =>
    exact ⟨stage.held, by rw [rest.text_eq, done_eq], stage.length_held_le⟩
  | product rest done_eq | bracket rest done_eq | slash rest done_eq =>
    exact ⟨_, by rw [rest.text_eq, done_eq], by decide⟩
  | paren rest _ _ done_eq => exact ⟨_, by rw [rest.text_eq, done_eq], by decide⟩
  | @opener b _ _ _ _ _ _ rest _ _ done_eq =>
    exact ⟨_, by rw [rest.text_eq, done_eq], b.length_roundOpener_le⟩
  | quoted fill _ done_eq => exact ⟨[], by rw [fill.text_eq, List.append_nil, done_eq], by decide⟩
  | run fill _ _ done_eq => exact ⟨[], by rw [fill.text_eq, List.append_nil, done_eq], by decide⟩
  | identifier fill _ _ _ done_eq =>
    exact ⟨[], by rw [fill.text_eq, List.append_nil, done_eq], by decide⟩
  | literal fill _ _ data plain goes done_eq =>
    refine ⟨_, ?_, Nat.le_of_lt (plain.length_lt_of_goesOn goes)⟩
    rw [fill.text_eq, data, String.toList_empty, List.append_nil, done_eq]
  | matched fill _ _ data length done_eq =>
    refine ⟨_, ?_, length⟩
    rw [fill.text_eq, data, String.toList_empty, List.append_nil, done_eq]

end LosslessEbnf
