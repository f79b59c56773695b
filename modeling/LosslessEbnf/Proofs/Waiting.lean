import LosslessEbnf.Machine.Frame
import LosslessEbnf.Proofs.Places

/-!
# Waiting productions

While the production on top of the stack is read, the others wait for it. Each of them has one node
on the spine of the tree, below the node of the production around it.

## Main Definitions

* `Component`, `Frame.components` — which productions may be open right above which
* `Frame.waiting?` — the node of a production that waits for the component above it
* `Waiting` — productions that wait, and the spine of their nodes
* `Resting` — a tree in which nothing but the nodes of waiting productions is open
* `Filling` — a tree in which a leaf is open, too

## Main Statements

* `Waiting.add`, `Waiting.advance` — a waiting production gets a complete child, or moves on
* `Resting.push` — a production begins as a child of the one on top

## Design Notes

The spans of the nodes are only claimed if `sure` holds. Up to the end of the input they are right,
but at the end of the input there is no next character, and what is opened there has no place. All
else is claimed in any case.
-/

namespace LosslessEbnf

/-- The kinds of open productions, as the production around them sees them. -/
inductive Component
  /-- The whole text. -/
  | text
  /-- A comment. -/
  | comment
  /-- A product. -/
  | product
  /-- A list of definitions. -/
  | definitions
  /-- A definition. -/
  | definition
  /-- A term. -/
  | term
  /-- An exception. -/
  | exception
  /-- A repetition. -/
  | repetition
  /-- A primary other than a name. -/
  | primary
  /-- A name. -/
  | name
  /-- A run of white space. -/
  | space
  /-- A run of digits. -/
  | number
  /-- A mark. -/
  | mark
  /-- A production whose last component is read. -/
  | closing
  deriving DecidableEq

namespace Frame

/-- What kind of component the production is. -/
def component : Frame → Component
  | grammar _ => .text
  | comment .. => .comment
  | product .. => .product
  | definitions .. => .definitions
  | definition .. => .definition
  | term .. => .term
  | exception .. => .exception
  | repetition _ => .repetition
  | paren .. | opener .. | bracket .. | quoted .. => .primary
  | identifier .. => .name
  | run .space _ => .space
  | run .number _ => .number
  | literal .. | matched .. => .mark
  | closing _ => .closing

/-- The components that may be open right above the production. -/
def components : Frame → List Component
  | grammar _ => [.comment, .product, .space, .closing]
  | comment .. => [.comment, .mark]
  | product _ _ .name => [.name]
  | product _ _ .equals => [.mark, .space]
  | product _ _ (.body ..) => [.definitions]
  | definitions _ .start => [.mark, .space]
  | definitions _ .afterDefinition => [.definition]
  | definition _ _ none => [.mark, .space]
  | definition _ _ (some _) => [.term, .space]
  | term _ _ true => [.mark]
  | term _ _ false => [.space, .repetition, .exception, .primary, .name, .closing]
  | exception .. => [.space, .primary, .name, .closing]
  | repetition _ => [.number, .space]
  | bracket _ _ (.opened _) => [.mark, .space]
  | bracket _ _ (.body _) => [.definitions]
  | quoted .. => [.mark]
  | closing _ => [.mark]
  | _ => []

/-- The node of a production that may wait for the component above it: everything of the production
that was read is in the tree, and its node can have further children. No text stands between two
line feeds. -/
def waiting? : Frame → Option NodeId
  | grammar true => some Tree.root
  | comment node none .body => some node
  | product node _ .name => some node
  | product node _ .equals => some node
  | product node _ (.body _ none) => some node
  | definitions node .start => some node
  | definitions node .afterDefinition => some node
  | definition node _ _ => some node
  | term node _ _ => some node
  | exception node _ _ => some node
  | repetition node => some node
  | bracket _ node (.opened _) => some node
  | bracket _ node (.body none) => some node
  | quoted form node none => if form.mark = '\n' then none else some node
  | closing node => some node
  | _ => none

theorem closing_mem_components {frame host : Frame}
    (h : frame.component ∈ [.primary, .product, .repetition])
    (hmem : frame.component ∈ host.components) : .closing ∈ host.components := by
  revert hmem
  generalize frame.component = component at h
  unfold components
  split <;> simp_all <;> grind

/-- The end of a definition list needs to know that the next character is no line feed. -/
theorem components_eq_of_definition {host : Frame} (h : .definition ∈ host.components) :
    host.components = [.definition] := by
  unfold components at h ⊢
  split <;> simp_all

/-- A list of definitions stands in a product or in a bracket. -/
theorem eq_body_of_definitions {host : Frame} (h : .definitions ∈ host.components) :
    (∃ id lhs list closer, host = .product id lhs (.body list closer)) ∨
      ∃ b id closer, host = .bracket b id (.body closer) := by
  unfold components at h
  split at h <;> simp_all

/-- Nothing has the whole text as a component, so it is always at the bottom of the stack. -/
theorem text_not_mem_components {host : Frame} : .text ∉ host.components := by
  unfold components
  split <;> decide

end Frame

/-! ### Nodes -/

namespace OpenNode

/-- An open node with `offset` characters in front that holds no text itself. -/
structure Begun (sure : Prop) (whole : List Char) (offset : Nat) (node : OpenNode) : Prop where
  /-- All its text is below it. -/
  data : node.label.data = ""
  /-- It starts with the character behind those in front. -/
  first : sure → (places whole)[offset]? = some node.label.span.first
  /-- The trees below it have their spans. -/
  placed : sure → node.below.Placed whole offset

/-- A node that needs no further change. -/
def Complete (sure : Prop) (whole : List Char) (offset : Nat) (node : OpenNode) : Prop :=
  sure → node.label.span.Denotes whole offset node.text ∧
    node.below.Placed whole (offset + node.label.data.toList.length)

variable {sure : Prop} {whole : List Char} {offset : Nat} {node child : OpenNode}

theorem add_below_ne_nil : (node.add child).below ≠ .nil := by
  intro hnil
  have hsize := congrArg Forest.size hnil
  rw [add, Forest.size_append, Forest.size_single, Forest.size_nil] at hsize
  omega

namespace Begun

theorem text_eq (h : node.Begun sure whole offset) : node.text = node.below.text := by
  rw [text, h.data]
  rfl

/-- To be complete, a node only needs its span. -/
theorem complete {span : Span} {kind : Kind} (h : node.Begun sure whole offset)
    (hspan : sure → span.Denotes whole offset node.text) :
    Complete sure whole offset ⟨⟨kind, span, node.label.data⟩, node.below⟩ := by
  intro hsure
  refine ⟨hspan hsure, ?_⟩
  rw [h.data]
  exact h.placed hsure

/-- A node that has begun may get a complete child behind the ones that it has. -/
theorem add (h : node.Begun sure whole offset)
    (hchild : child.Complete sure whole (offset + node.text.length)) :
    (node.add child).Begun sure whole offset where
  data := h.data
  first := h.first
  placed hsure := by
    obtain ⟨hspan, hbelow⟩ := hchild hsure
    rw [h.text_eq] at hspan hbelow
    exact Forest.placed_append.mpr ⟨h.placed hsure, Forest.placed_single.mpr ⟨hspan, hbelow⟩⟩

/-- The last child can be taken away again, and what is left is a node that has begun, in front of a
complete one. -/
theorem of_add (h : (node.add child).Begun sure whole offset) :
    node.Begun sure whole offset ∧ child.Complete sure whole (offset + node.text.length) := by
  have htext : node.text = node.below.text := by
    rw [text, show node.label.data = "" from h.data]
    rfl
  refine ⟨⟨h.data, h.first, fun hsure => ?_⟩, fun hsure => ?_⟩
  · exact (Forest.placed_append.mp (h.placed hsure)).1
  · have hlast := (Forest.placed_append.mp (h.placed hsure)).2
    rw [htext]
    exact Forest.placed_single.mp hlast

/-- A node that ends where its last child ends is complete. -/
theorem denotes_last {front below : Forest} {top : Label} (h : node.Begun sure whole offset)
    (hbelow : node.below = front ++ .single top below) (hsure : sure) :
    Span.Denotes whole offset node.text ⟨node.label.span.first, top.span.last⟩ := by
  have hplaced := h.placed hsure
  rw [h.text_eq]
  rw [hbelow] at hplaced ⊢
  exact hplaced.denotes_last (h.first hsure)

/-- What is read later does not move the parts of a node. -/
theorem weaken {sure' : Prop} (h : node.Begun sure whole offset) (hsure : sure' → sure)
    (more : List Char) : node.Begun sure' (whole ++ more) offset where
  data := h.data
  first hs := places_append_of_eq_some (h.first (hsure hs)) more
  placed hs := (h.placed (hsure hs)).append more

end Begun

theorem begun_bare {kind : Kind} {span : Span}
    (h : sure → (places whole)[offset]? = some span.first) :
    (bare ⟨kind, span, ""⟩).Begun sure whole offset where
  data := rfl
  first := h
  placed _ := Forest.placed_nil

theorem complete_bare {label : Label}
    (h : sure → label.span.Denotes whole offset label.data.toList) :
    (bare label).Complete sure whole offset := by
  intro hsure
  rw [text_bare]
  exact ⟨h hsure, Forest.placed_nil⟩

end OpenNode

/-! ### Waiting productions -/

/-- Productions that wait, the innermost first, and the spine of their nodes. -/
inductive Waiting (sure : Prop) (whole : List Char) : List Frame → Spine → Prop
  /-- The whole text is outermost. -/
  | grammar {node : OpenNode} (begun : node.Begun sure whole 0) :
      Waiting sure whole [.grammar true] [node]
  /-- A production waits above one that admits it. -/
  | cons {frame host : Frame} {below : List Frame} {node : OpenNode} {outer : Spine}
      (rest : Waiting sure whole (host :: below) outer)
      (admitted : frame.component ∈ host.components)
      (id_eq : frame.waiting? = some outer.size)
      (begun : node.Begun sure whole outer.text.length) :
      Waiting sure whole (frame :: host :: below) (node :: outer)

/-- There is a next character, and it is no line feed. -/
def ColumnAt (sure : Prop) (whole : List Char) (offset : Nat) : Prop :=
  sure → ∃ here, (places whole)[offset]? = some here ∧ here.column ≠ 0

/-- What has to be the case when a production is on top and nothing is held back. It takes its end
from a child, so there is one by then; or from the next character, so that is no line feed. -/
def Frame.Ready (sure : Prop) (whole : List Char) (offset : Nat) (node : OpenNode) : Frame → Prop
  | closing _ => node.below ≠ .nil
  | term _ parts false => parts.primary.isSome → node.below ≠ .nil
  | exception _ _ primary => primary.isSome → node.below ≠ .nil
  | definitions _ .afterDefinition => ColumnAt sure whole offset
  | _ => True

/-- A production that has just got a child is ready, unless it needs to know the next character. -/
theorem Frame.ready_add {sure : Prop} {whole : List Char} {offset : Nat} {node child : OpenNode}
    {frame : Frame} (h : .definition ∈ frame.components → ColumnAt sure whole offset) :
    frame.Ready sure whole offset (node.add child) := by
  unfold Ready
  split
  · exact OpenNode.add_below_ne_nil
  · exact fun _ => OpenNode.add_below_ne_nil
  · exact fun _ => OpenNode.add_below_ne_nil
  · exact h (List.mem_singleton.mpr rfl)
  · trivial

namespace Waiting

variable {sure : Prop} {whole : List Char} {frame host : Frame} {below : List Frame}
  {node child : OpenNode} {outer : Spine}

theorem id_eq_size (h : Waiting sure whole (frame :: below) (node :: outer)) :
    frame.waiting? = some outer.size := by
  cases h with
  | grammar => rfl
  | cons _ _ id_eq => exact id_eq

theorem isSome_waiting {spine : Spine} (h : Waiting sure whole (frame :: below) spine) :
    frame.waiting?.isSome := by
  cases h with
  | grammar => rfl
  | cons _ _ id_eq => rw [id_eq]; rfl

theorem begun_top (h : Waiting sure whole (frame :: below) (node :: outer)) :
    node.Begun sure whole outer.text.length := by
  cases h with
  | grammar begun => exact begun
  | cons _ _ _ begun => exact begun

theorem weaken {sure' : Prop} {frames : List Frame} {spine : Spine}
    (h : Waiting sure whole frames spine) (hsure : sure' → sure) (more : List Char) :
    Waiting sure' (whole ++ more) frames spine := by
  induction h with
  | grammar begun => exact .grammar (begun.weaken hsure more)
  | cons _ admitted id_eq begun ih => exact .cons ih admitted id_eq (begun.weaken hsure more)

/-- A waiting production gets a complete child, and with that it is as it was, behind a longer
text. -/
theorem add (h : Waiting sure whole (frame :: below) (node :: outer))
    (hchild : child.Complete sure whole (Spine.text (node :: outer)).length) :
    Waiting sure whole (frame :: below) (node.add child :: outer) := by
  rw [Spine.text_cons, List.length_append] at hchild
  cases h with
  | grammar begun => exact .grammar (begun.add hchild)
  | cons rest admitted id_eq begun => exact .cons rest admitted id_eq (begun.add hchild)

/-- The last child of a waiting production can be taken away again. -/
theorem of_add (h : Waiting sure whole (frame :: below) (node.add child :: outer)) :
    Waiting sure whole (frame :: below) (node :: outer) ∧
      child.Complete sure whole (Spine.text (node :: outer)).length := by
  rw [Spine.text_cons, List.length_append]
  cases h with
  | grammar begun =>
    obtain ⟨hnode, hchild⟩ := begun.of_add
    rw [Spine.text_nil, List.length_nil]
    exact ⟨.grammar hnode, hchild⟩
  | cons rest admitted id_eq begun =>
    obtain ⟨hnode, hchild⟩ := begun.of_add
    exact ⟨.cons rest admitted id_eq hnode, hchild⟩

/-- The node of the production on top may change in kind and end. -/
theorem relabel {kind : Kind} {last : Position}
    (h : Waiting sure whole (frame :: below) (node :: outer)) :
    Waiting sure whole (frame :: below)
      (⟨⟨kind, ⟨node.label.span.first, last⟩, node.label.data⟩, node.below⟩ :: outer) := by
  cases h with
  | grammar begun => exact .grammar ⟨begun.data, begun.first, begun.placed⟩
  | cons rest admitted id_eq begun =>
    exact .cons rest admitted id_eq ⟨begun.data, begun.first, begun.placed⟩

/-- The production on top moves on to a later stage. -/
theorem advance {frame' : Frame} (h : Waiting sure whole (frame :: below) (node :: outer))
    (hne : frame.component ≠ .text) (hid : frame'.waiting? = frame.waiting?)
    (hadmitted : ∀ host : Frame, frame.component ∈ host.components →
      frame'.component ∈ host.components) :
    Waiting sure whole (frame' :: below) (node :: outer) := by
  cases h with
  | grammar => exact absurd rfl hne
  | cons rest admitted id_eq begun =>
    exact .cons rest (hadmitted _ admitted) (hid.trans id_eq) begun

theorem eq_nil_of_grammar (h : Waiting sure whole (.grammar true :: below) (node :: outer)) :
    below = [] ∧ outer = [] := by
  cases h with
  | grammar => exact ⟨rfl, rfl⟩
  | cons _ admitted => exact absurd admitted Frame.text_not_mem_components

/-- The production around the one on top, with its node. -/
theorem exists_host (h : Waiting sure whole (frame :: below) (node :: outer))
    (hne : frame.component ≠ .text) :
    ∃ host below' around outer', below = host :: below' ∧ outer = around :: outer' ∧
      frame.component ∈ host.components ∧
      Waiting sure whole (host :: below') (around :: outer') := by
  cases h with
  | grammar => exact absurd rfl hne
  | @cons _ host below' _ outer rest admitted =>
    cases rest with
    | grammar begun => exact ⟨_, _, _, _, rfl, rfl, admitted, .grammar begun⟩
    | cons rest admitted' id_eq begun =>
      exact ⟨_, _, _, _, rfl, rfl, admitted, .cons rest admitted' id_eq begun⟩

end Waiting

/-! ### Trees with open nodes -/

/-- A tree in which nothing but the nodes of waiting productions is open. -/
structure Resting (sure : Prop) (whole : List Char) (tree : Tree) (frames : List Frame)
    (spine : Spine) : Prop where
  /-- The spine is that of the tree. -/
  shows : tree.Shows spine
  /-- The productions wait. -/
  waiting : Waiting sure whole frames spine

/-- A tree in which a leaf is open below the nodes of waiting productions. -/
structure Filling (sure : Prop) (whole : List Char) (tree : Tree) (frames : List Frame)
    (leaf : Label) (spine : Spine) : Prop where
  /-- The leaf is innermost. -/
  shows : tree.Shows (.bare leaf :: spine)
  /-- The productions wait. -/
  waiting : Waiting sure whole frames spine

namespace Resting

variable {sure : Prop} {whole : List Char} {tree : Tree} {frame host : Frame} {below : List Frame}
  {node : OpenNode} {outer : Spine}

theorem withKind (h : Resting sure whole tree (frame :: below) (node :: outer)) (kind : Kind) :
    Resting sure whole (tree.withKind outer.size kind) (frame :: below)
      (⟨{ node.label with kind }, node.below⟩ :: outer) :=
  ⟨h.shows.withKind kind, h.waiting.relabel⟩

theorem withLast (h : Resting sure whole tree (frame :: below) (node :: outer)) (last : Position) :
    Resting sure whole (tree.withLast outer.size last) (frame :: below)
      (⟨{ node.label with span := ⟨node.label.span.first, last⟩ }, node.below⟩ :: outer) :=
  ⟨h.shows.withLast last, h.waiting.relabel⟩

/-- A production moves on to a later stage of the same kind. -/
theorem advance (frame' : Frame) (h : Resting sure whole tree (frame :: below) (node :: outer))
    (hne : frame.component ≠ .text) (hid : frame'.waiting? = frame.waiting?)
    (hcomponent : frame'.component = frame.component) :
    Resting sure whole tree (frame' :: below) (node :: outer) :=
  ⟨h.shows, h.waiting.advance hne hid fun _ hmem => hcomponent ▸ hmem⟩

/-- A production of which the last component is due only has to be closed. -/
theorem closing {id : NodeId} (h : Resting sure whole tree (frame :: below) (node :: outer))
    (hcomponent : frame.component ∈ [.primary, .product, .repetition])
    (hid : frame.waiting? = some id) :
    Resting sure whole tree (.closing id :: below) (node :: outer) := by
  refine ⟨h.shows, h.waiting.advance ?_ hid.symm fun host =>
    Frame.closing_mem_components hcomponent⟩
  intro hne
  rw [hne] at hcomponent
  revert hcomponent
  decide

/-- A production begins as a child of the one on top. -/
theorem push (frame : Frame) (kind : Kind) (span : Span)
    (h : Resting sure whole tree (host :: below) (node :: outer))
    (hadmitted : frame.component ∈ host.components) (hid : frame.waiting? = some tree.size)
    (hfirst : sure → (places whole)[(Spine.text (node :: outer)).length]? = some span.first) :
    Resting sure whole (tree.pushChild outer.size kind span) (frame :: host :: below)
      (.bare ⟨kind, span, ""⟩ :: node :: outer) :=
  ⟨h.shows.push .., .cons h.waiting hadmitted (h.shows.size_eq ▸ hid) (OpenNode.begun_bare hfirst)⟩

end Resting

end LosslessEbnf
