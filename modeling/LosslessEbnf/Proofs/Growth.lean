import LosslessEbnf.Machine.Run
import LosslessEbnf.Proofs.Arena

/-!
# Growing trees

How far the nodes of the open productions have grown while a text is read, whatever the positions of
its characters are.

## Main Definitions

* `Yield` — the children that a component gives to the production around it
* `Frame.Shape`, `Frame.Fits` — the children that the node of an open production has
* `Stacked` — open productions that wait for a component, and the spine of their nodes
* `Grown` — the tree at any moment
* `Move.Grows` — what a step makes of the tree

## Main Statements

* `Stacked.finish` — a component that is complete is given to the production around it
* `OnTop.leave` — a production that is complete is given to the production around it
* `Stacked.push` — a production begins below the one on top

## Design Notes

A production that waits does not say what it has but what it will have: with whatever the component
above it gives, it fits again. So every step is looked at from the side of one production only.

White space is read where it may stand, one run at a time, so behind a run the next character is no
white space. A production that admits white space therefore has room for it in front of such a
character (`Frame.Fits`).
-/

namespace LosslessEbnf

/-! ### What a component gives -/

/-- The children that a component gives to the production around it. -/
inductive Yield
  /-- A mark with one of the spellings. -/
  | mark (spellings : List String)
  /-- White space. -/
  | space
  /-- A number. -/
  | number
  /-- A name, and the white space behind it. -/
  | name
  /-- A text without the given character, and that character as a mark behind it. -/
  | text (mark : Char)
  /-- A node of the given kind, but for its components. -/
  | node (bare : Kind)

/-- The component gives the children `more` in front of the next character. The first of them has
the number `first`. -/
def Yield.Gives (ahead : Option Char) (first : NodeId) (more : List Child) : Yield → Prop
  | .mark spellings => ∃ data, more = [⟨first, .literal, data⟩] ∧ data ∈ spellings
  | .space => ahead.any isSpace = false ∧ ∃ data, more = [⟨first, .space, data⟩]
  | .number => ∃ data, more = [⟨first, .number, data⟩]
  | .name => ahead.any isSpace = false ∧
    ∃ data gap, more = ⟨first, .primary .identifier, data⟩ :: gap ∧ Slot.gap gap
  | .text quote => ∃ data, more = [⟨first, .text, data⟩,
      ⟨first + 1, .literal, String.singleton quote⟩] ∧ ∀ c ∈ data.toList, c ≠ quote
  | .node bare => (bare = .term {} → ahead.any isSpace = false) ∧
    ∃ kind, more = [⟨first, kind, ""⟩] ∧ kind.bare = bare

/-- What a node of the kind is to the production around it. The root has nothing around it. -/
def Kind.yield? : Kind → Option Yield
  | root => none
  | kind => some (.node kind.bare)

/-! ### What an open production has -/

/-- An item may stand behind the row, which ends with a separator or is empty. -/
def AwaitsItem (item : Kind) (separators : List String) (row : List Child) : Prop :=
  row = [] ∨ ∃ front mark gap, row = front ++ mark :: gap ∧ Separated item separators front ∧
    mark.IsMark separators ∧ Slot.gap gap

/-- The text that can still grow is the last child. -/
def EndsWithText (text : Option NodeId) (row : List Child) : Prop :=
  match text with
  | none => ∀ last, row.getLast? = some last → last.kind ≠ .text
  | some run => ∃ last, row.getLast? = some last ∧ last.id = run ∧ last.kind = .text

/-- The mark at both ends is a quote or a question mark. -/
def Quoted.Proper (form : Quoted) : Prop :=
  ∀ quote, form = .terminal quote → isQuote quote = true

/-- A node that records the components `held` names no exception but the one among `parts`. -/
def TermParts.Lags (held parts : TermParts) : Prop :=
  ∀ id, held.exception = some id → parts.exception = some id

/-- A production that its last component ends, whatever the next character is. -/
structure Kind.Closed (row : List Child) (kind : Kind) : Prop where
  /-- Something is around it. -/
  not_root : kind ≠ .root
  /-- It is no term, which ends only in front of the next one. -/
  not_term : kind.bare ≠ .term {}
  /-- It has the children that its kind demands. -/
  builds : kind.Builds row
  /-- It may be without text of its own. -/
  spells : kind.Spells ""

/-- The number, the kind and the children of the node of an open production, while it is on top.
Productions that are not in the tree yet have none. -/
def Frame.Shape (id : NodeId) (kind : Kind) (row : List Child) : Frame → Prop
  | .grammar _ => kind = .root ∧ Matches rootRule row
  | .comment node text _ =>
    node = id ∧ kind = .comment ∧ Matches (commentRule.take 2) row ∧ EndsWithText text row
  | .product node lhs .name =>
    node = id ∧ (∃ held, kind = .product held none) ∧
      Matches ((productRule (some lhs) none).take 2) row
  | .product node lhs .equals =>
    node = id ∧ kind = .product (some lhs) none ∧
      Matches ((productRule (some lhs) none).take 4) row
  | .product node lhs (.body list _) =>
    node = id ∧ (∃ held, kind = .product (some lhs) held) ∧
      Matches ((productRule (some lhs) (some list)).take 5) row
  | .definitions node .start =>
    node = id ∧ kind = .definitionList ∧ AwaitsItem .definition Marks.separators row
  | .definitions node _ =>
    node = id ∧ kind = .definitionList ∧ Separated .definition Marks.separators row
  | .definition node _ none => node = id ∧ kind = .definition ∧ AwaitsItem (.term {}) [","] row
  | .definition node _ (some _) => node = id ∧ kind = .definition ∧ Separated (.term {}) [","] row
  | .term node parts false =>
    node = id ∧ (∃ held, kind = .term held ∧ held.Lags parts) ∧ TermRow parts row
  | .term node parts true => node = id ∧ (∃ held, kind = .term held ∧ held.Lags parts) ∧
    ∃ front dash, row = front ++ [dash] ∧ TermRow parts front ∧ parts.exception = none ∧
      dash.IsMark ["-"]
  | .exception node _ none => node = id ∧ (∃ held, kind = .exception held) ∧ Matches [.gap] row
  | .exception node _ (some primary) =>
    node = id ∧ (∃ held, kind = .exception held) ∧ Matches (exceptionRule (some primary)) row
  | .repetition node => node = id ∧ kind = .repetition ∧ Matches (repetitionRule.take 2) row
  | .bracket b node (.opened opening) =>
    node = id ∧ (∃ held, kind = .primary (.bracketed b held)) ∧
      Matches ((bracketRule b (some opening)).take 2) row
  | .bracket b node (.body _) => node = id ∧
    ∃ opening, kind = .primary (.bracketed b opening) ∧ Matches ((bracketRule b opening).take 3) row
  | .quoted form node none =>
    node = id ∧ kind = .primary form.primary ∧ form.Proper ∧
      Matches ((quotedRule form.mark).take 1) row
  | .closing node => node = id ∧ kind.Closed row
  | _ => False

/-- The node of the open production fits, and where white space is next, there is room for it. -/
structure Frame.Fits (ahead : Option Char) (id : NodeId) (kind : Kind) (row : List Child)
    (frame : Frame) : Prop where
  /-- The node has the shape that the production demands. -/
  shape : frame.Shape id kind row
  /-- White space that is next may be put behind its children. -/
  room : .space ∈ frame.components → ahead.any isSpace = true →
    ∀ blank : Child, blank.kind = .space → frame.Shape id kind (row ++ [blank])

/-- With what the component above it gives, the production fits. -/
def Frame.Awaits (yield : Yield) (id : NodeId) (node : OpenNode) (frame : Frame) : Prop :=
  ∀ ahead more, yield.Gives ahead (node.next id) more →
    frame.Fits ahead id node.label.kind (node.row id ++ more)

/-- An open node that holds no text itself, with formed trees below it. -/
structure OpenNode.Sound (id : NodeId) (node : OpenNode) : Prop where
  /-- It holds no text. -/
  data : node.label.data = ""
  /-- The nodes below it are formed. -/
  formed : node.below.Each (fun id node => node.Formed id) (id + 1)
  /-- The components that its kind names are among its children. -/
  linked : node.Linked id

/-! ### The tree at any moment -/

/-- Open productions that wait for a component, the innermost first, and the spine of their nodes.
-/
inductive Stacked : Option Yield → List Frame → Spine → Prop
  /-- Nothing is around the root. -/
  | nil : Stacked none [] []
  /-- A production waits for a component, and the one around it waits for the production. -/
  | cons {yield : Yield} {host : Frame} {below : List Frame} {node : OpenNode} {outer : Spine}
      (rest : Stacked node.label.kind.yield? below outer) (sound : node.Sound outer.size)
      (awaits : host.Awaits yield outer.size node) :
      Stacked (some yield) (host :: below) (node :: outer)

/-- The node of a production is the innermost open one. -/
structure OnTop (tree : Tree) (below : List Frame) (node : OpenNode) (outer : Spine) : Prop where
  /-- The spine is that of the tree. -/
  carries : tree.Carries (node :: outer)
  /-- The productions below wait for the one on top. -/
  rest : Stacked node.label.kind.yield? below outer
  /-- The node is sound. -/
  sound : node.Sound outer.size

/-- The production on top goes on. -/
structure Idle (ahead : Option Char) (tree : Tree) (frame : Frame) (below : List Frame)
    (node : OpenNode) (outer : Spine) : Prop extends OnTop tree below node outer where
  /-- Its node fits. -/
  fits : frame.Fits ahead outer.size node.label.kind (node.row outer.size)

/-- A leaf is the innermost open node. -/
structure Filled (tree : Tree) (leaf : Label) (yield : Yield) (below : List Frame) (spine : Spine) :
    Prop where
  /-- The spine is that of the tree. -/
  carries : tree.Carries (.bare leaf :: spine)
  /-- The productions below wait for the leaf. -/
  rest : Stacked (some yield) below spine

/-- What a run gives. -/
def Run.yield : Run → Yield
  | space => .space
  | number => .number

/-- The kind of the node of a run. -/
def Run.kind : Run → Kind
  | space => .space
  | number => .number

/-- The beginning of a name. White space stands at its end if there is a span for it. -/
structure NameSoFar (text : List Char) (trailing : Option Span) : Prop where
  /-- It begins with a letter. -/
  letter : ∃ c rest, text = c :: rest ∧ isLetter c = true
  /-- It consists of letters, digits and white space. -/
  parts : ∀ c ∈ text, isNamePart c = true
  /-- White space stands at its end if there is a span for it. -/
  ends : ∃ front c blank, text = front ++ [c] ++ blank ∧ isSpace c = false ∧ Blank blank ∧
    (trailing = none ↔ blank = [])

/-- The tree at any moment, in front of the next character. -/
inductive Grown (ahead : Option Char) (tree : Tree) : List Frame → Prop
  /-- The production on top goes on. -/
  | idle {frame : Frame} {below : List Frame} {node : OpenNode} {outer : Spine}
      (h : Idle ahead tree frame below node outer) : Grown ahead tree (frame :: below)
  /-- A `(` is held back, which may open any bracket. -/
  | paren {parent : NodeId} {start : Position} {below : List Frame} {spine : Spine}
      (carries : tree.Carries spine) (parent_eq : spine.top? = some parent)
      (rest : ∀ b, Stacked (some (.node (.primary (.bracketed b none)))) below spine) :
      Grown ahead tree (.paren parent start :: below)
  /-- An opener is held back. -/
  | opener {b : Bracket} {parent : NodeId} {span : Span} {below : List Frame} {spine : Spine}
      (carries : tree.Carries spine) (parent_eq : spine.top? = some parent)
      (rest : Stacked (some (.node (.primary (.bracketed b none)))) below spine) :
      Grown ahead tree (.opener b parent span :: below)
  /-- The text between two marks is read. -/
  | quoted {form : Quoted} {id run : NodeId} {below : List Frame} {leaf : Label} {spine : Spine}
      (fill : Filled tree leaf (.text form.mark) (.closing id :: below) spine)
      (run_eq : run = spine.size) (top_eq : spine.top? = some id) (kind : leaf.kind = .text)
      (free : ∀ c ∈ leaf.data.toList, c ≠ form.mark) :
      Grown ahead tree (.quoted form id (some run) :: below)
  /-- A run is read. -/
  | run {run : Run} {id : NodeId} {below : List Frame} {leaf : Label} {spine : Spine}
      (fill : Filled tree leaf run.yield below spine) (id_eq : id = spine.size)
      (kind : leaf.kind = run.kind) (nonempty : leaf.data ≠ "")
      (holds : ∀ c ∈ leaf.data.toList, run.holds c = true) :
      Grown ahead tree (.run run id :: below)
  /-- A name is read. -/
  | identifier {id parent : NodeId} {trailing : Option Span} {below : List Frame} {leaf : Label}
      {spine : Spine} (fill : Filled tree leaf .name below spine) (id_eq : id = spine.size)
      (parent_eq : spine.top? = some parent) (kind : leaf.kind = .primary .identifier)
      (name : NameSoFar leaf.data.toList trailing) :
      Grown ahead tree (.identifier id parent trailing :: below)
  /-- A mark is read. -/
  | literal {id : NodeId} {candidates : List String} {read : List Char}
      {best : Option (List Char × Position)} {below : List Frame} {leaf : Label} {spine : Spine}
      (fill : Filled tree leaf (.mark candidates) below spine) (id_eq : id = spine.size)
      (kind : leaf.kind = .literal)
      (best_mem : ∀ text last, best = some (text, last) → String.ofList text ∈ candidates) :
      Grown ahead tree (.literal id candidates read best :: below)
  /-- A mark was read in full. -/
  | matched {id : NodeId} {candidates : List String} {text : List Char} {last : Position}
      {below : List Frame} {leaf : Label} {spine : Spine}
      (fill : Filled tree leaf (.mark candidates) below spine) (id_eq : id = spine.size)
      (kind : leaf.kind = .literal) (text_mem : String.ofList text ∈ candidates) :
      Grown ahead tree (.matched id text last :: below)

/-- A tree that is cut off: the components that its nodes name are among their children. -/
def Tree.Partial (tree : Tree) : Prop :=
  ∃ node outer, tree.Carries (node :: outer) ∧ Spine.Linked (node :: outer)

/-- A tree that is complete: all its nodes are formed. -/
def Tree.Complete (tree : Tree) : Prop :=
  ∃ root, tree.Carries [root] ∧ root.label.kind = .root ∧ root.Formed 0 ∧
    root.below.Each (fun id node => node.Formed id) 1

/-- What a step makes of the tree. -/
def Move.Grows (ahead : Option Char) : Move → Prop
  | again tree frames => Grown ahead tree frames
  | next tree frames => ∀ ahead', Grown ahead' tree frames
  | accept tree => tree.Complete
  | reject tree _ => tree.Partial

/-! ### What the tree of an open production is like -/

namespace OpenNode.Sound

variable {id : NodeId} {label : Label} {below : Forest}

/-- Further formed trees may stand below the node that is on top, behind those that are there. -/
theorem append (h : Sound id ⟨label, below⟩) {more : Forest}
    (hmore : more.Each (fun id node => node.Formed id) (next id ⟨label, below⟩)) :
    Sound id ⟨label, below ++ more⟩ :=
  ⟨h.data, Forest.each_append.mpr ⟨h.formed, hmore⟩, h.linked.append more⟩

theorem bare {kind : Kind} {span : Span} (hkind : kind.components = []) :
    Sound id (.bare ⟨kind, span, ""⟩) := by
  refine ⟨rfl, trivial, ?_⟩
  intro component hcomponent
  rw [OpenNode.label_bare, hkind] at hcomponent
  cases hcomponent

end OpenNode.Sound

theorem Kind.yield?_eq_some {kind : Kind} (h : kind ≠ .root) :
    kind.yield? = some (.node kind.bare) := by
  cases kind <;> first | rfl | exact absurd rfl h

theorem Kind.eq_root_of_yield? {kind : Kind} (h : kind.yield? = none) : kind = .root := by
  cases kind <;> first | rfl | cases h

/-- A spine with an innermost node begins with it. -/
theorem Spine.exists_of_top? {spine : Spine} {id : NodeId} (h : spine.top? = some id) :
    ∃ node outer, spine = node :: outer ∧ size outer = id := by
  cases spine with
  | nil => cases h
  | cons node outer => exact ⟨node, outer, rfl, Option.some.inj h⟩

namespace Frame.Shape

variable {ahead : Option Char} {id : NodeId} {kind : Kind} {row : List Child} {frame : Frame}

/-- A production that admits no white space needs no room for it. -/
theorem fits (h : frame.Shape id kind row)
    (hspace : .space ∉ frame.components) :
    frame.Fits ahead id kind row :=
  ⟨h, fun hmem => absurd hmem hspace⟩

/-- A gap at the end has room for white space. -/
theorem fits_of_gap (h : ∀ gap, Slot.gap gap → frame.Shape id kind (row ++ gap)) :
    frame.Fits ahead id kind row := by
  have hnil := h [] Slot.gap_nil
  rw [List.append_nil] at hnil
  exact ⟨hnil, fun _ _ blank hblank => h [blank] (Slot.gap_singleton hblank)⟩

/-- In front of a character that is no white space there need be no room for it. -/
theorem fits_of_ahead (h : frame.Shape id kind row) (hahead : ahead.any isSpace = false) :
    frame.Fits ahead id kind row := by
  refine ⟨h, fun _ hspace => ?_⟩
  rw [hahead] at hspace
  cases hspace

end Frame.Shape

/-- A production fits where another one does, if it admits white space only where that one does. -/
theorem Frame.Fits.imp {ahead : Option Char} {id : NodeId} {kind kind' : Kind} {row : List Child}
    {frame frame' : Frame} (h : frame.Fits ahead id kind row)
    (hspace : .space ∈ frame'.components → .space ∈ frame.components)
    (hshape : ∀ row, frame.Shape id kind row → frame'.Shape id kind' row) :
    frame'.Fits ahead id kind' row :=
  ⟨hshape _ h.shape, fun hmem hahead blank hblank =>
    hshape _ (h.room (hspace hmem) hahead blank hblank)⟩

namespace Stacked

variable {frames : List Frame} {spine : Spine}

theorem linked {yield? : Option Yield} (h : Stacked yield? frames spine) : spine.Linked := by
  induction h with
  | nil => trivial
  | @cons yield host below node outer rest sound _ ih =>
    refine ⟨sound.linked, sound.formed.mono fun _ _ => OpenNode.Formed.linked, ?_, ih⟩
    rintro rfl
    -- nothing is around the root only
    generalize hyield : node.label.kind.yield? = yield? at rest
    cases rest
    exact Kind.eq_root_of_yield? hyield

theorem cut {yield : Yield} {tree : Tree} (h : Stacked (some yield) frames spine)
    (hcarries : tree.Carries spine) : tree.Partial := by
  cases spine with
  | nil => cases h
  | cons node outer => exact ⟨node, outer, hcarries, h.linked⟩

/-- A component that is complete is given to the production around it. -/
theorem finish {yield : Yield} {ahead : Option Char} {tree : Tree} {node : OpenNode}
    {outer : Spine} {more : Forest} (h : Stacked (some yield) frames (node :: outer))
    (hcarries : tree.Carries (⟨node.label, node.below ++ more⟩ :: outer))
    (hformed : more.Each (fun id node => node.Formed id) (node.next outer.size))
    (hgives : yield.Gives ahead (node.next outer.size) (more.row (node.next outer.size))) :
    Grown ahead tree frames := by
  cases h with
  | cons rest sound awaits =>
    refine .idle ⟨⟨hcarries, rest, sound.append hformed⟩, ?_⟩
    rw [OpenNode.row_append]
    exact awaits _ _ hgives

/-- The first part of what a component gives is there, and the production waits for the rest. -/
theorem resume {whole rest : Yield} {node : OpenNode} {outer : Spine} (leaf : Label)
    (h : Stacked (some whole) frames (node :: outer)) (hbuilds : leaf.kind.Builds [])
    (hspells : leaf.kind.Spells leaf.data)
    (hgives : ∀ first ahead more, rest.Gives ahead (first + 1) more →
      whole.Gives ahead first (⟨first, leaf.kind, leaf.data⟩ :: more)) :
    Stacked (some rest) frames (node.add (.bare leaf) :: outer) := by
  cases h with
  | cons below sound awaits =>
    refine .cons below (sound.append (Forest.each_single.mpr ⟨⟨hbuilds, hspells⟩, trivial⟩)) ?_
    intro ahead more hmore
    rw [OpenNode.next_add_bare] at hmore
    have hall := awaits ahead _ (hgives _ ahead more hmore)
    rw [OpenNode.add, OpenNode.row_append, List.append_assoc]
    exact hall

end Stacked

namespace Filled

variable {tree : Tree} {leaf : Label} {yield : Yield} {below : List Frame} {spine : Spine}

theorem cut (h : Filled tree leaf yield below spine) (hleaf : leaf.kind.components = []) :
    tree.Partial := by
  refine ⟨_, _, h.carries, ?_, trivial, ?_, h.rest.linked⟩
  · intro component hcomponent
    rw [OpenNode.label_bare, hleaf] at hcomponent
    cases hcomponent
  · rintro rfl
    cases h.rest

/-- A leaf that is complete is given to the production around it, which has waited for such a
child. -/
theorem leave {ahead : Option Char} (h : Filled tree leaf yield below spine)
    (hbuilds : leaf.kind.Builds []) (hspells : leaf.kind.Spells leaf.data)
    (hgives : yield.Gives ahead spine.size [⟨spine.size, leaf.kind, leaf.data⟩]) :
    Grown ahead tree below := by
  obtain ⟨hcarries, hrest⟩ := h
  cases spine with
  | nil => cases hrest
  | cons node outer =>
    refine hrest.finish hcarries.close ?_ hgives
    exact Forest.each_single.mpr ⟨⟨hbuilds, hspells⟩, trivial⟩

end Filled

namespace OnTop

variable {ahead : Option Char} {tree : Tree} {below : List Frame} {node : OpenNode} {outer : Spine}

theorem cut (h : OnTop tree below node outer) : tree.Partial := by
  refine ⟨node, outer, h.carries, h.sound.linked,
    h.sound.formed.mono fun _ _ => OpenNode.Formed.linked, ?_, h.rest.linked⟩
  rintro rfl
  have hrest := h.rest
  generalize hyield : node.label.kind.yield? = yield? at hrest
  cases hrest
  exact Kind.eq_root_of_yield? hyield

/-- The production on top begins to wait for another component, which may begin behind what is
there. -/
theorem await {yield : Yield} (h : OnTop tree below node outer) (frame : Frame)
    (hawaits : frame.Awaits yield outer.size node) :
    Stacked (some yield) (frame :: below) (node :: outer) :=
  .cons h.rest h.sound hawaits

/-- A production that is complete is given to the production around it. -/
theorem leave (h : OnTop tree below node outer) (hkind : node.label.kind ≠ .root)
    (hbuilds : node.label.kind.Builds (node.row outer.size)) (hspells : node.label.kind.Spells "")
    (hterm : node.label.kind.bare = .term {} → ahead.any isSpace = false) :
    Grown ahead tree below := by
  have hrest := h.rest
  rw [Kind.yield?_eq_some hkind] at hrest
  cases outer with
  | nil => cases hrest
  | cons host outer =>
    refine hrest.finish h.carries.close ?_ ⟨hterm, node.label.kind, ?_, rfl⟩
    · refine Forest.each_single.mpr ⟨⟨hbuilds, ?_⟩, h.sound.formed⟩
      show node.label.kind.Spells node.label.data
      rw [h.sound.data]
      exact hspells
    · rw [Forest.row_single, h.sound.data]

/-- A production that its last component ends is given to the production around it. -/
theorem leaveClosed (h : OnTop tree below node outer)
    (hclosed : node.label.kind.Closed (node.row outer.size)) : Grown ahead tree below :=
  h.leave hclosed.not_root hclosed.builds hclosed.spells fun hterm => absurd hterm hclosed.not_term

/-- The production on top gets a child that is complete. -/
theorem add {tree' : Tree} {child : OpenNode} (h : OnTop tree below node outer)
    (hcarries : tree'.Carries (node.add child :: outer))
    (hformed : child.Formed (node.next outer.size))
    (hbelow : child.below.Each (fun id node => node.Formed id) (node.next outer.size + 1)) :
    OnTop tree' below (node.add child) outer :=
  ⟨hcarries, h.rest, h.sound.append (Forest.each_single.mpr ⟨hformed, hbelow⟩)⟩

/-- The production on top gets a leaf that is complete. -/
theorem addLeaf (h : OnTop tree below node outer) (kind : Kind) (span : Span) (data : String)
    (hbuilds : kind.Builds []) (hspells : kind.Spells data) :
    OnTop (tree.pushChild outer.size kind span data) below
      (node.add (.bare ⟨kind, span, data⟩)) outer :=
  h.add (h.carries.push kind span data).close ⟨hbuilds, hspells⟩ trivial

/-- The production on top ends somewhere else. What it is made of has nothing to do with that. -/
theorem respan {tree' : Tree} {span : Span} (h : OnTop tree below node outer)
    (hcarries : tree'.Carries (⟨{ node.label with span }, node.below⟩ :: outer)) :
    OnTop tree' below ⟨{ node.label with span }, node.below⟩ outer :=
  ⟨hcarries, h.rest, ⟨h.sound.data, h.sound.formed, h.sound.linked⟩⟩

/-- The production on top ends with a mark, which is a leaf, and the one below goes on. -/
theorem leaveWithMark {mark : String} (h : OnTop tree below node outer) (closer : Span)
    (last : Position) (hclosed : node.label.kind.Closed
      (node.row outer.size ++ [⟨node.next outer.size, .literal, mark⟩])) :
    Grown ahead ((tree.pushChild outer.size .literal closer mark).withLast outer.size last)
      below := by
  have hmark := h.addLeaf .literal closer mark rfl trivial
  refine (hmark.respan (hmark.carries.withLast last)).leaveClosed ?_
  show node.label.kind.Closed ((node.add (.bare ⟨.literal, closer, mark⟩)).row outer.size)
  rw [OpenNode.row_add_bare]
  exact hclosed

/-- The production on top records its components, which are among the children that it has. -/
theorem withKind {kind : Kind} (h : OnTop tree below node outer)
    (hyield : kind.yield? = node.label.kind.yield?)
    (hlinked : ∀ component ∈ kind.components, ∃ child ∈ node.row outer.size, child.id = component) :
    OnTop (tree.withKind outer.size kind) below ⟨{ node.label with kind }, node.below⟩ outer := by
  refine ⟨h.carries.withKind kind, ?_, ⟨h.sound.data, h.sound.formed, ?_⟩⟩
  · show Stacked kind.yield? below outer
    rw [hyield]
    exact h.rest
  · exact OpenNode.linked_of_row hlinked

end OnTop

namespace Idle

variable {ahead : Option Char} {tree : Tree} {frame : Frame} {below : List Frame} {node : OpenNode}
  {outer : Spine}

/-- The production on top moves on without a change of its node. -/
theorem move {ahead' : Option Char} {frame' : Frame} (h : Idle ahead tree frame below node outer)
    (hfits : frame'.Fits ahead' outer.size node.label.kind (node.row outer.size)) :
    Idle ahead' tree frame' below node outer :=
  ⟨h.toOnTop, hfits⟩

/-- The production on top records its components and does not move on. -/
theorem record {kind : Kind} (h : Idle ahead tree frame below node outer)
    (hyield : kind.yield? = node.label.kind.yield?)
    (hlinked : ∀ component ∈ kind.components, ∃ child ∈ node.row outer.size, child.id = component)
    (hshape : ∀ row, frame.Shape outer.size node.label.kind row → frame.Shape outer.size kind row) :
    Idle ahead (tree.withKind outer.size kind) frame below ⟨{ node.label with kind }, node.below⟩
      outer :=
  ⟨h.withKind hyield hlinked, h.fits.imp id hshape⟩

end Idle

namespace Stacked

variable {ahead : Option Char} {tree : Tree} {frames : List Frame} {node : OpenNode}
  {outer : Spine}

/-- A leaf begins below the production that waits for it, and takes its characters as long as it is
on top. -/
theorem fill {yield : Yield} (h : Stacked (some yield) frames (node :: outer))
    (hcarries : tree.Carries (node :: outer)) (kind : Kind) (span : Span) (data : String) :
    Filled (tree.pushChild outer.size kind span data) ⟨kind, span, data⟩ yield frames
      (node :: outer) :=
  ⟨hcarries.push kind span data, h⟩

/-- A production begins and waits for its first component, below the production that waits for
it. -/
theorem pushWaiting {yield : Yield} {host : Frame} {spine : Spine} (kind : Kind) (span : Span)
    (h : Stacked (some (.node kind.bare)) frames spine) (hkind : kind ≠ .root)
    (hcomponents : kind.components = [])
    (hawaits : host.Awaits yield spine.size (.bare ⟨kind, span, ""⟩)) :
    Stacked (some yield) (host :: frames) (.bare ⟨kind, span, ""⟩ :: spine) := by
  refine .cons ?_ (.bare hcomponents) hawaits
  show Stacked kind.yield? frames spine
  rw [Kind.yield?_eq_some hkind]
  exact h

/-- A production begins below the one that waits for it. -/
theorem push {frame : Frame} (kind : Kind) (span : Span)
    (h : Stacked (some (.node kind.bare)) frames (node :: outer))
    (hcarries : tree.Carries (node :: outer)) (hkind : kind ≠ .root)
    (hcomponents : kind.components = [])
    (hfits : frame.Fits ahead (Spine.size (node :: outer)) kind []) :
    Idle ahead (tree.pushChild outer.size kind span) frame frames (.bare ⟨kind, span, ""⟩)
      (node :: outer) := by
  refine ⟨⟨hcarries.push kind span "", ?_, .bare hcomponents⟩, hfits⟩
  show Stacked kind.yield? frames (node :: outer)
  rw [Kind.yield?_eq_some hkind]
  exact h

/-- A production begins with a mark that was read already, which is its first child. -/
theorem pushWithMark {frame : Frame} {data : String} (kind : Kind) (span opener : Span)
    (h : Stacked (some (.node kind.bare)) frames (node :: outer))
    (hcarries : tree.Carries (node :: outer)) (hkind : kind ≠ .root)
    (hcomponents : kind.components = [])
    (hfits : frame.Fits ahead (Spine.size (node :: outer)) kind
      [⟨Spine.size (node :: outer) + 1, .literal, data⟩]) :
    Idle ahead ((tree.pushChild outer.size kind span).pushChild (Spine.size (node :: outer))
        .literal opener data) frame frames
      ((OpenNode.bare ⟨kind, span, ""⟩).add (.bare ⟨.literal, opener, data⟩)) (node :: outer) := by
  have hmark : (Forest.single ⟨.literal, opener, data⟩ .nil).Each
      (fun id node => node.Formed id) (Spine.size (node :: outer) + 1) :=
    Forest.each_single.mpr ⟨⟨rfl, trivial⟩, trivial⟩
  refine ⟨⟨((hcarries.push kind span "").push .literal opener data).close, ?_,
    (OpenNode.Sound.bare hcomponents).append hmark⟩, hfits⟩
  show Stacked kind.yield? frames (node :: outer)
  rw [Kind.yield?_eq_some hkind]
  exact h

end Stacked

end LosslessEbnf
