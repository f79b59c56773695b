import LosslessEbnf.Machine.Frame
import LosslessEbnf.Proofs.Forest

/-!
# Shifted trees

What becomes of numbers and positions if the same text stands behind other text.

## Main Definitions

* `Position.behind` — a position as it is behind other text
* `Shift` — how many nodes and how much text stand in front
* `Shift.number`, `Shift.span`, `Shift.kind`, `Shift.node` — the parts of a tree behind other text
* `Shift.frame` — an open production behind other text
* `Shift.forest` — a forest behind other text

## Main Statements

* `Position.after_behind`, `Position.left_behind` — positions are counted on in the same way
* `Shift.roots_forest` — the numbers of a shifted forest
* `Shift.holds_forest` — where the nodes of a forest stand shifted, the shifted forest stands

## Design Notes

The root is the same for all of a text, so its number is never shifted. Only the positions on the
first line move to the right; those below move down.
-/

namespace LosslessEbnf

/-! ### Positions -/

namespace Position

/-- A position as it is behind text that ends at `base`. -/
def behind (base p : Position) : Position :=
  ⟨base.line + p.line - 1, if p.line ≤ 1 then base.column + p.column else p.column⟩

/-- A position that can be reached by reading a character. -/
structure Passed (p : Position) : Prop where
  /-- Lines count from 1. -/
  line : 1 ≤ p.line
  /-- No character of the first line stands at column 0. -/
  column : p.line ≤ 1 → p.column ≠ 0

@[simp] theorem behind_start (p : Position) : behind start p = p := by
  simp [behind, start]

@[simp] theorem start_behind (base : Position) : base.behind start = base := rfl

theorem line_after (p : Position) (c : Char) : p.line ≤ (p.after c).line := by
  unfold after
  split <;> simp

theorem line_afterAll (p : Position) (text : List Char) : p.line ≤ (p.afterAll text).line := by
  induction text generalizing p with
  | nil => exact Nat.le_refl _
  | cons c text ih => exact Nat.le_trans (p.line_after c) (ih _)

theorem passed_after {p : Position} (h : 1 ≤ p.line) (c : Char) : (p.after c).Passed := by
  refine ⟨Nat.le_trans h (p.line_after c), fun hline => ?_⟩
  unfold after at hline ⊢
  split at hline
  · dsimp only at hline
    omega
  · rename_i hc
    rw [if_neg hc]
    exact Nat.succ_ne_zero _

/-- Behind some text there is a position that can be reached by reading, wherever the text
begins. -/
theorem passed_afterAll {p : Position} {text : List Char} (h : 1 ≤ p.line) (hne : text ≠ []) :
    (p.afterAll text).Passed := by
  induction text generalizing p with
  | nil => exact absurd rfl hne
  | cons c text ih =>
    cases text with
    | nil => exact passed_after h c
    | cons next text => exact ih (passed_after h c).line (List.cons_ne_nil _ _)

/-- Reading on moves a position in the same way wherever it is. -/
theorem after_behind {p : Position} (h : 1 ≤ p.line) (base : Position) (c : Char) :
    base.behind (p.after c) = (base.behind p).after c := by
  unfold after
  split
  · simp only [behind, mk.injEq]
    refine ⟨by omega, ?_⟩
    rw [if_neg (by omega)]
  · simp only [behind, mk.injEq, true_and]
    split <;> omega

/-- It does not matter whether text is counted on from its own beginning and then moved, or counted
on from where it is moved to. -/
theorem afterAll_behind {p : Position} (h : 1 ≤ p.line) (base : Position) (text : List Char) :
    base.behind (p.afterAll text) = (base.behind p).afterAll text := by
  induction text generalizing p with
  | nil => rfl
  | cons c text ih =>
    rw [afterAll_cons, afterAll_cons, ih (Nat.le_trans h (p.line_after c)), after_behind h]

/-- What is to the left of a position that was reached by reading is moved along with it. Column 0
of the first line has nothing to its left, and is moved alone. -/
theorem left_behind {p : Position} (h : p.Passed) (base : Position) :
    base.behind p.left = (base.behind p).left := by
  obtain ⟨line, column⟩ := p
  show Position.mk (base.line + line - 1)
      (if line ≤ 1 then base.column + (column - 1) else column - 1) =
    ⟨base.line + line - 1, (if line ≤ 1 then base.column + column else column) - 1⟩
  by_cases hline : line ≤ 1
  · have hcolumn : column ≠ 0 := h.column hline
    rw [if_pos hline, if_pos hline, Nat.add_sub_assoc (Nat.one_le_iff_ne_zero.mpr hcolumn)]
  · rw [if_neg hline, if_neg hline]

end Position

/-! ### The parts of a tree -/

/-- What stands in front: so many nodes besides the root, and text that ends at `base`. -/
structure Shift where
  /-- The number of nodes. -/
  count : Nat
  /-- Where the text ends. -/
  base : Position

namespace Shift

variable (d : Shift)

/-- The number of a node. The root keeps its number. -/
def number (id : NodeId) : NodeId := if id = Tree.root then Tree.root else id + d.count

/-- The place of a piece of text. -/
def span (span : Span) : Span := ⟨d.base.behind span.first, d.base.behind span.last⟩

/-- The components of a term. -/
def parts (parts : TermParts) : TermParts :=
  ⟨parts.repetition.map d.number, parts.primary.map d.number, parts.exception.map d.number⟩

/-- The kind of a node. -/
def kind : Kind → Kind
  | .product lhs rhs => .product (lhs.map d.number) (rhs.map d.number)
  | .term parts => .term (d.parts parts)
  | .exception target => .exception (target.map d.number)
  | .primary (.bracketed b opening) => .primary (.bracketed b (opening.map d.number))
  | kind => kind

/-- A node. -/
def node (node : Node) : Node :=
  { kind := d.kind node.kind
    parent := node.parent.map d.number
    children := node.children.map d.number
    depth := node.depth
    span := d.span node.span
    data := node.data }

/-- What a node says of itself. -/
def label (label : Label) : Label := ⟨d.kind label.kind, d.span label.span, label.data⟩

/-- Trees side by side. -/
def forest : Forest → Forest
  | .nil => .nil
  | .cons top below beside => .cons (d.label top) (forest below) (forest beside)

variable {d}

theorem number_eq {id : NodeId} (h : 0 < id) : d.number id = id + d.count :=
  if_neg (Nat.ne_of_gt h)

theorem number_pos {id : NodeId} (h : 0 < id) : 0 < d.number id := by
  rw [number_eq h]
  exact Nat.add_pos_left h _

theorem number_succ {id : NodeId} (h : 0 < id) : d.number (id + 1) = d.number id + 1 := by
  rw [number_eq h, number_eq (Nat.succ_pos id), Nat.add_right_comm]

/-- The shift takes different nodes to different ones, if neither is the root. -/
theorem number_inj {id other : NodeId} (h : 0 < id) (h' : 0 < other) :
    d.number id = d.number other ↔ id = other := by
  rw [number_eq h, number_eq h']
  exact Nat.add_right_cancel_iff

@[simp] theorem size_forest (forest : Forest) : (d.forest forest).size = forest.size := by
  induction forest with
  | nil => rfl
  | cons top below beside ihBelow ihBeside =>
    rw [Shift.forest, Forest.size_cons, ihBelow, ihBeside, Forest.size_cons]

@[simp] theorem text_forest (forest : Forest) : (d.forest forest).text = forest.text := by
  induction forest with
  | nil => rfl
  | cons top below beside ihBelow ihBeside =>
    rw [Shift.forest, Forest.text_cons, ihBelow, ihBeside, Forest.text_cons]
    rfl

/-- The numbers of the tops of a shifted forest. -/
theorem roots_forest {number : NodeId} (h : 0 < number) (forest : Forest) :
    (d.forest forest).roots (number + d.count) = (forest.roots number).map d.number := by
  induction forest generalizing number with
  | nil => rfl
  | cons top below beside _ ih =>
    rw [Shift.forest, Forest.roots_cons, Forest.roots_cons, List.map_cons, size_forest,
      ← ih (Nat.lt_of_lt_of_le h (Nat.le_add_right_of_le (Nat.le_add_right _ _))), number_eq h]
    simp only [Nat.add_right_comm _ d.count]

/-- Where the nodes of a forest stand shifted, the shifted forest stands. -/
theorem holds_forest {part whole : Tree} {forest : Forest} {parent : Option NodeId}
    {depth number : Nat} (hnumber : 0 < number)
    (hget : ∀ id, number ≤ id → id < number + forest.size →
      whole.get? (d.number id) = (part.get? id).map d.node)
    (h : part.Holds parent depth number forest) :
    whole.Holds (parent.map d.number) depth (number + d.count) (d.forest forest) := by
  induction forest generalizing parent depth number with
  | nil => trivial
  | cons top below beside ihBelow ihBeside =>
    obtain ⟨htop, hbelow, hbeside⟩ := h
    rw [Forest.size_cons] at hget
    refine ⟨?_, ?_, ?_⟩
    · rw [← number_eq hnumber, hget number (Nat.le_refl _) (by omega), htop, number_eq hnumber,
        Nat.add_right_comm, roots_forest (Nat.succ_pos _)]
      rfl
    · have := ihBelow (Nat.succ_pos _) (fun id hle hlt => hget id (by omega) (by omega)) hbelow
      rw [Nat.add_right_comm]
      rwa [Option.map_some, number_eq hnumber] at this
    · have := ihBeside (by omega) (fun id hle hlt => hget id (by omega) (by omega)) hbeside
      rw [size_forest]
      rwa [show number + d.count + 1 + below.size = number + 1 + below.size + d.count by omega]

end Shift

/-! ### Open productions -/

namespace Shift

variable (d : Shift)

/-- How far a comment has got. -/
def commentStage : CommentStage → CommentStage
  | .body => .body
  | .mark c here => .mark c (d.base.behind here)
  | .opened opener => .opened (d.span opener)

/-- How far a product has got. -/
def productStage : ProductStage → ProductStage
  | .name => .name
  | .equals => .equals
  | .body list closer => .body (d.number list) (closer.map d.span)

/-- How far a list of definitions has got. -/
def listStage : ListStage → ListStage
  | .start => .start
  | .afterDefinition => .afterDefinition
  | .afterSlash slash => .afterSlash (d.base.behind slash)

/-- How far a bracket has got. -/
def bracketStage : BracketStage → BracketStage
  | .opened opening => .opened (d.number opening)
  | .body closer => .body (closer.map d.span)

/-- The longest candidate for a mark that was read in full. -/
def best (best : List Char × Position) : List Char × Position := (best.1, d.base.behind best.2)

/-- An open production. -/
def frame : Frame → Frame
  | .grammar begun => .grammar begun
  | .comment node text stage => .comment (d.number node) (text.map d.number) (d.commentStage stage)
  | .product node lhs stage => .product (d.number node) (d.number lhs) (d.productStage stage)
  | .definitions node stage => .definitions (d.number node) (d.listStage stage)
  | .definition node start term =>
    .definition (d.number node) (d.base.behind start) (term.map d.number)
  | .term node parts dash => .term (d.number node) (d.parts parts) dash
  | .exception node term primary =>
    .exception (d.number node) (d.number term) (primary.map d.number)
  | .repetition node => .repetition (d.number node)
  | .paren parent start => .paren (d.number parent) (d.base.behind start)
  | .opener b parent span => .opener b (d.number parent) (d.span span)
  | .bracket b node stage => .bracket b (d.number node) (d.bracketStage stage)
  | .quoted form node text => .quoted form (d.number node) (text.map d.number)
  | .identifier node parent trailing =>
    .identifier (d.number node) (d.number parent) (trailing.map d.span)
  | .run run node => .run run (d.number node)
  | .literal node candidates read best => .literal (d.number node) candidates read (best.map d.best)
  | .matched node text last => .matched (d.number node) text (d.base.behind last)
  | .closing node => .closing (d.number node)

/-- Open productions are nested alike wherever they stand. -/
theorem nesting_map (frames : List Frame) : nesting (frames.map d.frame) = nesting frames := by
  rw [nesting, List.countP_map]
  refine List.countP_congr fun frame _ => ?_
  cases frame <;> rfl

/-- It does not matter whether a closer is handed over before the productions are moved or
afterwards. -/
theorem handOver_map (closer : Span) (frames : List Frame) :
    handOver (d.span closer) (frames.map d.frame) = (handOver closer frames).map d.frame := by
  cases frames with
  | nil => rfl
  | cons frame below =>
    cases frame with
    | product node lhs stage => cases stage <;> rfl
    | bracket b node stage => cases stage <;> rfl
    | _ => rfl

end Shift

/-! ### Nothing in front -/

namespace Shift

/-- The shift by nothing. -/
def zero : Shift := ⟨0, .start⟩

@[simp] theorem base_zero : zero.base = .start := rfl

@[simp] theorem number_zero (id : NodeId) : zero.number id = id := by
  unfold Shift.number
  split
  · rename_i h
    exact h.symm
  · rfl

@[simp] theorem map_number_zero (id : Option NodeId) : id.map zero.number = id := by
  cases id <;> simp

@[simp] theorem span_zero (span : Span) : zero.span span = span := by
  simp [Shift.span]

@[simp] theorem map_span_zero (span : Option Span) : span.map zero.span = span := by
  cases span <;> simp

@[simp] theorem parts_zero (parts : TermParts) : zero.parts parts = parts := by
  simp [Shift.parts]

theorem kind_zero (kind : Kind) : zero.kind kind = kind := by
  unfold Shift.kind
  split <;> simp

theorem frame_zero (frame : Frame) : zero.frame frame = frame := by
  cases frame with
  | comment node text stage => cases stage <;> simp [Shift.frame, Shift.commentStage]
  | product node lhs stage => cases stage <;> simp [Shift.frame, Shift.productStage]
  | definitions node stage => cases stage <;> simp [Shift.frame, Shift.listStage]
  | bracket b node stage => cases stage <;> simp [Shift.frame, Shift.bracketStage]
  | literal node candidates read best =>
    cases best <;> simp [Shift.frame, Shift.best]
  | _ => simp [Shift.frame]

theorem map_frame_zero (frames : List Frame) : frames.map zero.frame = frames := by
  rw [show zero.frame = id from funext frame_zero, List.map_id]

end Shift

end LosslessEbnf
