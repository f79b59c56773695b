import LosslessEbnf.Failure

/-!
# Open productions

While a text is read some productions are open, each inside the next. The machine keeps them on a
stack of frames, the innermost on top.

## Main Definitions

* `Frame` — an open production and how far it has got
* `nesting` — how deep comments and brackets are nested
* `weight` — how much can be done before the next character has to be taken

## Design Notes

A frame names the node that it builds. Where a component of the node is still being read, the frame
holds its number already, and the component has a frame of its own on top. The frame records the
component in its node when it is on top again, that is, after the component has ended and the
character behind it is known.
-/

namespace LosslessEbnf

/-- How far a comment has got. -/
inductive CommentStage
  /-- Text is read. -/
  | body
  /-- A `*` or a `(` was read, at the given position. -/
  | mark (c : Char) (here : Position)
  /-- The `(*` of a nested comment was read. -/
  | opened (opener : Span)
  deriving DecidableEq, Repr

/-- How far a product has got. -/
inductive ProductStage
  /-- The name is read. -/
  | name
  /-- The `=` was read. -/
  | equals
  /-- The definitions are read. If they end with the closer `/)`, they hand it over. -/
  | body (list : NodeId) (closer : Option Span)
  deriving DecidableEq, Repr

/-- How far a list of definitions has got. -/
inductive ListStage
  /-- A definition is to begin. -/
  | start
  /-- A definition has ended. -/
  | afterDefinition
  /-- A `/` was read, at the given position. -/
  | afterSlash (slash : Position)
  deriving DecidableEq, Repr

/-- How far a bracket has got. -/
inductive BracketStage
  /-- The opener was read. -/
  | opened (opening : NodeId)
  /-- The definitions are read. If they end with the closer `/)`, they hand it over. -/
  | body (closer : Option Span)
  deriving DecidableEq, Repr

/-- The texts that stand between two equal marks. -/
inductive Quoted
  /-- A terminal between two quotes. -/
  | terminal (quote : Char)
  /-- A special sequence between question marks. -/
  | special
  deriving DecidableEq, Repr

namespace Quoted

/-- The mark at both ends. -/
def mark : Quoted → Char
  | terminal quote => quote
  | special => '?'

/-- What the text is as a primary. -/
def primary : Quoted → Primary
  | terminal _ => .terminal
  | special => .special

/-- What is being read while the text is open. -/
def unfinished : Quoted → Unfinished
  | terminal _ => .terminal
  | special => .special

end Quoted

/-- The runs of characters of one class. -/
inductive Run
  /-- A run of white space. -/
  | space
  /-- A run of digits. -/
  | number
  deriving DecidableEq, Repr

/-- An open production and how far it has got. -/
inductive Frame
  /-- The whole text; `begun` once its first character is known. -/
  | grammar (begun : Bool)
  /-- A comment, with the text that can still grow. -/
  | comment (node : NodeId) (text : Option NodeId) (stage : CommentStage)
  /-- A product and its left-hand side. -/
  | product (node lhs : NodeId) (stage : ProductStage)
  /-- A list of definitions. -/
  | definitions (node : NodeId) (stage : ListStage)
  /-- A definition, with the term that no comma has ended yet. -/
  | definition (node : NodeId) (start : Position) (term : Option NodeId)
  /-- A term and its components; `dash` if a `-` was read and the exception is due. -/
  | term (node : NodeId) (parts : TermParts) (dash : Bool)
  /-- An exception of a term, and its primary. -/
  | exception (node term : NodeId) (primary : Option NodeId)
  /-- A repetition whose number is read. -/
  | repetition (node : NodeId)
  /-- A `(` that may begin a group or be part of another opener. -/
  | paren (parent : NodeId) (start : Position)
  /-- A two-character opener that was read and is not in the tree yet. -/
  | opener (bracket : Bracket) (parent : NodeId) (span : Span)
  /-- A bracket. -/
  | bracket (bracket : Bracket) (node : NodeId) (stage : BracketStage)
  /-- A text between marks; `text` is its node once the opening mark was read. -/
  | quoted (form : Quoted) (node : NodeId) (text : Option NodeId)
  /-- A name, with the span of the white space at its end. -/
  | identifier (node parent : NodeId) (trailing : Option Span)
  /-- A run of characters of one class. -/
  | run (run : Run) (node : NodeId)
  /-- A mark of which some characters were read, with the longest candidate read in full. -/
  | literal (node : NodeId) (candidates : List String) (read : List Char)
      (best : Option (List Char × Position))
  /-- A mark that was read in full, up to its last character. -/
  | matched (node : NodeId) (text : List Char) (last : Position)
  /-- A production whose last component is read. -/
  | closing (node : NodeId)
  deriving DecidableEq, Repr

/-- Whether the production counts for the nesting. -/
def Frame.nests : Frame → Bool
  | comment .. | bracket .. => true
  | _ => false

/-- How deep comments and brackets are nested. -/
def nesting (frames : List Frame) : Nat :=
  frames.countP Frame.nests

/-- Hands the closer `/)` of a list of definitions over to the production around it. -/
def handOver (closer : Span) : List Frame → List Frame
  | .product node lhs (.body list _) :: below =>
    .product node lhs (.body list (some closer)) :: below
  | .bracket b node (.body _) :: below => .bracket b node (.body (some closer)) :: below
  | below => below

/-! ### How much can be done without taking a character -/

/-- The weight of a production: more than that of the productions that it can turn into before the
next character is taken. -/
def Frame.weight : Frame → Nat
  | grammar begun => if begun then 1 else 2
  | comment _ _ .body => 1
  | comment _ _ (.mark ..) => 2
  | comment _ _ (.opened _) => 3
  | product _ _ .equals => 7
  | product .. => 1
  | definitions _ .start => 5
  | definitions _ .afterDefinition => 1
  | definitions _ (.afterSlash _) => 6
  | definition _ _ none => 3
  | definition _ _ (some _) => 1
  | term _ _ dash => if dash then 3 else 1
  | exception .. => 1
  | repetition _ => 1
  | paren .. => 8
  | opener .. => 8
  | bracket _ _ (.opened _) => 7
  | bracket _ _ (.body _) => 1
  | quoted _ _ none => 2
  | quoted _ _ (some _) => 1
  | identifier .. => 1
  | run .. => 1
  | literal .. => 1
  | matched .. => 1
  | closing _ => 1

/-- The weight of the open productions together. -/
def weight : List Frame → Nat
  | [] => 0
  | frame :: below => frame.weight + weight below

@[simp] theorem weight_nil : weight [] = 0 := rfl

@[simp] theorem weight_cons (frame : Frame) (below : List Frame) :
    weight (frame :: below) = frame.weight + weight below := rfl

end LosslessEbnf
