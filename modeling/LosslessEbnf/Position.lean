/-!
# Positions and spans

Where a piece of text stands in the input, by line and column.

## Main Definitions

* `Position` — the place of a character
* `Position.after` — the place reached by reading a character
* `Span` — a range of text, given by the positions of its first and last characters
* `Span.gap` — the range of no text in front of a character

## Design Notes

The position of a character is the one reached right after reading it. Lines count from 1. A line
feed opens the next line and stands at its column 0, every other character is one column further
than the one before it. A range of no text is written with its end one column in front of its start.
-/

namespace LosslessEbnf

/-- The place of a character in the input. -/
structure Position where
  /-- The line, counted from 1. -/
  line : Nat
  /-- The column, counted from 1; the line feed that opens a line stands at 0. -/
  column : Nat
  deriving DecidableEq, Repr

namespace Position

/-- The position before anything is read. -/
def start : Position := ⟨1, 0⟩

instance : Inhabited Position := ⟨start⟩

/-- The position after reading one more character. -/
def after (p : Position) (c : Char) : Position :=
  if c = '\n' then ⟨p.line + 1, 0⟩ else ⟨p.line, p.column + 1⟩

/-- The position after reading some more characters. -/
def afterAll (p : Position) (text : List Char) : Position :=
  text.foldl after p

@[simp] theorem afterAll_nil (p : Position) : p.afterAll [] = p := rfl

@[simp] theorem afterAll_cons (p : Position) (c : Char) (text : List Char) :
    p.afterAll (c :: text) = (p.after c).afterAll text := rfl

theorem afterAll_append (p : Position) (s t : List Char) :
    p.afterAll (s ++ t) = (p.afterAll s).afterAll t := by
  simp [afterAll]

/-- The position one column to the left on the same line; column 0 has none to its left and stays.
-/
def left (p : Position) : Position :=
  ⟨p.line, p.column - 1⟩

/-- Positions are ordered as the text is read: by line, then by column. -/
def order (p q : Position) : Ordering :=
  (compare p.line q.line).then (compare p.column q.column)

/-- The position as `line:column`. -/
def format (p : Position) : String :=
  p.line.repr ++ ":" ++ p.column.repr

end Position

/-- A range of text. -/
structure Span where
  /-- The position of the first character. -/
  first : Position
  /-- The position of the last character. -/
  last : Position
  deriving DecidableEq, Repr

namespace Span

/-- The span of a tree into which nothing was read. -/
def start : Span := ⟨.start, .start⟩

instance : Inhabited Span := ⟨start⟩

/-- The span of the single character at `p`. -/
def point (p : Position) : Span := ⟨p, p⟩

/-- The span of no text in front of the character at `p`. -/
def gap (p : Position) : Span := ⟨p, p.left⟩

/-- Whether the span covers no text: it ends on its line in front of its start. -/
def isEmpty (s : Span) : Bool :=
  s.first.line == s.last.line && decide (s.last.column < s.first.column)

/-- The span as `line,column-line,column`. -/
def format (s : Span) : String :=
  s.first.line.repr ++ "," ++ s.first.column.repr ++ "-" ++
    s.last.line.repr ++ "," ++ s.last.column.repr

end Span

end LosslessEbnf
