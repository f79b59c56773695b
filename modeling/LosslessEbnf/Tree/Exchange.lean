import LosslessEbnf.Json.Value
import LosslessEbnf.Tree.Table

/-!
# The exchange form of trees

Trees and their parts as JSON values, written and read back.

## Main Definitions

* `Position.toJson`, `Span.toJson`, `Kind.toJson`, `Node.toJson`, `Tree.toJson` — writing
* `Position.ofJson?`, `Span.ofJson?`, `Kind.ofJson?`, `Node.ofJson?`, `NodeTable.ofJson?` — reading
* `Tree.load` — the tree that a JSON value describes, or why it describes none

## Design Notes

Writing gives every field. Reading accepts more than that:

* positions, spans, nodes and trees are records, written as objects or as arrays;
* an optional number may be missing or `null`;
* a kind is an object with one key, its name; a kind without components is its name alone, or an
  object that gives `null` for it, and the components of the other kinds form an object;
* every number has to fit into a word of 64 bits.

The shape of a whole tree is read before its links are checked.
-/

namespace LosslessEbnf

/-! ### Numbers -/

/-- An optional node number as JSON. -/
def Json.ofLink (link : Option NodeId) : Json := Json.ofOption Json.natural link

namespace Json

/-- A natural number that fits into a word. -/
def word? (value : Json) : Option Nat :=
  value.natural?.filter (· < Text.wordSize)

/-- An optional node number. A missing field and `null` both stand for no number. -/
def link? : Option Json → Option (Option NodeId)
  | none => some none
  | some null => some none
  | some value => (word? value).map some

/-- The node numbers of an array. -/
def links? (value : Json) : Option (List NodeId) := do
  (← value.array?).mapM word?

end Json

/-! ### Positions and spans -/

/-- A position as JSON. -/
def Position.toJson (p : Position) : Json :=
  .object [("line", .natural p.line), ("column", .natural p.column)]

/-- The position that a JSON value describes. -/
def Position.ofJson? (value : Json) : Option Position :=
  match value.record? ["line", "column"] with
  | some [some line, some column] => do return ⟨← line.word?, ← column.word?⟩
  | _ => none

/-- A span as JSON. -/
def Span.toJson (s : Span) : Json :=
  .object [("start", s.first.toJson), ("end", s.last.toJson)]

/-- The span that a JSON value describes. -/
def Span.ofJson? (value : Json) : Option Span :=
  match value.record? ["start", "end"] with
  | some [some first, some last] => do return ⟨← Position.ofJson? first, ← Position.ofJson? last⟩
  | _ => none

/-! ### Kinds -/

/-- A primary as JSON. -/
def Primary.toJson (form : Primary) : Json :=
  match form with
  | .bracketed _ opening => .object [(form.name, .object [("lit", .ofLink opening)])]
  | _ => .string form.name

/-- A kind as JSON. -/
def Kind.toJson (kind : Kind) : Json :=
  match kind with
  | .product lhs rhs => .object [(kind.name, .object [("lhs", .ofLink lhs), ("rhs", .ofLink rhs)])]
  | .term parts =>
    .object [(kind.name, .object [("repetition", .ofLink parts.repetition),
      ("primary", .ofLink parts.primary), ("exception", .ofLink parts.exception)])]
  | .exception target => .object [(kind.name, .object [("primary", .ofLink target)])]
  | .primary form => .object [("Primary", form.toJson)]
  | _ => .string kind.name

/-- The primaries without components. -/
def Primary.simple : List Primary := [.identifier, .terminal, .special, .emptyString]

/-- The primary without components that has the given name. -/
def Primary.named? (name : String) : Option Primary :=
  Primary.simple.find? (·.name == name)

/-- The kinds without components. -/
def Kind.simple : List Kind :=
  [.root, .comment, .definitionList, .definition, .repetition, .text, .space, .literal, .number]

/-- The kind without components that has the given name. -/
def Kind.named? (name : String) : Option Kind :=
  Kind.simple.find? (·.name == name)

/-- The bracket whose primary has the given name. -/
def Bracket.named? (name : String) : Option Bracket :=
  [Bracket.repeated, .optional, .grouped].find? fun b => (Primary.bracketed b none).name == name

/-- The primary that a JSON value describes. -/
def Primary.ofJson? : Json → Option Primary
  | .string name => Primary.named? name
  | .object [(name, .null)] => Primary.named? name
  | .object [(name, .object fields)] => do
    let bracket ← Bracket.named? name
    return .bracketed bracket (← Json.link? (Json.field? fields "lit"))
  | _ => none

/-- The kind that a JSON value describes. -/
def Kind.ofJson? : Json → Option Kind
  | .string name => Kind.named? name
  | .object [("Primary", form)] => (Primary.ofJson? form).map .primary
  | .object [(name, .null)] => Kind.named? name
  | .object [("Product", .object fields)] => do
    return .product (← Json.link? (Json.field? fields "lhs"))
      (← Json.link? (Json.field? fields "rhs"))
  | .object [("Term", .object fields)] => do
    return .term ⟨← Json.link? (Json.field? fields "repetition"),
      ← Json.link? (Json.field? fields "primary"), ← Json.link? (Json.field? fields "exception")⟩
  | .object [("Exception", .object fields)] => do
    return .exception (← Json.link? (Json.field? fields "primary"))
  | _ => none

/-! ### Nodes and trees -/

/-- A node as JSON. -/
def Node.toJson (node : Node) : Json :=
  .object [("kind", node.kind.toJson), ("parent", .ofLink node.parent),
    ("children", .array (node.children.map .natural)), ("depth", .natural node.depth),
    ("span", node.span.toJson), ("data", .string node.data)]

/-- The node that a JSON value describes. -/
def Node.ofJson? (value : Json) : Option Node :=
  match value.record? ["kind", "parent", "children", "depth", "span", "data"] with
  | some [some kind, parent, some children, some depth, some span, some data] => do
    return { kind := ← Kind.ofJson? kind
             parent := ← Json.link? parent
             children := ← children.links?
             depth := ← depth.word?
             span := ← Span.ofJson? span
             data := ← data.string? }
  | _ => none

/-- A tree as JSON. -/
def Tree.toJson (tree : Tree) : Json :=
  .object [("nodes", .array (tree.nodes.toList.map Node.toJson)), ("count", .natural tree.count),
    ("height", .natural tree.height), ("max_degree", .natural tree.maxDegree)]

/-- The table of nodes with counters that a JSON value describes. -/
def NodeTable.ofJson? (value : Json) : Option NodeTable :=
  match value.record? ["nodes", "count", "height", "max_degree"] with
  | some [some nodes, some count, some height, some maxDegree] => do
    return { nodes := (← (← nodes.array?).mapM Node.ofJson?).toArray
             count := ← count.word?
             height := ← height.word?
             maxDegree := ← maxDegree.word? }
  | _ => none

/-- Why a JSON value describes no tree. -/
inductive LoadError
  /-- The value is not of the shape of a tree. -/
  | shape
  /-- The check of the nodes and the counters ended early. -/
  | refused (halt : Halt)
  deriving DecidableEq, Repr

/-- The tree that a JSON value describes. -/
def Tree.load (value : Json) : Except LoadError Tree :=
  match NodeTable.ofJson? value with
  | none => .error .shape
  | some table => table.toTree.mapError .refused

end LosslessEbnf
