/-!
# Kinds of nodes

The productions and tokens of a grammar text, as the kinds of the nodes of its tree.

## Main Definitions

* `NodeId` — the number by which a tree knows a node
* `Bracket` — the three ways to put definitions in brackets
* `Primary` — what a term can be made of
* `TermParts` — the components of a term
* `Kind` — the kind of a node, with the components that it names among its children

## Design Notes

A kind names a component by the number of the node that holds it. While a production is being read
its components are still missing, so each of them is optional.
-/

namespace LosslessEbnf

/-- The number by which a tree knows one of its nodes. -/
abbrev NodeId := Nat

/-- The number as it stands in messages. -/
def NodeId.label (id : NodeId) : String := "#" ++ id.repr

/-- The ways to put definitions in brackets. -/
inductive Bracket
  /-- Definitions that may occur any number of times: `{ … }` or `(/ … /)`. -/
  | repeated
  /-- Definitions that may be left out: `[ … ]` or `(: … :)`. -/
  | optional
  /-- Definitions that are taken together: `( … )`. -/
  | grouped
  deriving DecidableEq, Repr

namespace Bracket

/-- The spellings that open the bracket. -/
def openers : Bracket → List String
  | repeated => ["\x7b", "(/"]
  | optional => ["(:", "["]
  | grouped => ["("]

/-- The opener that begins with a round bracket. -/
def roundOpener : Bracket → String
  | repeated => "(/"
  | optional => "(:"
  | grouped => "("

/-- The closers that are looked for after the definitions. The closer `/)` is missing, because the
definition list itself finds it when it looks for its separator `/`. -/
def closers : Bracket → List String
  | repeated => ["\x7d"]
  | optional => ["]", ":)"]
  | grouped => [")"]

end Bracket

/-- What a term or an exception matches. -/
inductive Primary
  /-- A name of letters, digits and inner white space. -/
  | identifier
  /-- Text between two equal quotes. -/
  | terminal
  /-- Definitions in brackets, with the literal that opened them. -/
  | bracketed (bracket : Bracket) (opening : Option NodeId)
  /-- Text between two question marks. -/
  | special
  /-- No text at all. -/
  | emptyString
  deriving DecidableEq, Repr

/-- The components of a term. -/
structure TermParts where
  /-- How often the primary is to occur. -/
  repetition : Option NodeId := none
  /-- What the term matches. -/
  primary : Option NodeId := none
  /-- What the term is not to match. -/
  exception : Option NodeId := none
  deriving DecidableEq, Repr, Inhabited

/-- The kind of a node. -/
inductive Kind
  /-- The whole text: comments, products and white space. -/
  | root
  /-- A comment `(* … *)`. -/
  | comment
  /-- A rule `lhs = rhs ;`. -/
  | product (lhs rhs : Option NodeId)
  /-- Definitions separated by `|`, `/` or `!`. -/
  | definitionList
  /-- Terms separated by commas. -/
  | definition
  /-- A term. -/
  | term (parts : TermParts)
  /-- What stands behind the `-` of a term. -/
  | exception (target : Option NodeId)
  /-- A count with a star, `n *`. -/
  | repetition
  /-- What a term or an exception matches. -/
  | primary (form : Primary)
  /-- The text of a comment, a terminal or a special sequence. -/
  | text
  /-- A run of white space. -/
  | space
  /-- A mark of the notation. -/
  | literal
  /-- A run of digits. -/
  | number
  deriving DecidableEq, Repr

/-- The name of the primary in a listing. -/
def Primary.name : Primary → String
  | identifier => "Identifier"
  | terminal => "Terminal"
  | bracketed .repeated _ => "Repeat"
  | bracketed .optional _ => "Option"
  | bracketed .grouped _ => "Group"
  | special => "Special"
  | emptyString => "EmptyString"

namespace Kind

/-- The name of the kind in a listing. -/
def name : Kind → String
  | root => "Root"
  | comment => "Comment"
  | product _ _ => "Product"
  | definitionList => "DefinitionList"
  | definition => "Definition"
  | term _ => "Term"
  | exception _ => "Exception"
  | repetition => "Repetition"
  | primary form => form.name
  | text => "Text"
  | space => "Space"
  | literal => "Literal"
  | number => "Number"

/-- Whether nodes of the kind hold text and never have children. -/
def isLeaf : Kind → Bool
  | text | space | literal | number => true
  | primary .identifier | primary .emptyString => true
  | _ => false

/-- Whether the kind is one of the primaries. -/
def isPrimary : Kind → Bool
  | primary _ => true
  | _ => false

/-- The left-hand side of a product. -/
def lhs? : Kind → Option NodeId
  | product lhs _ => lhs
  | _ => none

/-- The right-hand side of a product. -/
def rhs? : Kind → Option NodeId
  | product _ rhs => rhs
  | _ => none

/-- The repetition of a term. -/
def repetition? : Kind → Option NodeId
  | term parts => parts.repetition
  | _ => none

/-- The primary of a term or an exception. -/
def primary? : Kind → Option NodeId
  | term parts => parts.primary
  | exception target => target
  | _ => none

/-- The exception of a term. -/
def exception? : Kind → Option NodeId
  | term parts => parts.exception
  | _ => none

/-- The literal that opened a bracket. -/
def opening? : Kind → Option NodeId
  | primary (.bracketed _ opening) => opening
  | _ => none

/-- The nodes that the kind names, in the order of its components. -/
def components : Kind → List NodeId
  | product lhs rhs => lhs.toList ++ rhs.toList
  | term parts => parts.repetition.toList ++ parts.primary.toList ++ parts.exception.toList
  | exception target => target.toList
  | primary (.bracketed _ opening) => opening.toList
  | _ => []

end Kind

end LosslessEbnf
