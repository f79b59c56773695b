import LosslessEbnf.Source.Basic
import LosslessEbnf.Text.Escape
import LosslessEbnf.Tree.Basic

/-!
# Failures

Why a text could not be read as a grammar.

## Main Definitions

* `Expectation` — what should have stood in the place of a character
* `Unfinished` — what was being read when the input ended
* `Cause` — what went wrong
* `ParseError` — a cause with the place and with the tree read so far
-/

namespace LosslessEbnf

/-- What should have stood in a place. -/
inductive Expectation
  /-- The beginning of a comment, of a product or of white space. -/
  | item
  /-- The mark between the sides of a product. -/
  | equalsSign
  /-- The beginning of a primary. -/
  | primaryStart
  /-- The beginning of a name. -/
  | letter
  /-- The mark in front of a terminal. -/
  | quote
  /-- The digits of a repetition. -/
  | number
  deriving DecidableEq, Repr

/-- The words for an expectation. -/
def Expectation.text : Expectation → String
  | item => "expected a letter, white space or a `(*` literal"
  | equalsSign => "expected `=`"
  | primaryStart => "expected a letter or one of ['(', '[', '\x7b', '?', '\"', '\\'', '`']"
  | letter => "expected a letter"
  | quote => "expected a quote character"
  | number => "expected a number"

/-- What was being read when the input ended. -/
inductive Unfinished
  /-- A place where something was expected. -/
  | expecting (expectation : Expectation)
  /-- A comment. -/
  | comment
  /-- A list of definitions, after a `/`. -/
  | definitionList
  /-- A definition. -/
  | definition (start : Position)
  /-- A mark of several characters. -/
  | literal
  /-- A primary, after a `(`. -/
  | primary
  /-- The text of a terminal. -/
  | terminal
  /-- The text of a special sequence. -/
  | special
  deriving DecidableEq, Repr

/-- The words for what was being read. -/
def Unfinished.text : Unfinished → String
  | expecting expectation => expectation.text
  | comment => "comment not terminated"
  | definitionList => "definition list not terminated"
  | definition start => "definition started at " ++ start.format ++ " not terminated"
  | literal => "reading literal"
  | primary => "reading primary"
  | terminal => "reading terminal"
  | special => "reading special"

/-- What went wrong. Numbers of nodes refer to the tree read so far. -/
inductive Cause
  /-- The input ended too early. -/
  | endOfInput (reading : Unfinished)
  /-- A character stands where it cannot stand. -/
  | unexpectedCharacter (found : Char) (expected : Expectation)
  /-- There is no white space where there has to be some. -/
  | missingSpace (found : Option Char)
  /-- None of the marks that may stand here does. -/
  | noLiteral (candidates : List String) (read : String)
  /-- A term begins before the term in front of it was ended. -/
  | undelimitedTerm (term : NodeId) (start : Position)
  /-- A term has a second repetition. -/
  | multipleRepetitions (term held : NodeId) (previous : Position)
  /-- A term has a second exception. -/
  | multipleExceptions (term held : NodeId) (previous : Position)
  /-- A term has a second primary. -/
  | multiplePrimaries (term held : NodeId) (previous : Position)
  /-- A closer stands where another one is needed. -/
  | unexpectedLiteral (text : String) (span : Span)
  /-- Comments and brackets are nested too deep. -/
  | nestingTooDeep (limit : Nat)
  /-- The source could not be read. -/
  | unreadable (fault : Fault)
  deriving DecidableEq, Repr

/-- The message that reports a cause. -/
def Cause.message : Cause → String
  | endOfInput reading => "did not expect end of input, " ++ reading.text
  | unexpectedCharacter found expected =>
    "did not expect character `" ++ String.singleton found ++ "`, " ++ expected.text
  | missingSpace found =>
    "expected a space character, found `" ++ String.ofList found.toList ++ "`"
  | noLiteral candidates read =>
    "could not match any of " ++ String.ofList (Text.quoteAll candidates) ++ ", read " ++
      String.ofList (Text.quote read.toList)
  | undelimitedTerm _ start =>
    "start of another term before the term started at " ++ start.format ++ " was terminated"
  | multipleRepetitions _ _ previous =>
    "term can only have one repetition, previous one defined at " ++ previous.format
  | multipleExceptions _ _ previous =>
    "term already has an exception defined at " ++ previous.format
  | multiplePrimaries _ _ previous =>
    "term can only have one primary, previous one defined at " ++ previous.format
  | unexpectedLiteral text span =>
    "did not expect literal `" ++ text ++ "` at " ++ span.first.format
  | nestingTooDeep limit => "nesting deeper than " ++ limit.repr ++ " levels"
  | unreadable fault => "reading input failed: " ++ fault.message

/-- The fault of the source behind a cause. -/
def Cause.source? : Cause → Option Fault
  | unreadable fault => some fault
  | _ => none

/-- Why and where a text could not be read, and what was read of it. -/
structure ParseError where
  /-- What went wrong. -/
  cause : Cause
  /-- The position of the last character that was read. -/
  position : Position
  /-- The tree as far as it was built. -/
  tree : Tree
  deriving DecidableEq, Repr

/-- The message that reports a failure. -/
def ParseError.message (error : ParseError) : String :=
  error.cause.message ++ " at " ++ error.position.format

end LosslessEbnf
