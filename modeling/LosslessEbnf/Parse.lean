import LosslessEbnf.Folder
import LosslessEbnf.Machine.Run

/-!
# Reading a grammar

## Main Definitions

* `parseFrom` — reads a source and gives what is left of it, too
* `parse` — reads a source
* `parseText` — reads a text
* `parseFile` — reads a file of a folder

## Design Notes

Comments and brackets may be nested only to a limit, which keeps the depth of the tree within
bounds.
-/

namespace LosslessEbnf

/-- How deep comments and brackets may be nested if nothing else is said. -/
def defaultMaxNesting : Nat := 256

/-- Reads all of a source. Gives the result and what is left of the source. -/
def parseFrom {σ : Type} [Source σ] (source : σ) (maxNesting : Nat := defaultMaxNesting) :
    Except ParseError Tree × σ :=
  drive maxNesting .initial source

/-- Reads all of a source. -/
def parse {σ : Type} [Source σ] (source : σ) (maxNesting : Nat := defaultMaxNesting) :
    Except ParseError Tree :=
  (parseFrom source maxNesting).1

/-- Reads a text. -/
def parseText (text : String) (maxNesting : Nat := defaultMaxNesting) : Except ParseError Tree :=
  parse (TextSource.ofString text) maxNesting

/-- Reads a file of a folder. A file that cannot be opened is reported at the position before the
first character, with a tree into which nothing was read. -/
def parseFile (here : Entry) (path : String) : Except ParseError Tree :=
  match here.openFile path with
  | .ok source => parse source
  | .error fault => .error (Config.initial.interrupted fault)

/-- Reading a text is a run on its characters, which begins with nothing open but the whole text. -/
theorem parseText_eq (text : String) (maxNesting : Nat) :
    parseText text maxNesting = runText maxNesting .initial text.toList :=
  drive_textSource maxNesting .initial text.toList

end LosslessEbnf
