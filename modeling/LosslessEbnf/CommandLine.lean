import LosslessEbnf.Parse
import LosslessEbnf.Tree.Listing

/-!
# The command line

The command reads the file that is named by its first argument and lists the tree.

## Main Definitions

* `Report` — what a command prints and its exit code
* `Report.usage` — the report of a command without arguments
* `Report.ofResult` — the report on a file that was read
* `runCommand` — the report of a command in a folder
-/

namespace LosslessEbnf

/-- What a command leaves behind. -/
structure Report where
  /-- The exit code. -/
  code : UInt32
  /-- What goes to the standard output. -/
  out : String
  /-- What goes to the standard error. -/
  err : String
  deriving DecidableEq, Repr

namespace Report

/-- The report of a command that was given no file. -/
def usage : Report := ⟨1, "", "Error: usage: parse <grammar.ebnf>\n"⟩

/-- The causes of a failure, one line each. They are numbered if there are several. -/
def causes (error : ParseError) : String :=
  match error.cause.source? with
  | none => "    " ++ error.message ++ "\n"
  | some fault => "    0: " ++ error.message ++ "\n    1: " ++ fault.message ++ "\n"

/-- The report on the file at `path`: the listing of its tree, or what was read of it and why it
could not be read any further. -/
def ofResult (path : String) : Except ParseError Tree → Report
  | .ok tree => ⟨0, tree.listing, ""⟩
  | .error error =>
    { code := 1
      out := "partial tree:\n" ++ error.tree.listing ++ "\nparsed text: " ++
        String.ofList (Text.quote error.tree.text.toList) ++ "\n"
      err := "Error: failed to parse " ++ path ++ "\n\nCaused by:\n" ++ causes error }

end Report

/-- The report of the command with the given arguments in the folder `here`. -/
def runCommand (here : Entry) (args : List String) : Report :=
  match args with
  | [] => .usage
  | path :: _ => .ofResult path (parseFile here path)

end LosslessEbnf
