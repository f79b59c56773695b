import LosslessEbnf.Source.Bytes

/-!
# Files in folders

Files are opened by a path, which is followed from folder to folder.

## Main Definitions

* `Entry` — a file or a folder with entries of its own
* `Entry.follow` — the entry that the parts of a path lead to
* `Entry.find` — the entry at the end of a path
* `Entry.openFile` — the bytes at the end of a path
* `pathFrom` — a path that is meant from a folder other than the working folder

## Design Notes

A path goes from the working folder. An empty part or `.` stays where it is and `..` goes back, and
every part but the last has to lead to a folder. Names and paths are limited in length, counted in
bytes; a name that is too long is noticed only when it is looked up. A folder can be opened like a
file; what fails is to read it. The folder around the working folder is taken to be empty, and it is
its own outer folder.
-/

namespace LosslessEbnf

/-- A file or a folder. -/
inductive Entry
  /-- A file of bytes. -/
  | file (bytes : List UInt8)
  /-- A folder of named entries. -/
  | folder (entries : List (String × Entry))

namespace Entry

/-- The fault of a name that does not exist. -/
def missing : Fault := ⟨.notFound, "No such file or directory (os error 2)"⟩

/-- The fault of a file in the place of a folder. -/
def noFolder : Fault := ⟨.notADirectory, "Not a directory (os error 20)"⟩

/-- The fault of a folder that is read. -/
def unreadable : Fault := ⟨.isADirectory, "Is a directory (os error 21)"⟩

/-- The fault of a name or a path that is too long. -/
def nameTooLong : Fault := ⟨.invalidFilename, "File name too long (os error 36)"⟩

/-- The fault of a path that holds the character that ends paths. -/
def pathEndsInside : Fault := ⟨.invalidInput, "file name contained an unexpected NUL byte"⟩

/-- The greatest number of bytes in a name. -/
def maxNameSize : Nat := 255

/-- The greatest number of bytes in a path. -/
def maxPathSize : Nat := 4095

/-- Follows the parts of a path from an entry. `outer` are the folders around it, the nearest one
first. -/
def follow (outer : List Entry) (here : Entry) : List String → Except Fault Entry
  | [] => .ok here
  | part :: parts =>
    match here with
    | .file _ => .error noFolder
    | .folder entries =>
      if part = "" ∨ part = "." then follow outer here parts
      else if part = ".." then
        match outer with
        | [] => follow [] here parts
        | near :: far => follow far near parts
      else if maxNameSize < part.utf8ByteSize then .error nameTooLong
      else
        match entries.find? (·.1 == part) with
        | some (_, entry) => follow (here :: outer) entry parts
        | none => .error missing

/-- The parts of a path, which are separated by slashes. -/
def parts (path : String) : List String :=
  (path.toList.splitOn '/').map String.ofList

/-- Whether a path goes from the outermost folder. -/
def isAbsolute (path : String) : Bool := path.toList.head? == some '/'

/-- The entry at the end of a path from the working folder `here`. The empty path leads nowhere, and
a path that begins with a slash goes from the outermost folder. -/
def find (here : Entry) (path : String) : Except Fault Entry :=
  let outermost := folder []
  if path.toList.contains '\x00' then .error pathEndsInside
  else if path = "" then .error missing
  else if maxPathSize < path.utf8ByteSize then .error nameTooLong
  else if isAbsolute path then follow [] outermost (parts path)
  else follow [outermost] here (parts path)

/-- What arrives when an entry is read. -/
def arrivals : Entry → List Arrival
  | file bytes => [.ok bytes]
  | folder _ => [.error unreadable]

/-- The source of the bytes at the end of a path. -/
def openFile (here : Entry) (path : String) : Except Fault ByteSource :=
  (here.find path).map fun entry => .ofArrivals entry.arrivals

end Entry

/-- The path that leads from the working folder to where `path` leads from the folder at `base`. The
empty path leads to that folder itself. -/
def pathFrom (base path : String) : String :=
  if Entry.isAbsolute path then path else base ++ "/" ++ path

end LosslessEbnf
