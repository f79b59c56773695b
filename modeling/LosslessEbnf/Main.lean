import LosslessEbnf.CommandLine

/-!
# The program

Reads the file that the command names from the disk and prints the report.
-/

namespace LosslessEbnf

/-- Whether the system reports the error of the given number. Some of its calls give it negated. -/
def isErrorNumber (number reported : UInt32) : Bool :=
  reported == number || reported == -number

/-- The fault that stands for an error of the file system. -/
def Fault.ofError : IO.Error → Fault
  | .noFileOrDirectory .. => Entry.missing
  | .inappropriateType _ reported _ =>
    if isErrorNumber 21 reported then Entry.unreadable else Entry.noFolder
  | .invalidArgument .. => Entry.nameTooLong
  | error => ⟨.other, toString error⟩

/-- What arrives when the file at `path` is read from the disk. -/
def readArrival (path : String) : IO Arrival := do
  match ← (IO.FS.readBinFile path).toBaseIO with
  | .ok bytes => return .ok bytes.toList
  | .error error => return .error (.ofError error)

/-- The report of the command with the given arguments. -/
def report (args : List String) : IO Report := do
  match args with
  | [] => return .usage
  | path :: _ => return .ofResult path (parse (ByteSource.ofArrivals [← readArrival path]))

end LosslessEbnf

/-- Lists the tree of the file named by the first argument. -/
def main (args : List String) : IO UInt32 := do
  let report ← LosslessEbnf.report args
  IO.print report.out
  IO.eprint report.err
  return report.code
