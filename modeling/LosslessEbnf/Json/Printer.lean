import LosslessEbnf.Json.Value

/-!
# Writing JSON text

## Main Definitions

* `Json.print` — the text of a value

## Design Notes

The text of a value is written on one line: whatever some reader might take for the end of a line is
written by its number.
-/

namespace LosslessEbnf.Json

/-- A character by its number, in four hexadecimal digits. -/
def numbered (c : Char) : List Char :=
  let digits := Nat.toDigits 16 c.toNat
  ['\x5c', 'u'] ++ List.replicate (4 - digits.length) '0' ++ digits

/-- One character of a string. -/
def printChar (c : Char) : List Char :=
  if c = '\x22' ∨ c = '\x5c' then ['\x5c', c]
  else if c.toNat < 0x20 ∨ c.toNat ∈ [0x7F, 0x85, 0x2028, 0x2029] then numbered c
  else [c]

/-- A string with its quotes, put at the end of `out`. -/
def putString (out : String) (text : String) : String :=
  (text.foldl (fun out c => (printChar c).foldl String.push out) (out.push '\x22')).push '\x22'

mutual

/-- The text of a value, put at the end of `out`. -/
def put (out : String) : Json → String
  | null => out ++ "null"
  | bool value => out ++ (if value then "true" else "false")
  | natural value => out ++ value.repr
  | number written => out ++ written
  | string text => putString out text
  | array items => (putItems (out.push '[') true items).push ']'
  | object fields => (putFields (out.push '\x7b') true fields).push '\x7d'

/-- The items of an array, with commas between them. -/
def putItems (out : String) (first : Bool) : List Json → String
  | [] => out
  | item :: rest => putItems (put (if first then out else out.push ',') item) false rest

/-- The fields of an object, with commas between them. -/
def putFields (out : String) (first : Bool) : List (String × Json) → String
  | [] => out
  | (name, value) :: rest =>
    let out := (putString (if first then out else out.push ',') name).push ':'
    putFields (put out value) false rest

end

/-- The text of a value. -/
def print (value : Json) : String := put "" value

end LosslessEbnf.Json
