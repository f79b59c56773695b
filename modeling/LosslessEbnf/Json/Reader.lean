import LosslessEbnf.Json.Value

/-!
# Reading JSON text

## Main Definitions

* `Json.read?` — the value that a text writes

## Design Notes

The reader takes a value off the front of the text and leaves the rest. Its fuel counts the values
and the entries of arrays and objects that may still be begun; a text has no more of either than
characters. When a key occurs twice in an object the later value stands.
-/

namespace LosslessEbnf.Json

/-- Whether a character may stand between tokens. -/
def isBlank (c : Char) : Bool :=
  c == ' ' || c == '\t' || c == '\n' || c == '\r'

/-- A text without the blanks at its front. -/
def skipBlanks (text : List Char) : List Char := text.dropWhile isBlank

/-- The value of a hexadecimal digit. -/
def hexDigit? (c : Char) : Option Nat :=
  if '0' ≤ c ∧ c ≤ '9' then some (c.toNat - 48)
  else if 'a' ≤ c ∧ c ≤ 'f' then some (c.toNat - 87)
  else if 'A' ≤ c ∧ c ≤ 'F' then some (c.toNat - 55)
  else none

/-- The number that some hexadecimal digits write. -/
def hex? (digits : List Char) : Option Nat :=
  digits.foldlM (fun value c => (hexDigit? c).map (16 * value + ·)) 0

/-- The character that a letter behind a backslash stands for. -/
def escaped? : Char → Option Char
  | 'n' => some '\n'
  | 't' => some '\t'
  | 'r' => some '\r'
  | 'b' => some '\x08'
  | 'f' => some '\x0c'
  | '/' => some '/'
  | '\x5c' => some '\x5c'
  | '\x22' => some '\x22'
  | _ => none

/-- The character of a code point that is one. -/
def char? (n : Nat) : Option Char :=
  if n.isValidChar then some (Char.ofNat n) else none

/-- The text of a string after its opening quote. `taken` holds the characters read so far, the last
one first, and `high` the first half of a character that is written in two halves. -/
def readString : Option Nat → List Char → List Char → Option (String × List Char)
  | high, taken, '\x5c' :: 'u' :: a :: b :: c :: d :: rest => do
    let unit ← hex? [a, b, c, d]
    match high with
    | some first =>
      if 0xDC00 ≤ unit ∧ unit < 0xE000 then
        let c ← char? (0x10000 + (first - 0xD800) * 0x400 + (unit - 0xDC00))
        readString none (c :: taken) rest
      else none
    | none =>
      if 0xD800 ≤ unit ∧ unit < 0xDC00 then readString (some unit) taken rest
      else
        let c ← char? unit
        readString none (c :: taken) rest
  | some _, _, _ => none
  | none, taken, '\x5c' :: c :: rest => do
    let c ← escaped? c
    readString none (c :: taken) rest
  | none, taken, '\x22' :: rest => some (String.ofList taken.reverse, rest)
  | none, taken, c :: rest => readString none (c :: taken) rest
  | none, _, [] => none

/-- Whether a character can stand in a number. -/
def inNumber (c : Char) : Bool :=
  c.isDigit || c == '-' || c == '+' || c == '.' || c == 'e' || c == 'E'

/-- A number. -/
def readNumber (text : List Char) : Option (Json × List Char) :=
  let digits := text.takeWhile inNumber
  let rest := text.dropWhile inNumber
  if digits.isEmpty then none
  else if digits.all Char.isDigit then some (natural (Nat.ofDigitChars 10 digits 0), rest)
  else some (number (String.ofList digits), rest)

/-- The fields of an object with one more, which takes the place of a field of the same name. -/
def putField (fields : List (String × Json)) (name : String) (value : Json) :
    List (String × Json) :=
  fields.filter (·.1 != name) ++ [(name, value)]

mutual

/-- A value at the front of the text. -/
def readValue : Nat → List Char → Option (Json × List Char)
  | 0, _ => none
  | fuel + 1, text =>
    match skipBlanks text with
    | 'n' :: 'u' :: 'l' :: 'l' :: rest => some (null, rest)
    | 't' :: 'r' :: 'u' :: 'e' :: rest => some (bool true, rest)
    | 'f' :: 'a' :: 'l' :: 's' :: 'e' :: rest => some (bool false, rest)
    | '\x22' :: rest => do
      let (text, rest) ← readString none [] rest
      return (string text, rest)
    | '[' :: rest =>
      match skipBlanks rest with
      | ']' :: rest => some (array [], rest)
      | rest => readItems fuel [] rest
    | '\x7b' :: rest =>
      match skipBlanks rest with
      | '\x7d' :: rest => some (object [], rest)
      | rest => readFields fuel [] rest
    | rest => readNumber rest

/-- The items of an array from the next one on. `taken` holds those read so far, the last
one first. -/
def readItems : Nat → List Json → List Char → Option (Json × List Char)
  | 0, _, _ => none
  | fuel + 1, taken, text => do
    let (item, rest) ← readValue fuel text
    match skipBlanks rest with
    | ',' :: rest => readItems fuel (item :: taken) rest
    | ']' :: rest => return (array (item :: taken).reverse, rest)
    | _ => none

/-- The fields of an object from the next one on. -/
def readFields : Nat → List (String × Json) → List Char → Option (Json × List Char)
  | 0, _, _ => none
  | fuel + 1, taken, text => do
    match skipBlanks text with
    | '\x22' :: rest => do
      let (name, rest) ← readString none [] rest
      match skipBlanks rest with
      | ':' :: rest => do
        let (value, rest) ← readValue fuel rest
        match skipBlanks rest with
        | ',' :: rest => readFields fuel (putField taken name value) rest
        | '\x7d' :: rest => return (object (putField taken name value), rest)
        | _ => none
      | _ => none
    | _ => none

end

/-- The value that a text writes, with nothing but blanks around it. -/
def read? (text : String) : Option Json := do
  let chars := text.toList
  let (value, rest) ← readValue (2 * chars.length + 2) chars
  if (skipBlanks rest).isEmpty then some value else none

end LosslessEbnf.Json
