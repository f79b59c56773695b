/-!
# JSON values

## Main Definitions

* `Json` — a JSON value
* `Json.field?` — a field of an object
* `Json.record?` — the fields of a record, written as an object or as an array

## Design Notes

The only numbers that the values of this library use are natural ones. A number that is written with
a sign, a fraction or an exponent is kept as it is written and is never taken for a natural number.
-/

namespace LosslessEbnf

/-- A JSON value. The keys of an object are distinct. -/
inductive Json
  /-- The value `null`. -/
  | null
  /-- A truth value. -/
  | bool (value : Bool)
  /-- A number that is written in digits alone. -/
  | natural (value : Nat)
  /-- Any other number, as it is written. -/
  | number (written : String)
  /-- A text. -/
  | string (text : String)
  /-- A list of values. -/
  | array (items : List Json)
  /-- A list of values with names. -/
  | object (fields : List (String × Json))
  deriving Repr

namespace Json

instance : Inhabited Json := ⟨null⟩

/-- Whether the value is `null`. -/
def isNull : Json → Bool
  | null => true
  | _ => false

/-- The field of the given name. -/
def field? (fields : List (String × Json)) (name : String) : Option Json :=
  (fields.find? (·.1 == name)).map Prod.snd

/-- The values of the named fields of a record. An object may leave fields out and may have others
besides; an array has to give exactly the named fields, in order. -/
def record? (names : List String) : Json → Option (List (Option Json))
  | object fields => some (names.map (field? fields))
  | array items => if items.length = names.length then some (items.map some) else none
  | _ => none

/-- The number that is written, if it is a natural one. -/
def natural? : Json → Option Nat
  | natural value => some value
  | _ => none

/-- The text of a string. -/
def string? : Json → Option String
  | string text => some text
  | _ => none

/-- The items of an array. -/
def array? : Json → Option (List Json)
  | array items => some items
  | _ => none

/-- An optional value as JSON; nothing is written as `null`. -/
def ofOption (encode : α → Json) : Option α → Json
  | some value => encode value
  | none => null

end Json

end LosslessEbnf
