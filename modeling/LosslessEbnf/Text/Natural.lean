/-!
# Natural numbers in text

## Main Definitions

* `natural?` — the number that a text of decimal digits writes
* `word?` — the same with a bound: the number has to fit into 64 bits

## Design Notes

Numbers are written by `Nat.repr`. Reading is more generous than writing: leading zeros are allowed
and a plus sign may stand in front.
-/

namespace LosslessEbnf.Text

/-- How many numbers a word of 64 bits can hold: 2 to the power of 64. -/
def wordSize : Nat := 18446744073709551616

/-- The number that a nonempty run of the digits `0` to `9` writes. -/
def natural? (digits : List Char) : Option Nat :=
  if digits.isEmpty then none
  else if digits.all Char.isDigit then some (Nat.ofDigitChars 10 digits 0) else none

/-- The number that a text writes, if it fits into a word. One plus sign may stand in front. -/
def word? (text : List Char) : Option Nat :=
  let digits := match text with
    | '+' :: rest => rest
    | _ => text
  (natural? digits).filter (· < wordSize)

/-- What `Nat.repr` writes is read back as the same number. -/
theorem natural?_repr (n : Nat) : natural? n.repr.toList = some n := by
  have hne : (Nat.toDigits 10 n).isEmpty = false := by
    simp [Nat.toDigits_ne_nil]
  have hall : (Nat.toDigits 10 n).all Char.isDigit = true := by
    rw [List.all_eq_true]
    intro c hc
    exact Nat.isDigit_of_mem_toDigits (by omega) (by omega) hc
  rw [Nat.toList_repr]
  simp only [natural?, hne, hall, Nat.ofDigitChars_ten_toDigits, if_true, Bool.false_eq_true,
    if_false]

end LosslessEbnf.Text
