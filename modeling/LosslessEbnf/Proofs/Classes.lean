import LosslessEbnf.Symbols

/-!
# Classes of characters

White space is neither a letter nor a digit, and a line feed is white space. The characters of the
marks lie in none of the classes.

## Main Definitions

* `Text.Apart` — no code point lies in both of two lists of ranges
* `Marks.chars` — the characters of the marks

## Main Statements

* `isSpace_eq_false_of_isLetter`, `isSpace_eq_false_of_isDigit` — white space is a class of its own
* `Marks.apart_of_mem` — the marks lie in none of the classes
* `isSpace_eq_false_of_beginsPrimary` — no primary begins with white space
-/

namespace LosslessEbnf

namespace Text

/-- Every range of one list lies beside every range of the other. -/
def Apart (ranges others : List (Nat × Nat)) : Prop :=
  ∀ r ∈ ranges, ∀ s ∈ others, r.2 < s.1 ∨ s.2 < r.1

instance (ranges others : List (Nat × Nat)) : Decidable (Apart ranges others) :=
  inferInstanceAs (Decidable (∀ r ∈ ranges, ∀ s ∈ others, _ ∨ _))

/-- A code point lies in at most one of two lists of ranges that lie apart. -/
theorem inRanges_eq_false_of_apart {ranges others : List (Nat × Nat)} {n : Nat}
    (h : Apart ranges others) (hn : inRanges others n = true) : inRanges ranges n = false := by
  rw [Bool.eq_false_iff]
  intro hr
  obtain ⟨r, hr, hlow, hhigh⟩ := exists_mem_of_inRanges hr
  obtain ⟨s, hs, hlow', hhigh'⟩ := exists_mem_of_inRanges hn
  have := h r hr s hs
  omega

end Text

/-- White space is no letter: the ranges of the two classes lie apart. -/
theorem isSpace_eq_false_of_isLetter {c : Char} (h : isLetter c = true) : isSpace c = false :=
  Text.inRanges_eq_false_of_apart (by decide +kernel) h

/-- White space is no digit: the ranges of the two classes lie apart. -/
theorem isSpace_eq_false_of_isDigit {c : Char} (h : isDigit c = true) : isSpace c = false :=
  Text.inRanges_eq_false_of_apart (by decide +kernel) h

/-- A character that is no white space is no line feed. -/
theorem ne_lineFeed_of_isSpace {c : Char} (h : isSpace c = false) : c ≠ '\n' := by
  rintro rfl
  exact absurd h (by decide)

/-! ### Marks -/

namespace Marks

/-- The characters of the marks. -/
def chars : List Char :=
  primaryStarts ++ [')', ']', '\x7d', ':', '/', '|', '!', ',', ';', '.', '=', '-', '*']

variable {c : Char}

/-- The tables of the classes are only looked up here. -/
theorem apart_of_mem (h : c ∈ chars) :
    isLetter c = false ∧ isDigit c = false ∧ isSpace c = false := by
  have hall : chars.all (fun c => !isLetter c && (!isDigit c && !isSpace c)) = true := by
    decide +kernel
  have hc := List.all_eq_true.mp hall c h
  simpa only [Bool.and_eq_true, Bool.not_eq_true'] using hc

theorem isLetter_eq_false (h : c ∈ chars) : isLetter c = false := (apart_of_mem h).1

theorem isLetter_of_start (h : c ∈ primaryStarts) : isLetter c = false :=
  isLetter_eq_false (List.mem_append_left _ h)

theorem isDigit_eq_false (h : c ∈ chars) : isDigit c = false := (apart_of_mem h).2.1

theorem isSpace_eq_false (h : c ∈ chars) : isSpace c = false := (apart_of_mem h).2.2

theorem isNamePart_eq_false (h : c ∈ chars) : isNamePart c = false := by
  rw [isNamePart, isLetter_eq_false h, isDigit_eq_false h, isSpace_eq_false h]
  rfl

/-- Whether a primary begins with a mark can be seen from the marks alone. -/
theorem beginsPrimary_eq (h : c ∈ chars) : beginsPrimary c = primaryStarts.contains c := by
  rw [beginsPrimary, isLetter_eq_false h, Bool.false_or]

theorem beginsPrimary_of_mem (h : c ∈ primaryStarts) : beginsPrimary c = true := by
  rw [beginsPrimary, List.contains_iff_mem.mpr h, Bool.or_true]

/-- The quotes are marks with which a primary begins. -/
theorem mem_of_isQuote (h : isQuote c = true) : c ∈ primaryStarts := by
  obtain ⟨mark, hmark, hc⟩ := List.any_eq_true.mp h
  have hhead : mark.toList.head? = some c := beq_iff_eq.mp hc
  have hheads : quotes.map (fun mark => mark.toList.head?) =
      ['\x22', '\x27', '\x60'].map some := by decide
  have hmem : some c ∈ ['\x22', '\x27', '\x60'].map some :=
    hheads ▸ hhead ▸ List.mem_map_of_mem hmark
  obtain ⟨x, hx, hxc⟩ := List.mem_map.mp hmem
  exact List.mem_append_right ['(', '[', '\x7b', '?'] (Option.some.inj hxc ▸ hx)

end Marks

/-- A letter is no mark, since no mark is in the class of letters. -/
theorem ne_of_isLetter {c mark : Char} (h : isLetter c = true) (hmark : mark ∈ Marks.chars) :
    c ≠ mark := by
  rintro rfl
  rw [Marks.isLetter_eq_false hmark] at h
  cases h

/-- White space is no mark, since no mark is in the class of white space. -/
theorem ne_of_isSpace {c mark : Char} (h : isSpace c = true) (hmark : mark ∈ Marks.chars) :
    c ≠ mark := by
  rintro rfl
  rw [Marks.isSpace_eq_false hmark] at h
  cases h

/-- No primary begins with white space, so what is skipped in front of one cannot be a part of
it. -/
theorem isSpace_eq_false_of_beginsPrimary {c : Char} (h : beginsPrimary c = true) :
    isSpace c = false := by
  rw [beginsPrimary, Bool.or_eq_true] at h
  rcases h with hletter | hmark
  · exact isSpace_eq_false_of_isLetter hletter
  · exact Marks.isSpace_eq_false (List.mem_append_left _ (List.contains_iff_mem.mp hmark))

end LosslessEbnf
