import LosslessEbnf.Text.DefaultIgnorable
import LosslessEbnf.Text.GraphemeExtend
import LosslessEbnf.Text.Unprintable

/-!
# Escaped text

Text is shown on one line and with visible characters only: what would break the line or not show is
written with a backslash.

## Main Definitions

* `isInvisible` — the characters that never show
* `isAttachedMark` — the characters that show only on the character before them
* `Glyphs` — what a display knows of characters
* `escapeChar` — one character, as it is or escaped
* `escape` — a text as a listing shows it
* `quote` — a text as a message shows it, between double quotes

## Design Notes

The two ways to show a text differ in what they escape besides the characters that never show. A
listing escapes both kinds of quote, and an attached mark only at the start, where it has nothing to
attach to. A message escapes the double quote, which ends the text, and attached marks everywhere.

Which characters show is a matter of the version of Unicode, so the tables are a parameter. The
tables of this project are the default.
-/

namespace LosslessEbnf.Text

/-- A character by the number of its code point. -/
def numbered (c : Char) : List Char :=
  ['\x5c', 'u', '\x7b'] ++ Nat.toDigits 16 c.toNat ++ ['\x7d']

/-- Whether `c` has no visible form of its own. Besides the characters of unprintable categories
these are the ones that a display leaves out. -/
def isInvisible (c : Char) : Bool :=
  isUnprintable c || isDefaultIgnorable c

/-- The half-width forms of the Japanese sound marks. They extend the letter before them, but they
are letters themselves and take up a place of their own. -/
def spacingExtenders : List Char := ['\uff9e', '\uff9f']

/-- Whether `c` is a mark that shows only on the character before it. -/
def isAttachedMark (c : Char) : Bool :=
  isGraphemeExtend c && !spacingExtenders.contains c

/-- What a display knows of characters. -/
structure Glyphs where
  /-- Whether a character is a mark that shows only on the character before it. -/
  attached : Char → Bool
  /-- Whether a character has no visible form of its own. -/
  invisible : Char → Bool

/-- What Unicode says of characters. -/
def Glyphs.unicode : Glyphs := ⟨isAttachedMark, isInvisible⟩

/-- One character of a shown text. A backslash stands in front of the given quotes; `marks` tells
whether attached marks are escaped too. -/
def escapeChar (quotes : List Char) (marks : Bool) (c : Char) (glyphs : Glyphs := .unicode) :
    List Char :=
  if c = '\x00' then ['\x5c', '0']
  else if c = '\t' then ['\x5c', 't']
  else if c = '\r' then ['\x5c', 'r']
  else if c = '\n' then ['\x5c', 'n']
  else if c = '\x5c' ∨ c ∈ quotes then ['\x5c', c]
  else if (marks && glyphs.attached c) || glyphs.invisible c then numbered c
  else [c]

/-- The quotes that a listing escapes. -/
def listingQuotes : List Char := ['\x22', '\x27']

/-- A text as a listing shows it. -/
def escape (text : List Char) (glyphs : Glyphs := .unicode) : List Char :=
  match text with
  | [] => []
  | c :: rest =>
    escapeChar listingQuotes true c glyphs ++
      rest.flatMap fun c => escapeChar listingQuotes false c glyphs

/-- A text as a message shows it. -/
def quote (text : List Char) : List Char :=
  ['\x22'] ++ text.flatMap (fun c => escapeChar ['\x22'] true c) ++ ['\x22']

/-- Some texts as a message shows them, in square brackets. -/
def quoteAll (texts : List String) : List Char :=
  ['['] ++ [',', ' '].intercalate (texts.map fun text => quote text.toList) ++ [']']

end LosslessEbnf.Text
