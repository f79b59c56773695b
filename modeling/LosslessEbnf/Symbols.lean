import LosslessEbnf.Text.Alphabetic
import LosslessEbnf.Text.Numeric
import LosslessEbnf.Text.WhiteSpace

/-!
# The symbols of the notation

The classes of characters that the notation tells apart, and its marks.

## Main Definitions

* `isLetter`, `isDigit`, `isSpace` — the classes of characters
* `beginsPrimary` — whether a character begins a primary
* `Marks.separators`, `Marks.terminators`, `Marks.quotes`, `Marks.primaryStarts` — the marks

## Design Notes

A character may be a letter and a digit at once, such as a Roman numeral. Which of the two it is
taken for depends on what is asked first.
-/

namespace LosslessEbnf

/-- Whether `c` is a letter. -/
def isLetter (c : Char) : Bool := Text.isAlphabetic c

/-- Whether `c` is a digit. -/
def isDigit (c : Char) : Bool := Text.isNumeric c

/-- Whether `c` is white space. -/
def isSpace (c : Char) : Bool := Text.isWhiteSpace c

namespace Marks

/-- The marks between the definitions of a list. -/
def separators : List String := ["|", "/", "!"]

/-- The marks that end a product. -/
def terminators : List String := [";", "."]

/-- The quotes that may enclose a terminal. -/
def quotes : List String := ["\x22", "\x27", "\x60"]

/-- The characters besides letters that begin a primary. -/
def primaryStarts : List Char := ['(', '[', '\x7b', '?', '\x22', '\x27', '\x60']

end Marks

/-- Whether a primary can begin with `c`. -/
def beginsPrimary (c : Char) : Bool :=
  isLetter c || Marks.primaryStarts.contains c

/-- Whether a mark begins with `c`. -/
def beginsWith (c : Char) (mark : String) : Bool := mark.toList.head? == some c

/-- Whether `c` is one of the quotes. -/
def isQuote (c : Char) : Bool := Marks.quotes.any (beginsWith c)

/-- Whether a definition may be followed by another after `c`. -/
def isSeparator (c : Char) : Bool := Marks.separators.any (beginsWith c)

/-- Whether `c` may stand inside a name. -/
def isNamePart (c : Char) : Bool := isLetter c || isDigit c || isSpace c

end LosslessEbnf
