import LosslessEbnf.Symbols
import LosslessEbnf.Kind

/-!
# The grammar of the notation

What a text has to look like, as rules that do not mention how it is read.

## Main Definitions

* `Symbol` — what the rules are about
* `Dialect` — two points in which the rules may be read more or less strictly
* `Derives` — the front of a text is derived from a symbol, and the rest of it remains

## Design Notes

Some rules depend on what stands behind the text that they derive, so a derivation relates a text to
what remains of it. The number in a derivation bounds how deep comments and brackets are nested in
each other.

White space behind the primary of an exception may belong to the exception or to the term around it,
and a character may be a letter and a digit at once. The free dialect allows every choice. The
greedy one gives all of the white space to the exception. The eager one also has no primary of a
term begin with a digit.
-/

namespace LosslessEbnf

/-- The text is white space. -/
def Blank (text : List Char) : Prop := ∀ c ∈ text, isSpace c = true

/-- The closers that fit a bracket, whichever of its openers was used. -/
def Bracket.allClosers : Bracket → List String
  | repeated => ["\x7d", "/)"]
  | optional => ["]", ":)"]
  | grouped => [")"]

/-- Which components a term already has. -/
structure Used where
  /-- It has a repetition. -/
  repetition : Bool := false
  /-- It has a primary. -/
  primary : Bool := false
  /-- It has an exception. -/
  exception : Bool := false
  deriving DecidableEq, Repr

/-- What the rules are about. -/
inductive Symbol
  /-- The whole text. -/
  | text
  /-- A comment. -/
  | comment
  /-- What stands behind the opener of a comment. -/
  | commentRest
  /-- A product. -/
  | product
  /-- Definitions with separators between them. -/
  | definitions
  /-- A definition: terms with commas between them. -/
  | definition
  /-- A term. -/
  | term
  /-- Further components of a term. -/
  | components (used : Used)
  /-- A repetition. -/
  | repetition
  /-- An exception. -/
  | exception
  /-- A primary. -/
  | primary
  deriving DecidableEq, Repr

/-- How strictly the rules are read. -/
structure Dialect where
  /-- Whether the primary of a term may begin with the next character. -/
  opensTerm : Option Char → Bool
  /-- Whether an exception may end in front of the next character. -/
  endsException : Option Char → Bool

namespace Dialect

/-- The primary of a term may begin with any character that begins a primary, and an exception only
ends where no primary can begin. -/
def free : Dialect where
  opensTerm _ := true
  endsException next := !next.any beginsPrimary

/-- An exception only ends where neither a primary nor white space can begin. -/
def greedy : Dialect where
  opensTerm _ := true
  endsException next := !next.any fun c => beginsPrimary c || isSpace c

/-- The greedy dialect, less the primaries of a term that begin with a digit. -/
def eager : Dialect := { greedy with opensTerm := fun next => !next.any isDigit }

theorem opensTerm_eager_some {c : Char} : eager.opensTerm (some c) = true ↔ isDigit c = false := by
  show (!isDigit c) = true ↔ _
  rw [Bool.not_eq_true']

theorem endsException_eager_some {c : Char} :
    eager.endsException (some c) = true ↔ beginsPrimary c = false ∧ isSpace c = false := by
  show (!(beginsPrimary c || isSpace c)) = true ↔ _
  rw [Bool.not_eq_true', Bool.or_eq_false_iff]

end Dialect

/-- The front of the first text is derived from the symbol, the second text remains, and comments
and brackets are nested at most `n` deep. -/
inductive Derives (d : Dialect) : Symbol → Nat → List Char → List Char → Prop
  /-- `text = (comment | product | W+)*`, up to the end of the text. -/
  | text_end {n : Nat} : Derives d .text n [] []
  | text_comment {n : Nat} {s t r : List Char} (first : Derives d .comment n s t)
      (more : Derives d .text n t r) : Derives d .text n s r
  | text_product {n : Nat} {s t r : List Char} (first : Derives d .product n s t)
      (more : Derives d .text n t r) : Derives d .text n s r
  | text_space {n : Nat} {c : Char} {s r : List Char} (space : isSpace c = true)
      (more : Derives d .text n s r) : Derives d .text n (c :: s) r
  /-- `comment = '(*' rest`, `rest = '*)' | comment rest | c rest`. -/
  | comment {n : Nat} {s r : List Char} (rest : Derives d .commentRest n s r) :
      Derives d .comment (n + 1) ('(' :: '*' :: s) r
  | comment_end {n : Nat} {r : List Char} : Derives d .commentRest n ('*' :: ')' :: r) r
  | comment_nested {n : Nat} {s t r : List Char} (first : Derives d .comment n s t)
      (more : Derives d .commentRest n t r) : Derives d .commentRest n s r
  | comment_char {n : Nat} {c : Char} {s r : List Char} (no_end : ¬['*', ')'] <+: c :: s)
      (no_comment : ¬['(', '*'] <+: c :: s) (more : Derives d .commentRest n s r) :
      Derives d .commentRest n (c :: s) r
  /-- `product = L (L|N|W)* '=' W* definitions (';' | '.')`. -/
  | product {n : Nat} {c e : Char} {name blank s r : List Char} (letter : isLetter c = true)
      (parts : ∀ x ∈ name, isNamePart x = true) (spaces : Blank blank)
      (body : Derives d .definitions n s (e :: r)) (ends : e = ';' ∨ e = '.') :
      Derives d .product n (c :: (name ++ '=' :: (blank ++ s))) r
  /-- `definitions = definition (('|' | '!' | '/' not in front of ')') definition)*`. -/
  | definitions_last {n : Nat} {s r : List Char} (only : Derives d .definition n s r) :
      Derives d .definitions n s r
  | definitions_more {n : Nat} {c : Char} {s t r : List Char}
      (first : Derives d .definition n s (c :: t))
      (separates : c = '|' ∨ c = '!' ∨ c = '/' ∧ t.head? ≠ some ')')
      (more : Derives d .definitions n t r) : Derives d .definitions n s r
  /-- `definition = W* [term] (',' W* [term])*`. -/
  | definition_empty {n : Nat} {blank r : List Char} (spaces : Blank blank) :
      Derives d .definition n (blank ++ r) r
  | definition_term {n : Nat} {blank s r : List Char} (spaces : Blank blank)
      (only : Derives d .term n s r) : Derives d .definition n (blank ++ s) r
  | definition_empty_more {n : Nat} {blank s r : List Char} (spaces : Blank blank)
      (more : Derives d .definition n s r) : Derives d .definition n (blank ++ ',' :: s) r
  | definition_term_more {n : Nat} {blank s t r : List Char} (spaces : Blank blank)
      (first : Derives d .term n s (',' :: t)) (more : Derives d .definition n t r) :
      Derives d .definition n (blank ++ s) r
  /-- A term begins with a repetition or a primary, and has each component at most once. -/
  | term_repetition {n : Nat} {s t r : List Char} (first : Derives d .repetition n s t)
      (more : Derives d (.components ⟨true, false, false⟩) n t r) : Derives d .term n s r
  | term_primary {n : Nat} {s t r : List Char} (opens : d.opensTerm s.head? = true)
      (first : Derives d .primary n s t)
      (more : Derives d (.components ⟨false, true, false⟩) n t r) : Derives d .term n s r
  | components_end {n : Nat} {used : Used} {r : List Char} : Derives d (.components used) n r r
  | components_space {n : Nat} {used : Used} {c : Char} {s r : List Char}
      (space : isSpace c = true) (more : Derives d (.components used) n s r) :
      Derives d (.components used) n (c :: s) r
  | components_repetition {n : Nat} {used : Used} {s t r : List Char}
      (unused : used.repetition = false) (first : Derives d .repetition n s t)
      (more : Derives d (.components { used with repetition := true }) n t r) :
      Derives d (.components used) n s r
  | components_primary {n : Nat} {used : Used} {s t r : List Char} (unused : used.primary = false)
      (opens : d.opensTerm s.head? = true) (first : Derives d .primary n s t)
      (more : Derives d (.components { used with primary := true }) n t r) :
      Derives d (.components used) n s r
  | components_exception {n : Nat} {used : Used} {s t r : List Char}
      (unused : used.exception = false) (first : Derives d .exception n s t)
      (more : Derives d (.components { used with exception := true }) n t r) :
      Derives d (.components used) n s r
  /-- `repetition = N+ W* '*'`. -/
  | repetition {n : Nat} {c : Char} {digits blank r : List Char} (digit : isDigit c = true)
      (all_digits : ∀ x ∈ digits, isDigit x = true) (spaces : Blank blank) :
      Derives d .repetition n (c :: (digits ++ (blank ++ '*' :: r))) r
  /-- `exception = '-' W* [primary W*]`. -/
  | exception_empty {n : Nat} {blank r : List Char} (spaces : Blank blank)
      (ends : d.endsException r.head? = true) : Derives d .exception n ('-' :: (blank ++ r)) r
  | exception_primary {n : Nat} {before behind s r : List Char} (spaces_before : Blank before)
      (first : Derives d .primary n s (behind ++ r)) (spaces_behind : Blank behind)
      (ends : d.endsException r.head? = true) : Derives d .exception n ('-' :: (before ++ s)) r
  /-- `primary = L (L|N|W)*`, as long as it can be. -/
  | primary_name {n : Nat} {c : Char} {name r : List Char} (letter : isLetter c = true)
      (parts : ∀ x ∈ name, isNamePart x = true) (ends : r.head?.any isNamePart = false) :
      Derives d .primary n (c :: (name ++ r)) r
  /-- `primary = q (any character but q)* q`, for each of the quotes and for the question mark. -/
  | primary_quoted {n : Nat} {q : Char} {text r : List Char} (mark : isQuote q = true ∨ q = '?')
      (free : ∀ x ∈ text, x ≠ q) : Derives d .primary n (q :: (text ++ q :: r)) r
  /-- `primary = opener W* definitions closer`. A `(` in front of a `/` or a `:` opens no group. -/
  | primary_bracket {n : Nat} {b : Bracket} {opener closer : String} {blank s r : List Char}
      (opens : opener ∈ b.openers)
      (no_opener : b = .grouped → (blank ++ s).head? ≠ some '/' ∧ (blank ++ s).head? ≠ some ':')
      (spaces : Blank blank) (body : Derives d .definitions n s (closer.toList ++ r))
      (closes : closer ∈ b.allClosers) :
      Derives d .primary (n + 1) (opener.toList ++ (blank ++ s)) r

/-- What remains behind a symbol is the end of the text that it was derived from. -/
theorem Derives.suffix {d : Dialect} {symbol : Symbol} {n : Nat} {s r : List Char}
    (h : Derives d symbol n s r) : r <:+ s := by
  induction h with
  | text_end | components_end => exact List.suffix_rfl
  | definition_empty => exact List.suffix_append ..
  | text_comment _ _ ih ih' | text_product _ _ ih ih' | comment_nested _ _ ih ih'
  | term_repetition _ _ ih ih' | term_primary _ _ _ ih ih' | components_repetition _ _ _ ih ih'
  | components_primary _ _ _ _ ih ih' | components_exception _ _ _ ih ih' => exact ih'.trans ih
  | text_space _ _ ih | comment_char _ _ _ ih | components_space _ _ ih =>
    exact ih.trans (List.suffix_cons ..)
  | comment _ ih => exact ih.trans (List.suffix_append ['(', '*'] _)
  | comment_end => exact List.suffix_append ['*', ')'] _
  | definitions_last _ ih => exact ih
  | definitions_more _ _ _ ih ih' => exact ih'.trans ((List.suffix_cons ..).trans ih)
  | definition_term _ _ ih => exact ih.trans (List.suffix_append ..)
  | definition_empty_more _ _ ih =>
    exact ih.trans ((List.suffix_cons ..).trans (List.suffix_append ..))
  | definition_term_more _ _ _ ih ih' =>
    exact ih'.trans ((List.suffix_cons ..).trans (ih.trans (List.suffix_append ..)))
  | @product _ c e name blank _ _ _ _ _ _ _ ih =>
    obtain ⟨front, rfl⟩ := ih
    exact ⟨c :: (name ++ '=' :: (blank ++ (front ++ [e]))), by simp⟩
  | @repetition _ c digits blank => exact ⟨c :: (digits ++ (blank ++ ['*'])), by simp⟩
  | exception_empty => exact ⟨'-' :: _, rfl⟩
  | @exception_primary _ before behind _ _ _ _ _ _ ih =>
    obtain ⟨front, rfl⟩ := ih
    exact ⟨'-' :: (before ++ (front ++ behind)), by simp⟩
  | primary_name => exact ⟨_ :: _, rfl⟩
  | @primary_quoted _ q inner => exact ⟨q :: (inner ++ [q]), by simp⟩
  | @primary_bracket _ _ opener closer blank _ _ _ _ _ _ _ ih =>
    obtain ⟨front, rfl⟩ := ih
    exact ⟨opener.toList ++ (blank ++ (front ++ closer.toList)), by simp⟩

/-- The whole text is derived, with comments and brackets nested at most `n` deep. -/
def Dialect.Accepts (d : Dialect) (n : Nat) (text : String) : Prop :=
  Derives d .text n text.toList []

end LosslessEbnf
