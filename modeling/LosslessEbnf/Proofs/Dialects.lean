import LosslessEbnf.Proofs.Classes
import LosslessEbnf.Proofs.Grammar

/-!
# Dialects of the grammar

When a derivation of one dialect is one of another dialect, too.

## Main Definitions

* `Dialect.Yields` — what one dialect allows at a text, another one allows there
* `Unmixed` — no character of a text is a letter and a digit

## Main Statements

* `Derives.mono` — a derivation stays one in a dialect that allows as much
* `Derives.free` — every dialect here is a part of the free one
* `Derives.eager` — in an unmixed text the greedy dialect derives no more than the eager one

## Design Notes

A rule looks at the character with which a primary begins and at the one behind an exception. The
first one is part of the text that is derived. So what a dialect allows is compared along a text and
what remains of it, and not for all characters.
-/

namespace LosslessEbnf

/-- What the one dialect allows at the characters of the text, the other one allows there. -/
structure Dialect.Yields (d d' : Dialect) (text : List Char) : Prop where
  /-- The primary of a term may begin with the same characters. -/
  opensTerm : ∀ c ∈ text, beginsPrimary c = true → d.opensTerm (some c) = true →
    d'.opensTerm (some c) = true
  /-- An exception may end in front of the same characters. -/
  endsException : ∀ next, d.endsException next = true → d'.endsException next = true

theorem Dialect.Yields.suffix {d d' : Dialect} {s t : List Char} (h : d.Yields d' s)
    (hsuffix : t <:+ s) : d.Yields d' t :=
  ⟨fun c hc => h.opensTerm c (hsuffix.subset hc), h.endsException⟩

namespace Derives

variable {d d' : Dialect} {symbol : Symbol} {n : Nat} {s r : List Char}

/-- What is derived from a primary begins with a character that begins one, in whatever dialect. -/
theorem exists_beginsPrimary (h : Derives d .primary n s r) :
    ∃ c t, s = c :: t ∧ beginsPrimary c = true := by
  cases h with
  | primary_name letter parts ends =>
    exact ⟨_, _, rfl, by rw [beginsPrimary, letter, Bool.true_or]⟩
  | primary_quoted mark free =>
    refine ⟨_, _, rfl, Marks.beginsPrimary_of_mem ?_⟩
    rcases mark with hquote | rfl
    · exact Marks.mem_of_isQuote hquote
    · decide
  | @primary_bracket _ b opener _ blank s _ opens =>
    have hall : ∀ b : Bracket, ∀ opener ∈ b.openers,
        opener.toList.head?.any Marks.primaryStarts.contains = true := by
      intro b
      cases b <;> decide
    have hstart := hall b opener opens
    cases hopener : opener.toList with
    | nil =>
      rw [hopener] at hstart
      cases hstart
    | cons c more =>
      rw [hopener] at hstart
      exact ⟨c, more ++ (blank ++ s), rfl,
        Marks.beginsPrimary_of_mem (List.contains_iff_mem.mp hstart)⟩

/-- Where the one dialect lets a term go on with a primary, the other one does, too. -/
theorem opensTerm_mono (h : d.Yields d' s) (first : Derives d .primary n s r)
    (opens : d.opensTerm s.head? = true) : d'.opensTerm s.head? = true := by
  obtain ⟨c, t, rfl, hbegins⟩ := first.exists_beginsPrimary
  exact h.opensTerm c List.mem_cons_self hbegins opens

/-- What is derived in a dialect is derived in each one that allows as much at the characters of the
text. -/
theorem mono (hderives : Derives d symbol n s r) (h : d.Yields d' s) : Derives d' symbol n s r := by
  -- the induction is on the derivation, and every part of it is about what remains of the text
  induction hderives with
  | text_end => exact .text_end
  | text_comment first _ ih ih' => exact .text_comment (ih h) (ih' (h.suffix first.suffix))
  | text_product first _ ih ih' => exact .text_product (ih h) (ih' (h.suffix first.suffix))
  | text_space space _ ih => exact .text_space space (ih (h.suffix (List.suffix_cons ..)))
  | comment _ ih => exact .comment (ih (h.suffix (List.suffix_append ['(', '*'] _)))
  | comment_end => exact .comment_end
  | comment_nested first _ ih ih' => exact .comment_nested (ih h) (ih' (h.suffix first.suffix))
  | comment_char no_end no_comment _ ih =>
    exact .comment_char no_end no_comment (ih (h.suffix (List.suffix_cons ..)))
  | @product _ c e name blank s r letter parts spaces _ ends ih =>
    have hbody : s <:+ c :: (name ++ '=' :: (blank ++ s)) := ⟨c :: (name ++ '=' :: blank), by simp⟩
    exact .product letter parts spaces (ih (h.suffix hbody)) ends
  | definitions_last _ ih => exact .definitions_last (ih h)
  | definitions_more first separates _ ih ih' =>
    exact .definitions_more (ih h) separates
      (ih' (h.suffix ((List.suffix_cons ..).trans first.suffix)))
  | definition_empty spaces => exact .definition_empty spaces
  | definition_term spaces _ ih =>
    exact .definition_term spaces (ih (h.suffix (List.suffix_append ..)))
  | definition_empty_more spaces _ ih =>
    exact .definition_empty_more spaces
      (ih (h.suffix ((List.suffix_cons ..).trans (List.suffix_append ..))))
  | definition_term_more spaces first _ ih ih' =>
    have hterm := h.suffix (List.suffix_append ..)
    exact .definition_term_more spaces (ih hterm)
      (ih' (hterm.suffix ((List.suffix_cons ..).trans first.suffix)))
  | term_repetition first _ ih ih' => exact .term_repetition (ih h) (ih' (h.suffix first.suffix))
  | term_primary opens first _ ih ih' =>
    exact .term_primary (opensTerm_mono h first opens) (ih h) (ih' (h.suffix first.suffix))
  | components_end => exact .components_end
  | components_space space _ ih =>
    exact .components_space space (ih (h.suffix (List.suffix_cons ..)))
  | components_repetition unused first _ ih ih' =>
    exact .components_repetition unused (ih h) (ih' (h.suffix first.suffix))
  | components_primary unused opens first _ ih ih' =>
    exact .components_primary unused (opensTerm_mono h first opens) (ih h)
      (ih' (h.suffix first.suffix))
  | components_exception unused first _ ih ih' =>
    exact .components_exception unused (ih h) (ih' (h.suffix first.suffix))
  | repetition digit all_digits spaces => exact .repetition digit all_digits spaces
  | exception_empty spaces ends => exact .exception_empty spaces (h.endsException _ ends)
  | @exception_primary _ before _ s _ spaces_before _ spaces_behind ends ih =>
    have hprimary : s <:+ '-' :: (before ++ s) := ⟨'-' :: before, rfl⟩
    exact .exception_primary spaces_before (ih (h.suffix hprimary)) spaces_behind
      (h.endsException _ ends)
  | primary_name letter parts ends => exact .primary_name letter parts ends
  | primary_quoted mark free => exact .primary_quoted mark free
  | @primary_bracket _ _ opener _ blank s _ opens no_opener spaces _ closes ih =>
    have hbody : s <:+ opener.toList ++ (blank ++ s) := ⟨opener.toList ++ blank, by simp⟩
    exact .primary_bracket opens no_opener spaces (ih (h.suffix hbody)) closes

/-- What is derived in the eager dialect is derived in the greedy one, which lets the primary of a
term begin with a digit, too. -/
theorem greedy (h : Derives .eager symbol n s r) : Derives .greedy symbol n s r :=
  h.mono ⟨fun _ _ _ _ => rfl, fun _ => id⟩

/-- What is derived in the greedy dialect is derived in the free one, which does not mind white
space behind an exception. -/
theorem free (h : Derives .greedy symbol n s r) : Derives .free symbol n s r := by
  refine h.mono ⟨fun _ _ _ _ => rfl, fun next hnext => ?_⟩
  cases next with
  | none => rfl
  | some c =>
    show (!beginsPrimary c) = true
    rw [(Dialect.endsException_eager_some.mp hnext).1]
    rfl

end Derives

/-- No character of the text is a letter and a digit at once. -/
def Unmixed (text : List Char) : Prop := ∀ c ∈ text, ¬(isLetter c = true ∧ isDigit c = true)

instance (text : List Char) : Decidable (Unmixed text) :=
  List.decidableBAll (fun c => ¬(isLetter c = true ∧ isDigit c = true)) text

/-- No digit of an unmixed text begins a primary. -/
theorem Unmixed.isDigit_eq_false {text : List Char} (h : Unmixed text) {c : Char} (hc : c ∈ text)
    (hbegins : beginsPrimary c = true) : isDigit c = false := by
  rw [beginsPrimary, Bool.or_eq_true] at hbegins
  rcases hbegins with hletter | hmark
  · exact Bool.eq_false_iff.mpr fun hdigit => h c hc ⟨hletter, hdigit⟩
  · exact Marks.isDigit_eq_false (List.mem_append_left _ (List.contains_iff_mem.mp hmark))

/-- What is derived from an unmixed text in the greedy dialect is derived in the eager one: no
primary begins with a digit there. -/
theorem Derives.eager {symbol : Symbol} {n : Nat} {s r : List Char}
    (h : Derives .greedy symbol n s r) (hunmixed : Unmixed s) : Derives .eager symbol n s r :=
  h.mono ⟨fun _ hc hbegins _ =>
    Dialect.opensTerm_eager_some.mpr (hunmixed.isDigit_eq_false hc hbegins), fun _ => id⟩

end LosslessEbnf
