import LosslessEbnf.Parse
import LosslessEbnf.Proofs.Completeness
import LosslessEbnf.Proofs.Dialects
import LosslessEbnf.Proofs.Soundness

/-!
# Recognition

A text can be read just if it is derived from the grammar.

## Main Statements

* `isOk_parseText_iff` — the texts that can be read are those of the eager dialect
* `grammar_of_parseText` — what the dialects say about the texts that can be read
* `refused_of_free` — a text of the free dialect that cannot be read

## Design Notes

An exception goes on as long as white space follows, and behind it no primary can begin. So the
machine reads texts of the greedy dialect. It also asks for the digits of a repetition before it
asks for a primary, and so reads only those whose terms have no primary that begins with a digit.
That is a question only for the few characters that are letters, too.
-/

namespace LosslessEbnf

/-- The machine accepts what is derived from the grammar, within the limit that the derivation
keeps. -/
theorem acceptsFrom_of_derives {limit : Nat} {text : List Char}
    (h : Derives .eager .text limit text []) : AcceptsFrom limit [.grammar false] text := by
  have hdriven := driven_of_derives limit h (Nat.le_refl limit)
  have hbegun : AcceptsFrom limit [.grammar true] text :=
    acceptsFrom_of_skipSpace rfl hdriven
  refine acceptsFrom_of_step fun here tree => ?_
  cases text with
  | nil => trivial
  | cons c text => exact hbegun

/-- **Recognition.** A text can be read just if it is derived from the grammar, with comments and
brackets nested no deeper than the limit. -/
theorem isOk_parseText_iff (text : String) (maxNesting : Nat) :
    (parseText text maxNesting).isOk = true ↔ Dialect.eager.Accepts maxNesting text := by
  rw [parseText_eq, Dialect.Accepts]
  constructor
  · intro hok
    cases hrun : runText maxNesting .initial text.toList with
    | error error =>
      rw [hrun] at hok
      cases hok
    | ok tree =>
      obtain ⟨r, hderives, hr⟩ := residual_of_runText Config.Between.initial hrun
      rw [residual_nil] at hr
      subst hr
      exact hderives
  · intro hderives
    exact acceptsFrom_of_derives hderives .empty .start

/-! ### The dialects -/

/-- **The grammar.** What is read is derived from the grammar, with comments and brackets nested no
deeper than the limit, and an exception takes all white space behind it. What is derived so is read
if no primary of a term begins with a digit. In a text without characters that are a letter and a
digit none does, and there these are just the texts that are read. -/
theorem grammar_of_parseText (text : String) (maxNesting : Nat) :
    ((parseText text maxNesting).isOk = true → Dialect.greedy.Accepts maxNesting text) ∧
      (Dialect.eager.Accepts maxNesting text → (parseText text maxNesting).isOk = true) ∧
      (Unmixed text.toList →
        ((parseText text maxNesting).isOk = true ↔ Dialect.greedy.Accepts maxNesting text)) ∧
      (Dialect.greedy.Accepts maxNesting text → Dialect.free.Accepts maxNesting text) := by
  have hiff := isOk_parseText_iff text maxNesting
  have hgreedy : (parseText text maxNesting).isOk = true →
      Dialect.greedy.Accepts maxNesting text := fun hok => (hiff.mp hok).greedy
  exact ⟨hgreedy, hiff.mpr,
    fun hunmixed => ⟨hgreedy, fun h => hiff.mpr (Derives.eager h hunmixed)⟩, Derives.free⟩

/-- A product of a single term is a text. -/
theorem Derives.text_of_term {d : Dialect} {n : Nat} {c : Char} {s : List Char}
    (letter : isLetter c = true) (term : Derives d .term n s [';']) :
    Derives d .text n (c :: '=' :: s) [] := by
  have hdefinition : Derives d .definition n ([] ++ s) [';'] := .definition_term blank_nil term
  have hproduct : Derives d .product n (c :: ([] ++ '=' :: ([] ++ s))) [] :=
    .product letter (List.forall_mem_nil _) blank_nil (.definitions_last hdefinition) (Or.inl rfl)
  exact .text_product hproduct .text_end

/-- A product that refers to a name, the smallest text with a term. -/
theorem grammar_of_parseText_name :
    Dialect.eager.Accepts 0 "x=y;" ∧ Unmixed "x=y;".toList ∧ (parseText "x=y;" 0).isOk = true ∧
      Dialect.greedy.Accepts 0 "x=y;" ∧ Dialect.free.Accepts 0 "x=y;" := by
  have hname : Derives .eager .primary 0 ('y' :: ([] ++ [';'])) [';'] :=
    .primary_name (by decide +kernel) (List.forall_mem_nil _) (by decide +kernel)
  have heager : Dialect.eager.Accepts 0 "x=y;" :=
    .text_of_term (by decide +kernel) (.term_primary (by decide +kernel) hname .components_end)
  have hunmixed : Unmixed "x=y;".toList := by decide +kernel
  obtain ⟨-, hread, hsame, hfree⟩ := grammar_of_parseText "x=y;" 0
  have hok := hread heager
  have hgreedy := (hsame hunmixed).mp hok
  exact ⟨heager, hunmixed, hok, hgreedy, hfree hgreedy⟩

/-- A text of the free dialect that cannot be read: the blank is taken for a part of the exception,
which no primary can follow. -/
theorem refused_of_free :
    Dialect.free.Accepts 0 "x=2*-'a' 'b';" ∧ (parseText "x=2*-'a' 'b';" 0).isOk = false := by
  refine ⟨?_, by decide +kernel⟩
  have hrepetition : Derives .free .repetition 0
      ('2' :: ([] ++ ([] ++ '*' :: "-'a' 'b';".toList))) "-'a' 'b';".toList :=
    .repetition (by decide +kernel) (List.forall_mem_nil _) blank_nil
  have hfirst : Derives .free .primary 0 ('\x27' :: (['a'] ++ '\x27' :: ([] ++ " 'b';".toList)))
      ([] ++ " 'b';".toList) :=
    .primary_quoted (Or.inl (by decide)) (List.forall_mem_singleton.mpr (by decide))
  have hexception :
      Derives .free .exception 0 ('-' :: ([] ++ "'a' 'b';".toList)) " 'b';".toList :=
    .exception_primary blank_nil hfirst blank_nil (by decide +kernel)
  have hsecond : Derives .free .primary 0 ('\x27' :: (['b'] ++ '\x27' :: [';'])) [';'] :=
    .primary_quoted (Or.inl (by decide)) (List.forall_mem_singleton.mpr (by decide))
  have hcomponents : Derives .free (.components ⟨true, false, true⟩) 0 " 'b';".toList [';'] :=
    .components_space (by decide +kernel) (.components_primary rfl rfl hsecond .components_end)
  have hterm : Derives .free .term 0 "2*-'a' 'b';".toList [';'] :=
    .term_repetition hrepetition (.components_exception rfl hexception hcomponents)
  exact .text_of_term (by decide +kernel) hterm

end LosslessEbnf
