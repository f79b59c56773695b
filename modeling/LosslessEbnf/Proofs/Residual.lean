import LosslessEbnf.Machine.Step
import LosslessEbnf.Proofs.Grammar
import LosslessEbnf.Proofs.Waiting

/-!
# What open productions still need

A stack of open productions stands for what the rest of the text has to look like: first what
completes the production on top, then what completes the one around it, and so on.

## Main Definitions

* `Frame.Completes` — the front of a text completes an open production, and the rest of it remains
* `Residual` — a text completes all open productions

## Main Statements

* `Frame.completes_space` — white space may stand where a run of white space may begin

## Design Notes

The characters that a production holds back belong to what completes it. The closer `/)` of a repeat
is seen by the definitions in front of it; to the grammar it is a closer like any other.
-/

namespace LosslessEbnf

/-- Which components a term has. -/
def TermParts.used (parts : TermParts) : Used :=
  ⟨parts.repetition.isSome, parts.primary.isSome, parts.exception.isSome⟩

/-- What may stand behind the `=` of a product. -/
def ProductBody (n : Nat) (s r : List Char) : Prop :=
  ∃ blank t e, s = blank ++ t ∧ Blank blank ∧ Derives .eager .definitions n t (e :: r) ∧
    (e = ';' ∨ e = '.')

/-- What may stand behind a definition. -/
def DefinitionsRest (n : Nat) (s r : List Char) : Prop :=
  s = r ∨ ∃ c t, s = c :: t ∧ (c = '|' ∨ c = '!' ∨ c = '/' ∧ t.head? ≠ some ')') ∧
    Derives .eager .definitions n t r

/-- What may stand behind a term. -/
def DefinitionRest (n : Nat) (s r : List Char) : Prop :=
  ∃ blank t, s = blank ++ t ∧ Blank blank ∧
    (t = r ∨ ∃ u, t = ',' :: u ∧ Derives .eager .definition n u r)

/-- What may stand behind the opener of a bracket. -/
def BracketBody (b : Bracket) (n : Nat) (s r : List Char) : Prop :=
  ∃ blank t closer, s = blank ++ t ∧ Blank blank ∧
    Derives .eager .definitions n t (closer.toList ++ r) ∧ closer ∈ b.allClosers

/-- The front of the first text completes the production, and the second text remains; comments and
brackets in it are nested at most `n` deep. -/
def Frame.Completes (n : Nat) : Frame → List Char → List Char → Prop
  | .grammar _, s, r => Derives .eager .text n s r
  | .comment _ _ .body, s, r => Derives .eager .commentRest n s r
  | .comment _ _ (.mark c _), s, r => Derives .eager .commentRest n (c :: s) r
  | .comment _ _ (.opened _), s, r => Derives .eager .commentRest n ('(' :: '*' :: s) r
  | .product _ _ .name, s, r => ∃ t, s = '=' :: t ∧ ProductBody n t r
  | .product _ _ .equals, s, r => ProductBody n s r
  | .product _ _ (.body _ none), s, r => s = ';' :: r ∨ s = '.' :: r
  | .product _ _ (.body _ (some _)), _, _ => False
  | .definitions _ .start, s, r => Derives .eager .definitions n s r
  | .definitions _ .afterDefinition, s, r => DefinitionsRest n s r
  | .definitions _ (.afterSlash _), s, r => DefinitionsRest n ('/' :: s) r
  | .definition _ _ none, s, r => Derives .eager .definition n s r
  | .definition _ _ (some _), s, r => DefinitionRest n s r
  | .term _ parts false, s, r => Derives .eager (.components parts.used) n s r
  | .term _ parts true, s, r => ∃ t, Derives .eager .exception n ('-' :: s) t ∧
      Derives .eager (.components { parts.used with exception := true }) n t r
  | .exception _ _ none, s, r => Derives .eager .exception n ('-' :: s) r
  | .exception _ _ (some _), s, r => ∃ blank, s = blank ++ r ∧ Blank blank ∧
      Dialect.eager.endsException r.head? = true
  | .repetition _, s, r => ∃ blank, s = blank ++ '*' :: r ∧ Blank blank
  | .paren .., s, r => Derives .eager .primary n ('(' :: s) r
  | .opener b _ _, s, r =>
    b ≠ .grouped → Derives .eager .primary n (b.roundOpener.toList ++ s) r
  | .bracket b _ (.opened _), s, r => BracketBody b n s r
  | .bracket b _ (.body none), s, r => ∃ closer ∈ b.allClosers, s = closer.toList ++ r
  | .bracket b _ (.body (some _)), s, r => b = .repeated ∧ s = r
  | .quoted form _ _, s, r => ∃ text, s = text ++ form.mark :: r ∧ ∀ x ∈ text, x ≠ form.mark
  | .identifier .., s, r => ∃ name, s = name ++ r ∧ (∀ x ∈ name, isNamePart x = true) ∧
      r.head?.any isNamePart = false
  | .run kind _, s, r => ∃ text, s = text ++ r ∧ ∀ x ∈ text, kind.holds x = true
  | .literal _ candidates read _, s, r => ∃ mark ∈ candidates, mark.toList ++ r = read ++ s
  | .matched .., s, r => s = r
  | .closing _, s, r => s = r

/-- The text completes all open productions, with comments and brackets nested at most `limit` deep,
those that are open already included. -/
def Residual (limit : Nat) : List Frame → List Char → Prop
  | [], s => s = []
  | frame :: below, s =>
    ∃ r, frame.Completes (limit - nesting (frame :: below)) s r ∧ Residual limit below r

@[simp] theorem residual_nil {limit : Nat} {s : List Char} : Residual limit [] s ↔ s = [] := Iff.rfl

/-- A production that is neither a comment nor a bracket does not count for the nesting. -/
theorem nesting_cons_of_not_nests {frame : Frame} {below : List Frame}
    (h : frame.nests = false) : nesting (frame :: below) = nesting below := by
  rw [nesting, List.countP_cons_of_neg (by rw [h]; exact Bool.false_ne_true)]
  rfl

theorem nesting_cons_of_nests {frame : Frame} {below : List Frame}
    (h : frame.nests = true) : nesting (frame :: below) = nesting below + 1 := by
  rw [nesting, List.countP_cons_of_pos h]
  rfl

/-! ### Nesting -/

/-- A comment fits in where the limit is not reached. -/
theorem Derives.comment_within {d : Dialect} {limit n : Nat} {s r : List Char} (h : ¬limit ≤ n)
    (rest : Derives d .commentRest (limit - (n + 1)) s r) :
    Derives d .comment (limit - n) ('(' :: '*' :: s) r := by
  have hsucc : limit - n = limit - (n + 1) + 1 := by omega
  rw [hsucc]
  exact .comment rest

/-- A bracket fits in where the limit is not reached. -/
theorem BracketBody.primary_within {limit n : Nat} {b : Bracket} {opener : String} {s r : List Char}
    (body : BracketBody b (limit - (n + 1)) s r) (h : ¬limit ≤ n) (hopener : opener ∈ b.openers)
    (no_opener : b = .grouped → s.head? ≠ some '/' ∧ s.head? ≠ some ':') :
    Derives .eager .primary (limit - n) (opener.toList ++ s) r := by
  obtain ⟨blank, t, closer, rfl, hblank, hbody, hcloser⟩ := body
  have hsucc : limit - n = limit - (n + 1) + 1 := by omega
  rw [hsucc]
  exact .primary_bracket hopener no_opener hblank hbody hcloser

/-- The opener with a round bracket is one of the openers. -/
theorem Bracket.roundOpener_mem (b : Bracket) : b.roundOpener ∈ b.openers := by
  cases b <;> decide

/-- The closers that are looked for are closers. -/
theorem Bracket.closers_subset (b : Bracket) {closer : String} (h : closer ∈ b.closers) :
    closer ∈ b.allClosers := by
  cases b with
  | repeated => exact List.mem_cons.mpr (Or.inl (List.mem_singleton.mp h))
  | optional => exact h
  | grouped => exact h

/-! ### White space -/

theorem blank_nil : Blank [] := List.forall_mem_nil _

theorem Blank.cons {c : Char} {text : List Char} (hc : isSpace c = true) (h : Blank text) :
    Blank (c :: text) := by
  intro x hx
  rcases List.mem_cons.mp hx with rfl | hx
  · exact hc
  · exact h x hx

/-- White space may stand in front of a definition. -/
theorem Derives.definition_space {d : Dialect} {n : Nat} {c : Char} {s r : List Char}
    (hc : isSpace c = true) (h : Derives d .definition n s r) :
    Derives d .definition n (c :: s) r := by
  cases h with
  | definition_empty spaces => exact .definition_empty (spaces.cons hc)
  | definition_term spaces only => exact .definition_term (spaces.cons hc) only
  | definition_empty_more spaces more => exact .definition_empty_more (spaces.cons hc) more
  | definition_term_more spaces first more =>
    exact .definition_term_more (spaces.cons hc) first more

/-- White space may stand in front of definitions. -/
theorem Derives.definitions_space {d : Dialect} {n : Nat} {c : Char} {s r : List Char}
    (hc : isSpace c = true) (h : Derives d .definitions n s r) :
    Derives d .definitions n (c :: s) r := by
  cases h with
  | definitions_last only => exact .definitions_last (only.definition_space hc)
  | definitions_more first separates more =>
    exact .definitions_more (first.definition_space hc) separates more

/-- White space may stand behind a `-`. -/
theorem Derives.exception_space {d : Dialect} {n : Nat} {c : Char} {s r : List Char}
    (hc : isSpace c = true) (h : Derives d .exception n ('-' :: s) r) :
    Derives d .exception n ('-' :: c :: s) r := by
  cases h with
  | exception_empty spaces ends => exact .exception_empty (spaces.cons hc) ends
  | exception_primary before first behind ends =>
    exact .exception_primary (before.cons hc) first behind ends

/-- White space behind the components of a term may be taken for one of them. The induction is on
the derivation, down to the end of the components. -/
theorem Derives.components_space_behind {d : Dialect} {used : Used} {n : Nat} {c : Char}
    {s r : List Char} (hc : isSpace c = true) (h : Derives d (.components used) n s (c :: r)) :
    Derives d (.components used) n s r := by
  generalize hsymbol : Symbol.components used = symbol at h
  generalize hrest : c :: r = rest at h
  induction h generalizing used with
  | components_end =>
    subst hrest
    exact .components_space hc .components_end
  | components_space space _ ih => exact .components_space space (ih hsymbol hrest)
  | components_repetition unused first _ _ ih =>
    cases hsymbol
    exact .components_repetition unused first (ih rfl hrest)
  | components_primary unused opens first _ _ ih =>
    cases hsymbol
    exact .components_primary unused opens first (ih rfl hrest)
  | components_exception unused first _ _ ih =>
    cases hsymbol
    exact .components_exception unused first (ih rfl hrest)
  | _ => cases hsymbol

/-- White space behind a term may be taken for a part of it. -/
theorem Derives.term_blank {d : Dialect} {n : Nat} {blank s r : List Char} (hblank : Blank blank)
    (h : Derives d .term n s (blank ++ r)) : Derives d .term n s r := by
  induction blank with
  | nil => exact h
  | cons c blank ih =>
    refine ih (fun x hx => hblank x (List.mem_cons_of_mem c hx)) ?_
    have hc := hblank c List.mem_cons_self
    cases h with
    | term_repetition first more => exact .term_repetition first (more.components_space_behind hc)
    | term_primary opens first more =>
      exact .term_primary opens first (more.components_space_behind hc)

/-- What may stand behind a term is a definition: nothing, or a comma and what may follow it. -/
theorem DefinitionRest.definition {n : Nat} {s r : List Char} (h : DefinitionRest n s r) :
    Derives .eager .definition n s r := by
  obtain ⟨blank, t, rfl, hblank, rfl | ⟨u, rfl, hu⟩⟩ := h
  · exact .definition_empty hblank
  · exact .definition_empty_more hblank hu

/-- What may stand behind a term makes a definition with the term in front. -/
theorem DefinitionRest.definition_of_term {n : Nat} {s t r : List Char} (h : DefinitionRest n t r)
    (hterm : Derives .eager .term n s t) : Derives .eager .definition n s r := by
  obtain ⟨blank, u, rfl, hblank, rfl | ⟨v, rfl, hv⟩⟩ := h
  · exact .definition_term blank_nil (hterm.term_blank hblank)
  · exact .definition_term_more blank_nil (hterm.term_blank hblank) hv

/-- Components that begin with a digit or a primary are a term. -/
theorem Derives.definition_of_components {n : Nat} {c : Char} {s t r : List Char}
    (hspace : isSpace c = false) (hc : (isDigit c || beginsPrimary c) = true)
    (hrest : DefinitionRest n t r) (h : Derives .eager (.components {}) n (c :: s) t) :
    Derives .eager .definition n (c :: s) r := by
  cases h with
  | components_end => exact hrest.definition
  | components_space space => rw [hspace] at space; cases space
  | components_repetition _ first more =>
    exact hrest.definition_of_term (.term_repetition first more)
  | components_primary _ opens first more =>
    exact hrest.definition_of_term (.term_primary opens first more)
  | components_exception _ first =>
    cases first with
    | exception_empty | exception_primary => exact absurd hc (by decide)

/-- White space may stand where a run of white space may begin, since each of these productions may
have any amount of it there. -/
theorem Frame.completes_space {frame : Frame} {n : Nat} {c : Char} {s r : List Char}
    (hmem : .space ∈ frame.components) (hc : isSpace c = true) (h : frame.Completes n s r) :
    frame.Completes n (c :: s) r := by
  match frame, hmem, h with
  | .grammar _, _, h => exact .text_space hc h
  | .product _ _ .equals, _, ⟨blank, t, e, hs, hblank, hbody⟩ =>
    exact ⟨c :: blank, t, e, congrArg (c :: ·) hs, hblank.cons hc, hbody⟩
  | .definitions _ .start, _, h => exact h.definitions_space hc
  | .definition _ _ none, _, h => exact h.definition_space hc
  | .definition _ _ (some _), _, ⟨blank, t, hs, hblank, hrest⟩ =>
    exact ⟨c :: blank, t, congrArg (c :: ·) hs, hblank.cons hc, hrest⟩
  | .term _ _ false, _, h => exact .components_space hc h
  | .exception _ _ none, _, h => exact h.exception_space hc
  | .exception _ _ (some _), _, ⟨blank, hs, hblank, hends⟩ =>
    exact ⟨c :: blank, congrArg (c :: ·) hs, hblank.cons hc, hends⟩
  | .repetition _, _, ⟨blank, hs, hblank⟩ =>
    exact ⟨c :: blank, congrArg (c :: ·) hs, hblank.cons hc⟩
  | .bracket _ _ (.opened _), _, ⟨blank, t, closer, hs, hblank, hbody⟩ =>
    exact ⟨c :: blank, t, closer, congrArg (c :: ·) hs, hblank.cons hc, hbody⟩

/-- A text that completes productions still does with white space in front, where a run of white
space may begin. -/
theorem residual_blank {limit : Nat} {frame : Frame} {below : List Frame} {blank s : List Char}
    (hmem : .space ∈ frame.components) (hblank : Blank blank)
    (h : Residual limit (frame :: below) s) : Residual limit (frame :: below) (blank ++ s) := by
  induction blank with
  | nil => exact h
  | cons c blank ih =>
    obtain ⟨r, hr, hbelow⟩ := ih fun x hx => hblank x (List.mem_cons_of_mem c hx)
    exact ⟨r, Frame.completes_space hmem (hblank c List.mem_cons_self) hr, hbelow⟩

end LosslessEbnf
