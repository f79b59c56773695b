import LosslessEbnf.Proofs.Residual
import LosslessEbnf.Proofs.Runs

/-!
# Soundness

What the machine accepts is derived from the grammar. The proof goes backwards: what completes the
open productions after a step completes, with the character that was taken in front, those before
the step.

## Main Definitions

* `Move.Sound` — a goal follows if a text completes the productions that a move leaves open

## Main Statements

* `sound_step` — what completes the productions after a step completes those before
* `residual_of_runText` — the text of an accepting run completes the productions open before it
-/

namespace LosslessEbnf

/-- The goal follows if the text that the move leaves completes the productions that it leaves open.
A move that accepts leaves nothing open, and one that rejects leaves no text that would do. -/
def Move.Sound (limit : Nat) (text : List Char) (goal : Prop) : Move → Prop
  | again _ frames => Residual limit frames text → goal
  | next _ frames => Residual limit frames text.tail → goal
  | accept _ => text = [] → goal
  | reject _ _ => True

section

variable {limit : Nat} {sight : Sight} {tree : Tree} {frames below : List Frame} {text : List Char}
  {goal : Prop}

theorem eq_cons_of_head {c : Char} (hhead : text.head? = sight.ahead) (hc : sight.ahead = some c) :
    text = c :: text.tail := by
  rw [hc] at hhead
  cases text with
  | nil => cases hhead
  | cons d text => cases hhead; rfl

theorem sound_unexpected {expected : Expectation} :
    (sight.unexpected tree expected).Sound limit text goal := by
  unfold Sight.unexpected
  split <;> trivial

/-! ### Leaves -/

theorem sound_stepLiteral {id : NodeId} {candidates : List String} {read : List Char}
    (hhead : text.head? = sight.ahead)
    (hgoal : ∀ mark ∈ candidates, ∀ r, mark.toList ++ r = read ++ text → Residual limit below r →
      goal) :
    (stepLiteral sight tree below id candidates read none).Sound limit text goal := by
  unfold stepLiteral
  cases hc : sight.ahead with
  | none => trivial
  | some c =>
    have htext : read ++ [c] ++ text.tail = read ++ text := by
      rw [List.append_assoc, List.singleton_append, ← eq_cons_of_head hhead hc]
    dsimp only
    split
    · rintro ⟨r, ⟨mark, hmark, hread⟩, hbelow⟩
      exact hgoal mark hmark r (hread.trans htext) hbelow
    · split
      · rename_i hfull
        obtain ⟨mark, hmark, hread⟩ := List.any_eq_true.mp hfull
        rintro ⟨r, rfl, hbelow⟩
        rw [isRead, beq_iff_eq] at hread
        exact hgoal mark hmark _ (by rw [hread, htext]) hbelow
      · trivial

/-- One of the candidates stands in front of a text that completes the other productions. -/
theorem sound_openLiteral {parent : NodeId} {candidates : List String}
    (hhead : text.head? = sight.ahead)
    (hgoal : ∀ mark ∈ candidates, ∀ r, text = mark.toList ++ r → Residual limit frames r → goal) :
    (openLiteral sight tree frames parent candidates).Sound limit text goal :=
  sound_stepLiteral hhead fun mark hmark r h hr => hgoal mark hmark r h.symm hr

theorem sound_stepRun {run : Run} {id : NodeId} (hhead : text.head? = sight.ahead) :
    (stepRun sight tree below run id).Sound limit text
      (Residual limit (.run run id :: below) text) := by
  have hended : Residual limit below text → Residual limit (.run run id :: below) text :=
    fun h => ⟨text, ⟨[], rfl, List.forall_mem_nil _⟩, h⟩
  unfold stepRun
  cases hc : sight.ahead with
  | none => exact hended
  | some c =>
    dsimp only
    split
    · rename_i hholds
      rintro ⟨r, ⟨front, hfront, hall⟩, hbelow⟩
      refine ⟨r, ⟨c :: front, ?_, List.forall_mem_cons.mpr ⟨hholds, hall⟩⟩, hbelow⟩
      rw [eq_cons_of_head hhead hc, hfront]
      rfl
    · exact hended

/-- A production that a run of white space may interrupt needs what it needed before, since the run
only adds white space in front of it. -/
theorem sound_openSpace {frame : Frame} {parent : NodeId} (hhead : text.head? = sight.ahead)
    (hmem : .space ∈ frame.components) :
    (openSpace sight tree (frame :: below) parent).Sound limit text
      (Residual limit (frame :: below) text) := by
  unfold openSpace
  cases hc : sight.ahead with
  | none => trivial
  | some c =>
    dsimp only
    split
    · rename_i hspace
      rintro ⟨r, ⟨blank, hblank, hall⟩, hbelow⟩
      rw [eq_cons_of_head hhead hc, hblank]
      exact residual_blank hmem (Blank.cons hspace hall) hbelow
    · trivial

theorem sound_stepIdentifier {id parent : NodeId} {trailing : Option Span}
    (hhead : text.head? = sight.ahead) :
    (stepIdentifier sight tree below id parent trailing).Sound limit text
      (Residual limit (.identifier id parent trailing :: below) text) := by
  by_cases hend : ∀ c, sight.ahead = some c → isNamePart c = false
  · rw [stepIdentifier_eq_atEnd hend]
    have hany : text.head?.any isNamePart = false := by
      rw [hhead]
      cases hc : sight.ahead with
      | none => rfl
      | some c => exact hend c hc
    cases trailing <;> exact fun h => ⟨text, ⟨[], rfl, List.forall_mem_nil _, hany⟩, h⟩
  · obtain ⟨c, hend⟩ := Classical.not_forall.mp hend
    obtain ⟨hc, hpart⟩ := Classical.not_imp.mp hend
    have hpart := eq_true_of_ne_false hpart
    have htext := eq_cons_of_head hhead hc
    have hgoal : ∀ trailing', Residual limit (.identifier id parent trailing' :: below) text.tail →
        Residual limit (.identifier id parent trailing :: below) text := by
      rintro trailing' ⟨r, ⟨name, hname, hparts, hends⟩, hbelow⟩
      refine ⟨r, ⟨c :: name, ?_, List.forall_mem_cons.mpr ⟨hpart, hparts⟩, hends⟩, hbelow⟩
      rw [htext, hname]
      rfl
    unfold stepIdentifier
    rw [hc]
    dsimp only
    rw [if_pos hpart]
    split <;> exact hgoal _

/-- A name stands in front of a text that completes the other productions. -/
theorem sound_openIdentifier {parent : NodeId} {c : Char} (hhead : text.head? = sight.ahead)
    (hc : sight.ahead = some c)
    (hgoal : ∀ name r, text = c :: (name ++ r) → (∀ x ∈ name, isNamePart x = true) →
      r.head?.any isNamePart = false → Residual limit frames r → goal) :
    (openIdentifier sight tree frames parent c).Sound limit text goal := by
  rintro ⟨r, ⟨name, hname, hparts, hends⟩, hframes⟩
  refine hgoal name r ?_ hparts hends hframes
  rw [eq_cons_of_head hhead hc, hname]

/-! ### Comments -/

/-- A character in a comment is text, unless it may begin a mark. Then the comment is left to decide
with the next character. -/
theorem sound_stepComment_body {id : NodeId} {run : Option NodeId} {c : Char}
    (hhead : text.head? = sight.ahead) (hc : sight.ahead = some c) :
    (stepComment limit sight tree below id run .body).Sound limit text
      (Residual limit (.comment id run .body :: below) text) := by
  have htext := eq_cons_of_head hhead hc
  unfold stepComment
  rw [hc]
  dsimp only
  split
  · rintro ⟨r, hr, hbelow⟩
    refine ⟨r, ?_, hbelow⟩
    rw [htext]
    exact hr
  · rename_i hmark
    rw [not_or] at hmark
    rintro ⟨r, hr, hbelow⟩
    refine ⟨r, ?_, hbelow⟩
    rw [htext]
    refine .comment_char ?_ ?_ hr
    · intro h
      exact hmark.1 (List.cons_prefix_cons.mp h).1.symm
    · intro h
      exact hmark.2 (List.cons_prefix_cons.mp h).1.symm

/-- The character behind a `*` or a `(` tells whether they are a mark. -/
theorem sound_stepComment_mark {id : NodeId} {run : Option NodeId} {first c : Char}
    {start : Position} (hhead : text.head? = sight.ahead) (hc : sight.ahead = some c) :
    (stepComment limit sight tree below id run (.mark first start)).Sound limit text
      (Residual limit (.comment id run (.mark first start) :: below) text) := by
  have htext := eq_cons_of_head hhead hc
  have hpair : ∀ {a b : Char}, [a, b] <+: first :: text → first = a ∧ c = b := by
    intro a b h
    rw [htext] at h
    obtain ⟨hfirst, h⟩ := List.cons_prefix_cons.mp h
    exact ⟨hfirst.symm, (List.cons_prefix_cons.mp h).1.symm⟩
  unfold stepComment
  rw [hc]
  dsimp only
  by_cases hend : first = '*' ∧ c = ')'
  · rw [if_pos hend]
    obtain ⟨rfl, rfl⟩ := hend
    intro hbelow
    refine ⟨text.tail, ?_, hbelow⟩
    rw [htext]
    exact .comment_end
  · rw [if_neg hend]
    by_cases hopen : first = '(' ∧ c = '*'
    · rw [if_pos hopen]
      obtain ⟨rfl, rfl⟩ := hopen
      rintro ⟨r, hr, hbelow⟩
      refine ⟨r, ?_, hbelow⟩
      rw [htext]
      exact hr
    · rw [if_neg hopen]
      rintro ⟨r, hr, hbelow⟩
      exact ⟨r, .comment_char (fun h => hend (hpair h)) (fun h => hopen (hpair h)) hr, hbelow⟩

theorem sound_stepComment {id : NodeId} {run : Option NodeId} {stage : CommentStage}
    (hhead : text.head? = sight.ahead) :
    (stepComment limit sight tree below id run stage).Sound limit text
      (Residual limit (.comment id run stage :: below) text) := by
  cases hc : sight.ahead with
  | none =>
    unfold stepComment
    rw [hc]
    trivial
  | some c =>
    cases stage with
    | body => exact sound_stepComment_body hhead hc
    | mark first start => exact sound_stepComment_mark hhead hc
    | opened opener =>
      unfold stepComment
      rw [hc]
      dsimp only
      split
      · trivial
      · rename_i hlimit
        -- what the inner comment leaves is what the outer one goes on with
        rintro ⟨t, ht, r, hr, hbelow⟩
        rw [nesting_cons_of_nests rfl] at ht
        exact ⟨r, .comment_nested (ht.comment_within hlimit) hr, hbelow⟩

theorem sound_openComment {parent : NodeId} (hhead : text.head? = sight.ahead)
    (hgoal : ∀ r, Derives .eager .comment (limit - nesting frames) text r →
      Residual limit frames r → goal) :
    (openComment limit sight tree frames parent).Sound limit text goal := by
  unfold openComment
  split
  · trivial
  · rename_i hlimit
    refine sound_openLiteral hhead fun mark hmark t htext => ?_
    rintro ⟨r, hr, hframes⟩
    obtain rfl := List.mem_singleton.mp hmark
    rw [nesting_cons_of_nests rfl] at hr
    rw [htext] at hgoal
    exact hgoal r (hr.comment_within hlimit) hframes

/-! ### Primaries -/

theorem sound_stepQuoted {form : Quoted} {id : NodeId} {run : Option NodeId}
    (hhead : text.head? = sight.ahead) :
    (stepQuoted sight tree below form id run).Sound limit text
      (Residual limit (.quoted form id run :: below) text) := by
  cases run with
  | none => exact fun h => h
  | some run =>
    unfold stepQuoted
    cases hc : sight.ahead with
    | none => trivial
    | some c =>
      have htext := eq_cons_of_head hhead hc
      dsimp only
      split
      · refine sound_openLiteral hhead fun mark hmark t ht => ?_
        obtain rfl := List.mem_singleton.mp hmark
        rintro ⟨r, rfl, hbelow⟩
        rw [String.toList_singleton] at ht
        exact ⟨t, ⟨[], ht, List.forall_mem_nil _⟩, hbelow⟩
      · rename_i hne
        rintro ⟨r, ⟨front, hfront, hfree⟩, hbelow⟩
        refine ⟨r, ⟨c :: front, ?_, List.forall_mem_cons.mpr ⟨hne, hfree⟩⟩, hbelow⟩
        rw [htext, hfront]
        rfl

/-- A text between marks stands in front of a text that completes the other productions. -/
theorem sound_openQuoted {parent : NodeId} {form : Quoted} (hhead : text.head? = sight.ahead)
    (hmark : isQuote form.mark = true ∨ form.mark = '?')
    (hgoal : ∀ r, Derives .eager .primary (limit - nesting frames) text r →
      Residual limit frames r → goal) :
    (openQuoted sight tree frames parent form).Sound limit text goal := by
  refine sound_openLiteral hhead fun mark hmem t ht => ?_
  obtain rfl := List.mem_singleton.mp hmem
  rintro ⟨r, ⟨inner, hinner, hfree⟩, hframes⟩
  rw [String.toList_singleton, hinner] at ht
  refine hgoal r ?_ hframes
  rw [ht]
  exact .primary_quoted hmark hfree

/-- A bracket whose opener was read already needs its definitions and a closer. -/
theorem sound_attachBracket {parent : NodeId} {b : Bracket} {opener : Span}
    (hgoal : ∀ r, ((b = .grouped → text.head? ≠ some '/' ∧ text.head? ≠ some ':') →
        Derives .eager .primary (limit - nesting frames) (b.roundOpener.toList ++ text) r) →
      Residual limit frames r → goal) :
    (attachBracket limit sight tree frames parent b opener).Sound limit text goal := by
  unfold attachBracket
  split
  · trivial
  · rename_i hlimit
    rintro ⟨r, hbody, hframes⟩
    rw [nesting_cons_of_nests rfl] at hbody
    exact hgoal r (hbody.primary_within hlimit b.roundOpener_mem) hframes

/-- A bracket whose opener is still to be read needs it, its definitions and a closer. -/
theorem sound_openBracket {parent : NodeId} {b : Bracket} (hhead : text.head? = sight.ahead)
    (hgrouped : b ≠ .grouped)
    (hgoal : ∀ r, Derives .eager .primary (limit - nesting frames) text r →
      Residual limit frames r → goal) :
    (openBracket limit sight tree frames parent b).Sound limit text goal := by
  unfold openBracket
  split
  · trivial
  · rename_i hlimit
    refine sound_openLiteral hhead fun mark hmark t ht => ?_
    rintro ⟨r, hbody, hframes⟩
    rw [nesting_cons_of_nests rfl] at hbody
    refine hgoal r ?_ hframes
    rw [ht]
    exact hbody.primary_within hlimit hmark fun h => absurd h hgrouped

theorem sound_stepParen {parent : NodeId} {start : Position} (hhead : text.head? = sight.ahead) :
    (stepParen limit sight tree below parent start).Sound limit text
      (Residual limit (.paren parent start :: below) text) := by
  unfold stepParen
  cases hc : sight.ahead with
  | none => trivial
  | some c =>
    have htext := eq_cons_of_head hhead hc
    dsimp only
    split
    · rename_i hslash
      rintro ⟨r, hr, hbelow⟩
      refine ⟨r, ?_, hbelow⟩
      rw [htext, hslash]
      exact hr nofun
    · split
      · rename_i hcolon
        rintro ⟨r, hr, hbelow⟩
        refine ⟨r, ?_, hbelow⟩
        rw [htext, hcolon]
        exact hr nofun
      · -- a group, as neither of the other two openers goes on like this
        rename_i hslash hcolon
        refine sound_attachBracket fun r hr hbelow => ⟨r, ?_, hbelow⟩
        rw [nesting_cons_of_not_nests rfl]
        refine hr fun _ => ?_
        rw [hhead, hc]
        exact ⟨fun h => hslash (Option.some.inj h), fun h => hcolon (Option.some.inj h)⟩

theorem sound_stepBracket {b : Bracket} {id : NodeId} {stage : BracketStage}
    (hhead : text.head? = sight.ahead) :
    (stepBracket sight tree below b id stage).Sound limit text
      (Residual limit (.bracket b id stage :: below) text) := by
  unfold stepBracket
  match stage with
  | .opened opening =>
    dsimp only
    split
    · exact sound_openSpace hhead (List.mem_of_elem_eq_true rfl)
    · rintro ⟨t, ht, r, ⟨closer, hcloser, rfl⟩, hbelow⟩
      exact ⟨r, ⟨[], text, closer, rfl, blank_nil, ht, hcloser⟩, hbelow⟩
  | .body none =>
    refine sound_openLiteral hhead fun mark hmark t ht => ?_
    rintro ⟨r, rfl, hbelow⟩
    exact ⟨t, ⟨mark, b.closers_subset hmark, ht⟩, hbelow⟩
  | .body (some closer) =>
    dsimp only
    split
    · rename_i hrepeated
      exact fun hbelow => ⟨text, ⟨hrepeated, rfl⟩, hbelow⟩
    · trivial

/-- A primary stands in front of a text that completes the other productions. What follows from that
is a parameter, as a term and an exception go on differently. -/
theorem sound_openPrimary {parent : NodeId} {c : Char} (hhead : text.head? = sight.ahead)
    (hc : sight.ahead = some c)
    (hgoal : ∀ r, Derives .eager .primary (limit - nesting frames) text r →
      Residual limit frames r → goal) :
    (openPrimary limit sight tree frames parent c).Sound limit text goal := by
  unfold openPrimary
  split
  · -- a name
    rename_i hletter
    rw [expectIdentifier_of_isLetter hletter]
    refine sound_openIdentifier hhead hc fun name r ht hparts hends => hgoal r ?_
    rw [ht]
    exact .primary_name hletter hparts hends
  · split
    · -- a terminal
      rename_i hquote
      rw [expectTerminal_of_isQuote hquote]
      exact sound_openQuoted hhead (Or.inl hquote) hgoal
    · split
      · exact sound_openBracket hhead nofun hgoal
      · split
        · exact sound_openBracket hhead nofun hgoal
        · split
          · exact sound_openQuoted hhead (Or.inr rfl) hgoal
          · split
            · -- a `(`, of which it is still open what bracket it begins
              rename_i hparen
              rintro ⟨r, hr, hframes⟩
              refine hgoal r ?_ hframes
              rw [nesting_cons_of_not_nests rfl] at hr
              rw [eq_cons_of_head hhead hc, hparen]
              exact hr
            · exact sound_unexpected

/-! ### Terms -/

theorem sound_endTerm {id : NodeId} {parts : TermParts} :
    (endTerm sight tree below id parts).Sound limit text
      (Residual limit (.term id parts false :: below) text) := by
  unfold endTerm
  split <;> exact fun h => ⟨text, .components_end, h⟩

theorem sound_stepTerm {id : NodeId} {parts : TermParts} {dash : Bool}
    (hhead : text.head? = sight.ahead) :
    (stepTerm limit sight tree below id parts dash).Sound limit text
      (Residual limit (.term id parts dash :: below) text) := by
  unfold stepTerm
  cases dash with
  | true =>
    rintro ⟨t, ht, r, hr, hbelow⟩
    exact ⟨r, ⟨t, ht, hr⟩, hbelow⟩
  | false =>
    rw [if_neg nofun]
    cases hc : sight.ahead with
    | none => exact sound_endTerm
    | some c =>
      have htext := eq_cons_of_head hhead hc
      dsimp only
      split
      · exact sound_openSpace hhead (List.mem_of_elem_eq_true rfl)
      · split
        · -- a repetition
          rename_i hdigit
          split
          · trivial
          · rename_i hunused
            rw [openRepetition_of_isDigit hdigit]
            rintro ⟨t, ⟨digits, hdigits, hall⟩, u, ⟨blank, hblank, hspaces⟩, r, hr, hbelow⟩
            refine ⟨r, ?_, hbelow⟩
            refine .components_repetition (by rw [TermParts.used, hunused]; rfl) ?_ hr
            rw [htext, hdigits, hblank]
            exact .repetition hdigit hall hspaces
        · rename_i hdigit
          split
          · -- the `-` of an exception
            split
            · trivial
            · rename_i hunused
              refine sound_openLiteral hhead fun mark hmark u hu => ?_
              obtain rfl := List.mem_singleton.mp hmark
              rintro ⟨r, ⟨t, ht, hr⟩, hbelow⟩
              refine ⟨r, ?_, hbelow⟩
              rw [hu]
              exact .components_exception (by rw [TermParts.used, hunused]; rfl) ht hr
          · split
            · -- a primary, which does not begin with a digit here
              split
              · trivial
              · rename_i hunused
                refine sound_openPrimary hhead hc ?_
                rintro t ht ⟨r, hr, hbelow⟩
                have hopens : Dialect.eager.opensTerm text.head? = true := by
                  rw [hhead, hc]
                  exact Dialect.opensTerm_eager_some.mpr (eq_false_of_ne_true hdigit)
                exact ⟨r, .components_primary (by rw [TermParts.used, hunused]; rfl) hopens ht hr,
                  hbelow⟩
            · exact sound_endTerm

/-- An exception ends where neither a primary nor white space can begin. -/
theorem sound_endException {id term : NodeId} {primary : Option NodeId}
    (hends : Dialect.eager.endsException text.head? = true) :
    (endException sight tree below id primary).Sound limit text
      (Residual limit (.exception id term primary :: below) text) := by
  unfold endException
  cases primary with
  | some held => exact fun h => ⟨text, ⟨[], rfl, blank_nil, hends⟩, h⟩
  | none => exact fun h => ⟨text, .exception_empty blank_nil hends, h⟩

theorem sound_stepException {id term : NodeId} {primary : Option NodeId}
    (hhead : text.head? = sight.ahead) :
    (stepException limit sight tree below id term primary).Sound limit text
      (Residual limit (.exception id term primary :: below) text) := by
  unfold stepException
  dsimp only
  cases hc : sight.ahead with
  | none => exact sound_endException (by rw [hhead, hc]; rfl)
  | some c =>
    dsimp only
    split
    · exact sound_openSpace hhead (List.mem_of_elem_eq_true rfl)
    · rename_i hspace
      split
      · split
        · trivial
        · refine sound_openPrimary hhead hc ?_
          rintro t ht ⟨r, ⟨blank, rfl, hblank, hends⟩, hbelow⟩
          exact ⟨r, .exception_primary blank_nil ht hblank hends, hbelow⟩
      · rename_i hprimary
        refine sound_endException ?_
        rw [hhead, hc]
        exact Dialect.endsException_eager_some.mpr
          ⟨eq_false_of_ne_true hprimary, eq_false_of_ne_true hspace⟩

theorem sound_stepRepetition {id : NodeId} (hhead : text.head? = sight.ahead) :
    (stepRepetition sight tree below id).Sound limit text
      (Residual limit (.repetition id :: below) text) := by
  unfold stepRepetition
  split
  · exact sound_openSpace hhead (List.mem_of_elem_eq_true rfl)
  · refine sound_openLiteral hhead fun mark hmark t ht => ?_
    obtain rfl := List.mem_singleton.mp hmark
    rintro ⟨r, rfl, hbelow⟩
    exact ⟨t, ⟨[], ht, blank_nil⟩, hbelow⟩

/-! ### Definitions and products -/

/-- A separator is a single character, so it is read with one step. -/
theorem Marks.exists_of_mem_separators {mark : String} (h : mark ∈ Marks.separators) :
    ∃ c, mark.toList = [c] ∧ (c = '|' ∨ c = '!' ∨ c = '/') := by
  rcases List.mem_cons.mp h with rfl | h
  · exact ⟨'|', by decide, Or.inl rfl⟩
  · rcases List.mem_cons.mp h with rfl | h
    · exact ⟨'/', by decide, Or.inr (Or.inr rfl)⟩
    · obtain rfl := List.mem_singleton.mp h
      exact ⟨'!', by decide, Or.inr (Or.inl rfl)⟩

theorem sound_stepDefinition {id : NodeId} {start : Position} {term : Option NodeId}
    (hhead : text.head? = sight.ahead) :
    (stepDefinition sight tree below id start term).Sound limit text
      (Residual limit (.definition id start term :: below) text) := by
  unfold stepDefinition
  cases hc : sight.ahead with
  | none => trivial
  | some c =>
    have htext := eq_cons_of_head hhead hc
    dsimp only
    split
    · exact sound_openSpace hhead (by cases term <;> exact List.mem_of_elem_eq_true rfl)
    · rename_i hspace
      split
      · rename_i hstarts
        split
        · -- a second term without a comma in front of it
          trivial
        · -- the components that the new term needs are a term, as they begin like one
          rintro ⟨t, ht, r, hr, hbelow⟩
          rw [htext] at ht ⊢
          exact ⟨r, ht.definition_of_components (eq_false_of_ne_true hspace) hstarts hr, hbelow⟩
      · split
        · refine sound_openLiteral hhead fun mark hmark t ht => ?_
          obtain rfl := List.mem_singleton.mp hmark
          rintro ⟨r, hr, hbelow⟩
          refine ⟨r, ?_, hbelow⟩
          rw [ht]
          cases term with
          | none => exact .definition_empty_more blank_nil hr
          | some previous => exact ⟨[], _, rfl, blank_nil, Or.inr ⟨t, rfl, hr⟩⟩
        · intro hbelow
          refine ⟨text, ?_, hbelow⟩
          cases term with
          | none => exact .definition_empty blank_nil
          | some previous => exact ⟨[], text, rfl, blank_nil, Or.inl rfl⟩

/-- What completes the productions around definitions that hand a closer over completes them with
the closer in front before. -/
theorem residual_of_handOver {closer : Span} {frame : Frame} (hnested : Nested (frame :: below))
    (hcomponent : frame.component = .definitions)
    (h : Residual limit (handOver closer below) text) :
    Residual limit below ('/' :: ')' :: text) := by
  cases hnested with
  | grammar => cases hcomponent
  | cons rest waits admitted =>
    rw [hcomponent] at admitted
    -- only repeats take the closer; a product that it is handed to can not be completed
    rcases Frame.eq_body_of_definitions admitted with
      ⟨id, lhs, list, held, rfl⟩ | ⟨b, id, held, rfl⟩
    · obtain ⟨r, hr, hbelow⟩ := h
      exact hr.elim
    · obtain ⟨r, ⟨hb, hr⟩, hbelow⟩ := h
      cases held with
      | none =>
        subst hb hr
        exact ⟨text, ⟨"/)", by decide, rfl⟩, hbelow⟩
      | some held => cases waits

/-- Behind a definition there may be a separator, which may turn out to be a part of a closer. -/
theorem sound_stepDefinitions_afterDefinition {id : NodeId} (hhead : text.head? = sight.ahead) :
    (stepDefinitions sight tree below id .afterDefinition).Sound limit text
      (Residual limit (.definitions id .afterDefinition :: below) text) := by
  have hended : Residual limit below text →
      Residual limit (.definitions id .afterDefinition :: below) text :=
    fun h => ⟨text, Or.inl rfl, h⟩
  unfold stepDefinitions
  dsimp only
  cases hc : sight.ahead with
  | none => exact hended
  | some c =>
    have htext := eq_cons_of_head hhead hc
    dsimp only
    split
    · rename_i hslash
      rintro ⟨r, hr, hbelow⟩
      refine ⟨r, ?_, hbelow⟩
      rw [htext, hslash]
      exact hr
    · rename_i hslash
      split
      · refine sound_openLiteral hhead fun mark hmark t ht => ?_
        rintro ⟨r, hr, hbelow⟩
        obtain ⟨x, hx, hseparates⟩ := Marks.exists_of_mem_separators hmark
        rw [htext, hx] at ht
        obtain ⟨rfl, htail⟩ := List.cons.inj ht
        refine ⟨r, Or.inr ⟨c, t, ?_, ?_, hr⟩, hbelow⟩
        · rw [htext, htail]
          rfl
        · rcases hseparates with hbar | hbang | hslash'
          · exact Or.inl hbar
          · exact Or.inr (Or.inl hbang)
          · exact absurd hslash' hslash
      · exact hended

/-- A `/` is a separator or a part of a closer, which the production around takes over. -/
theorem sound_stepDefinitions_afterSlash {id : NodeId} {slash : Position}
    (hhead : text.head? = sight.ahead)
    (hnested : Nested (.definitions id (.afterSlash slash) :: below)) :
    (stepDefinitions sight tree below id (.afterSlash slash)).Sound limit text
      (Residual limit (.definitions id (.afterSlash slash) :: below) text) := by
  unfold stepDefinitions
  cases hc : sight.ahead with
  | none => trivial
  | some c =>
    have htext := eq_cons_of_head hhead hc
    dsimp only
    split
    · rename_i hparen
      intro h
      rw [htext, hparen]
      exact ⟨_, Or.inl rfl, residual_of_handOver hnested rfl h⟩
    · rename_i hparen
      rintro ⟨r, hr, hbelow⟩
      refine ⟨r, Or.inr ⟨'/', text, rfl, Or.inr (Or.inr ⟨rfl, ?_⟩), hr⟩, hbelow⟩
      rw [hhead, hc]
      exact fun h => hparen (Option.some.inj h)

theorem sound_stepDefinitions {id : NodeId} {stage : ListStage} (hhead : text.head? = sight.ahead)
    (hnested : Nested (.definitions id stage :: below)) :
    (stepDefinitions sight tree below id stage).Sound limit text
      (Residual limit (.definitions id stage :: below) text) := by
  cases stage with
  | start =>
    unfold stepDefinitions
    dsimp only
    split
    · exact sound_openSpace hhead (List.mem_of_elem_eq_true rfl)
    · rintro ⟨t, ht, r, hr, hbelow⟩
      refine ⟨r, ?_, hbelow⟩
      rcases hr with rfl | ⟨c, u, rfl, hc, hr⟩
      · exact .definitions_last ht
      · exact .definitions_more ht hc hr
  | afterDefinition => exact sound_stepDefinitions_afterDefinition hhead
  | afterSlash slash => exact sound_stepDefinitions_afterSlash hhead hnested

theorem sound_stepProduct {id lhs : NodeId} {stage : ProductStage}
    (hhead : text.head? = sight.ahead) :
    (stepProduct sight tree below id lhs stage).Sound limit text
      (Residual limit (.product id lhs stage :: below) text) := by
  unfold stepProduct
  match stage with
  | .name =>
    dsimp only
    split
    · refine sound_openLiteral hhead fun mark hmark t ht => ?_
      obtain rfl := List.mem_singleton.mp hmark
      rintro ⟨r, hr, hbelow⟩
      exact ⟨r, ⟨t, ht, hr⟩, hbelow⟩
    · exact sound_unexpected
  | .equals =>
    dsimp only
    split
    · exact sound_openSpace hhead (List.mem_of_elem_eq_true rfl)
    · rintro ⟨t, ht, r, rfl | rfl, hbelow⟩
      · exact ⟨r, ⟨[], text, ';', rfl, blank_nil, ht, Or.inl rfl⟩, hbelow⟩
      · exact ⟨r, ⟨[], text, '.', rfl, blank_nil, ht, Or.inr rfl⟩, hbelow⟩
  | .body list none =>
    refine sound_openLiteral hhead fun mark hmark t ht => ?_
    rintro ⟨r, rfl, hbelow⟩
    refine ⟨t, ?_, hbelow⟩
    rcases List.mem_cons.mp hmark with rfl | hmark
    · exact Or.inl ht
    · obtain rfl := List.mem_singleton.mp hmark
      exact Or.inr ht
  | .body list (some closer) => trivial

/-- A product stands in front of a text that completes the other productions. -/
theorem sound_openProduct {parent : NodeId} {c : Char} (hhead : text.head? = sight.ahead)
    (hc : sight.ahead = some c) (hletter : isLetter c = true)
    (hgoal : ∀ r, Derives .eager .product (limit - nesting frames) text r →
      Residual limit frames r → goal) :
    (openProduct sight tree frames parent c).Sound limit text goal := by
  rw [openProduct_of_isLetter hletter]
  refine sound_openIdentifier hhead hc ?_
  rintro name t ht hparts hends ⟨r, ⟨u, rfl, blank, v, e, rfl, hblank, hbody, he⟩, hframes⟩
  refine hgoal r ?_ hframes
  rw [ht]
  exact .product hletter hparts hblank hbody he

theorem sound_stepGrammar {begun : Bool} (hhead : text.head? = sight.ahead)
    (hnested : Nested (.grammar begun :: below)) :
    (stepGrammar limit sight tree below begun).Sound limit text
      (Residual limit (.grammar begun :: below) text) := by
  have haccept : text = [] → Residual limit (.grammar begun :: below) text := by
    rintro rfl
    cases hnested with
    | grammar => exact ⟨[], .text_end, rfl⟩
    -- the text is the root of every tree, so nothing is open below it
    | cons _ _ admitted => exact absurd admitted Frame.text_not_mem_components
  unfold stepGrammar
  cases hc : sight.ahead with
  | none => cases begun <;> exact haccept
  | some c =>
    cases begun with
    | false => exact fun h => h
    | true =>
      rw [if_pos rfl]
      dsimp only
      split
      · refine sound_openComment hhead ?_
        rintro t ht ⟨r, hr, hbelow⟩
        exact ⟨r, .text_comment ht hr, hbelow⟩
      · split
        · rename_i hletter
          refine sound_openProduct hhead hc hletter ?_
          rintro t ht ⟨r, hr, hbelow⟩
          exact ⟨r, .text_product ht hr, hbelow⟩
        · split
          · exact sound_openSpace hhead (List.mem_of_elem_eq_true rfl)
          · exact sound_unexpected

/-! ### All steps -/

/-- No candidate of a mark was read in full while another one goes on. -/
theorem Standing.best_eq_none {sure : Prop} {whole done : List Char} {id : NodeId}
    {candidates : List String} {read : List Char} {best : Option (List Char × Position)}
    (h : Standing sure whole done tree (.literal id candidates read best :: below)) :
    best = none := by
  cases h with
  | idle rest => cases rest.waiting.id_eq_size
  | literal => rfl

/-- What completes the productions after a step completes those before it, with the character in
front if the step has taken it. -/
theorem sound_step {sure : Prop} {done whole : List Char} (limit : Nat)
    (hhead : text.head? = sight.ahead) (h : Standing sure whole done tree frames) :
    (step limit sight tree frames).Sound limit text (Residual limit frames text) := by
  cases frames with
  | nil => exact fun h => h
  | cons frame below =>
    have hnested := h.nested
    cases frame with
    | grammar begun => exact sound_stepGrammar hhead hnested
    | comment id run stage => exact sound_stepComment hhead
    | product id lhs stage => exact sound_stepProduct hhead
    | definitions id stage => exact sound_stepDefinitions hhead hnested
    | definition id start term => exact sound_stepDefinition hhead
    | term id parts dash => exact sound_stepTerm hhead
    | exception id term primary => exact sound_stepException hhead
    | repetition id => exact sound_stepRepetition hhead
    | paren parent start => exact sound_stepParen hhead
    | opener b parent opener =>
      refine sound_attachBracket fun r hr hbelow => ⟨r, fun hb => ?_, hbelow⟩
      rw [nesting_cons_of_not_nests rfl]
      exact hr fun hgrouped => absurd hgrouped hb
    | bracket b id stage => exact sound_stepBracket hhead
    | quoted form id run => exact sound_stepQuoted hhead
    | identifier id parent trailing => exact sound_stepIdentifier hhead
    | run run id => exact sound_stepRun hhead
    | literal id candidates read best =>
      obtain rfl := h.best_eq_none
      exact sound_stepLiteral hhead fun mark hmark r hr hbelow => ⟨r, ⟨mark, hmark, hr⟩, hbelow⟩
    | matched id text last => exact fun h => ⟨_, rfl, h⟩
    | closing id => exact fun h => ⟨_, rfl, h⟩

end

/-! ### Runs -/

/-- The goal follows if the text that is left completes the productions that are left open. -/
def Outcome.Sound (limit : Nat) (text : List Char) (goal : Prop) : Outcome → Prop
  | waiting _ frames => Residual limit frames text.tail → goal
  | accepted _ => text = [] → goal
  | rejected _ _ => True

/-- What completes the productions after the steps for a character completes those before. -/
theorem sound_settle {sure : Prop} {done whole text : List Char} {sight : Sight} {tree : Tree}
    {frames : List Frame} (limit : Nat) (hs : sight.Reads done whole)
    (hsure : sure → sight.ahead.isSome) (hhead : text.head? = sight.ahead)
    (h : Standing sure whole done tree frames) :
    (settle limit sight tree frames).Sound limit text (Residual limit frames text) := by
  -- what completes the productions in front of any of the steps completes those before the first
  refine settle_induction (P := fun tree' frames' => Standing sure whole done tree' frames' ∧
    (Residual limit frames' text → Residual limit frames text))
    (fun tree' frames' ⟨h, hresidual⟩ => ?_) ⟨h, id⟩
  have hkeeps := keeps_step limit hs hsure h
  have hsound := sound_step limit hhead h
  cases hstep : step limit sight tree' frames' with
  | again tree'' frames'' =>
    rw [hstep] at hkeeps hsound
    exact ⟨hkeeps, hresidual ∘ hsound⟩
  | next tree'' frames'' | accept tree'' =>
    rw [hstep] at hsound
    exact hresidual ∘ hsound
  | reject tree'' cause => trivial

/-- **Run lemma.** The text of an accepting run completes the productions that are open before it.
The induction is on the text. -/
theorem residual_of_runText {limit : Nat} {config : Config} {whole text : List Char} {tree : Tree}
    (h : config.Between whole) (hrun : runText limit config text = .ok tree) :
    Residual limit config.frames text := by
  induction text generalizing config whole with
  | nil =>
    have hhead : ([] : List Char).head? = (Sight.mk none config.position).ahead := rfl
    have hsound := sound_settle limit h.reads_none False.elim hhead (h.standing.mono False.elim)
    rw [runText_nil, finish] at hrun
    split at hrun
    · rename_i hsettle
      exact (settle_atEnd_ne_waiting _ _ _ _ _ _ hsettle).elim
    · rename_i hsettle
      rw [hsettle] at hsound
      exact hsound rfl
    · cases hrun
  | cons c text ih =>
    have hkeeps := h.keeps_settle limit c
    have hhead : (c :: text).head? = (Sight.mk (some c) (config.position.after c)).ahead := rfl
    have hsound := sound_settle limit (h.reads_some c) (fun _ => rfl) hhead
      (h.standing.weaken id [c])
    rw [runText_cons] at hrun
    split at hrun
    · rename_i hsettle
      rw [hsettle] at hkeeps hsound
      exact hsound (ih (h.next hkeeps) hrun)
    · rename_i hsettle
      rw [hsettle] at hkeeps
      cases hkeeps.1
    · cases hrun

end LosslessEbnf
