import Mathlib.Logic.Relation
import LosslessEbnf.Proofs.Refusals
import LosslessEbnf.Proofs.Termination

/-!
# Moments of a run

A run is followed from one move of the machine to the next, with what the machine sees and with what
the source still holds.

## Main Definitions

* `Moment` — a move, what the machine sees, and the source
* `Moment.Next`, `Moment.Reaches` — the next move of a run, and all that come later
* `Moment.FailsWith` — the run comes to a refusal
* `Sight.Faces` — what the machine sees and what the source delivers make up a text
* `Sight.Behind` — the machine stands between two parts of a text

## Main Statements

* `Moment.outcome_eq_of_reaches` — a run comes to what it comes to from each moment that it reaches
* `Sight.Behind.advance` — the machine takes the next character of a text

## Design Notes

A phase of a run (`Phase`) forgets what the machine sees as soon as the source is asked or the run
has ended. A moment keeps it, so that it can be said which character is left when a production ends
or a text is refused.
-/

namespace LosslessEbnf

/-- A moment of a run: the move that the machine makes, what it sees then, and the source. -/
structure Moment (σ : Type) where
  /-- What the machine sees. -/
  sight : Sight
  /-- The move that it makes. -/
  move : Move
  /-- What is left of the source. -/
  source : σ

namespace Moment

variable {σ : Type} [Source σ] {limit : Nat} {before after : Moment σ}

/-- The phase of the run that the move comes to. -/
def phase (moment : Moment σ) : Phase σ := .ofMove moment.sight moment.source moment.move

/-- The next move of a run. -/
inductive Next (limit : Nat) : Moment σ → Moment σ → Prop
  /-- The character was left, and the next step sees it, too. -/
  | again (sight : Sight) (tree : Tree) (frames : List Frame) (source : σ) :
      Next limit ⟨sight, .again tree frames, source⟩
        ⟨sight, step limit sight tree frames, source⟩
  /-- The character was taken, and the next step sees what the source replies. -/
  | next {c : Char} {here : Position} {tree : Tree} {frames : List Frame} {source rest : σ}
      {text : String} (read : Source.read 1 source = (.ok text, rest)) :
      Next limit ⟨⟨some c, here⟩, .next tree frames, source⟩
        ⟨⟨text.toList.head?, here.afterAll text.toList⟩,
          step limit ⟨text.toList.head?, here.afterAll text.toList⟩ tree frames, rest⟩

/-- A run comes from one moment to the other. -/
def Reaches (limit : Nat) : Moment σ → Moment σ → Prop := Relation.ReflTransGen (Next limit)

theorem Next.outcome_eq (h : Next limit before after) :
    before.phase.outcome limit = after.phase.outcome limit := by
  cases h with
  | again sight tree frames source =>
    exact (Phase.outcome_tick (.stepping sight tree frames source)).symm
  | @next c here tree frames source rest text read =>
    -- there are two ticks between the moves: the source is asked, and a step is made
    calc (Phase.asking ⟨tree, frames, here⟩ source).outcome limit
        = ((Phase.asking ⟨tree, frames, here⟩ source).tick Source.read limit).outcome limit :=
          (Phase.outcome_tick _).symm
      _ = (Phase.stepping ⟨text.toList.head?, here.afterAll text.toList⟩ tree frames
            rest).outcome limit := by rw [Phase.tick, read]; rfl
      _ = _ := (Phase.outcome_tick _).symm

/-- A run comes to what it comes to from each moment that it reaches. -/
theorem outcome_eq_of_reaches (h : Reaches limit before after) :
    before.phase.outcome limit = after.phase.outcome limit := by
  induction h with
  | refl => rfl
  | tail _ hnext ih => exact ih.trans hnext.outcome_eq

/-- The run comes to where the machine refuses what it sees, and so the reading fails. -/
def FailsWith (limit : Nat) (moment : Moment σ) (sight : Sight) (source : σ) (tree : Tree)
    (cause : Cause) : Prop :=
  Reaches limit moment ⟨sight, .reject tree cause, source⟩ ∧
    moment.phase.outcome limit = (.error ⟨cause, sight.here, tree⟩, source)

theorem Reaches.failsWith {sight : Sight} {source : σ} {tree : Tree} {cause : Cause}
    (h : Reaches limit before ⟨sight, .reject tree cause, source⟩) :
    before.FailsWith limit sight source tree cause := ⟨h, outcome_eq_of_reaches h⟩

end Moment

/-! ### Where the machine stands -/

/-- What the machine sees, together with what the source still delivers, is the text. -/
inductive Sight.Faces {σ : Type} [Source σ] : Sight → σ → List Char → Prop
  /-- The input has ended. -/
  | ended (here : Position) (source : σ) : Faces ⟨none, here⟩ source []
  /-- The first character is seen. -/
  | ahead {source : σ} {c : Char} {text : List Char} (here : Position)
      (more : Delivers source text none) : Faces ⟨some c, here⟩ source (c :: text)

/-- The machine stands behind what it read, the first character of which stands at `first`, and in
front of the text. -/
structure Sight.Behind {σ : Type} [Source σ] (sight : Sight) (source : σ) (first : Position)
    (read text : List Char) : Prop where
  /-- The text is ahead. -/
  faces : sight.Faces source text
  /-- The position is that of the character ahead, or of the last one at the end of the input. -/
  here_eq : sight.here = first.afterAll (read ++ text.take 1).tail

/-- The last character of a text is one step behind the one in front of it. -/
theorem Position.afterAll_tail_concat {read : List Char} (h : read ≠ []) (first : Position)
    (c : Char) : first.afterAll (read ++ [c]).tail = (first.afterAll read.tail).after c := by
  rw [List.tail_append_of_ne_nil h, afterAll_append]
  rfl

namespace Sight

variable {σ : Type} [Source σ] {sight : Sight} {source : σ} {first : Position}
  {read text : List Char} {c : Char}

theorem Faces.ahead_eq (h : sight.Faces source text) : sight.ahead = text.head? := by
  cases h <;> rfl

/-- Nothing was read yet, so the machine stands behind the empty text. -/
theorem Faces.behind (h : sight.Faces source text) : sight.Behind source sight.here [] text := by
  refine ⟨h, ?_⟩
  cases text <;> rfl

/-- The next character is taken: the machine sees the one behind it, at the position that counts one
more. -/
theorem Behind.advance (h : sight.Behind source first read (c :: text)) (limit : Nat) (tree : Tree)
    (frames : List Frame) :
    ∃ (sight' : Sight) (source' : σ), sight'.Behind source' first (read ++ [c]) text ∧
      Moment.Reaches limit ⟨sight, .next tree frames, source⟩
        ⟨sight', step limit sight' tree frames, source'⟩ := by
  obtain ⟨hfaces, hhere⟩ := h
  cases hfaces with
  | ahead here more =>
    replace hhere : here = first.afterAll (read ++ [c]).tail := hhere
    cases more with
    | @ended _ rest hread =>
      refine ⟨⟨none, here⟩, rest, ⟨.ended here rest, ?_⟩, .single (.next hread)⟩
      rw [List.take_nil, List.append_nil]
      exact hhere
    | @char _ rest d text _ hread more =>
      have hnext : Moment.Next limit ⟨⟨some c, here⟩, .next tree frames, source⟩ ⟨_, _, rest⟩ :=
        .next hread
      rw [String.toList_singleton] at hnext
      refine ⟨⟨some d, here.after d⟩, rest, ⟨.ahead _ more, ?_⟩, .single hnext⟩
      show here.after d = first.afterAll (read ++ [c] ++ [d]).tail
      rw [Position.afterAll_tail_concat (List.concat_ne_nil c read), ← hhere]

end Sight

end LosslessEbnf
