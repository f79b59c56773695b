import LosslessEbnf.Proofs.Termination

/-!
# Replies of a run

A source may go on for ever, but a run that ends has got only so many replies from it. So what is
true of all sources that come to an end is true of each run that does.

## Main Definitions

* `Phase.withSource` — the run at the same time, but on another source
* `openingComments` — a source that never ends

## Main Statements

* `Phase.exists_withSource` — what a run comes to from some time on, it comes to on a script
* `parse_of_run` — a run that ends is the reading of a script

## Design Notes

The script holds the replies that the run has still to get, so it is put together from the end of
the run backwards. It is used up when the run ends, and it may be asked only for what it holds.
-/

namespace LosslessEbnf

namespace Phase

variable {σ τ : Type} {read : Nat → σ → Except Fault String × σ} {limit fuel : Nat}

/-- The run at the same time, but on another source. -/
def withSource (source : τ) : Phase σ → Phase τ
  | asking config _ => asking config source
  | stepping sight tree frames _ => stepping sight tree frames source
  | finished result _ => finished result source

/-- What a reply comes to does not depend on what is left of the source. -/
theorem withSource_ofReply (config : Config) (reply : Except Fault String) (rest : σ)
    (source : τ) :
    (ofReply config (reply, rest)).withSource source = ofReply config (reply, source) := by
  cases reply <;> rfl

/-- What a move comes to does not depend on the source, since a move does not ask it. -/
theorem withSource_ofMove (sight : Sight) (move : Move) (rest : σ) (source : τ) :
    (ofMove sight rest move).withSource source = ofMove sight source move := by
  cases move with
  | next tree frames =>
    obtain ⟨ahead, here⟩ := sight
    cases ahead <;> rfl
  | again tree frames | accept tree | reject tree cause => rfl

/-- A run that goes on to its end on a script with some replies would go on so from one tick before,
if the script began with the reply that the tick asks for. -/
theorem exists_withSource_tick (phase : Phase σ) (script : Script) :
    ∃ before : Script, ((phase.withSource before).outcome limit).1 =
      (((phase.tick read limit).withSource script).outcome limit).1 := by
  cases phase with
  | asking config source =>
    obtain ⟨replies⟩ := script
    refine ⟨⟨(read 1 source).1 :: replies⟩, ?_⟩
    have hread : Source.read 1 (Script.mk ((read 1 source).1 :: replies)) =
        ((read 1 source).1, Script.mk replies) := rfl
    rw [← outcome_tick, withSource, tick, tick, hread,
      withSource_ofReply config _ (read 1 source).2]
  | stepping sight tree frames source =>
    refine ⟨script, ?_⟩
    rw [← outcome_tick, withSource, tick, tick, withSource_ofMove]
  | finished result source => exact ⟨script, rfl⟩

/-- What a run comes to from some time on, it comes to on a script. -/
theorem exists_withSource {phase : Phase σ} {result : Except ParseError Tree} {rest : σ}
    (h : phase.run read limit fuel = finished result rest) :
    ∃ script : Script, ((phase.withSource script).outcome limit).1 = result := by
  -- the fuel counts the ticks to the end, so the script grows with the induction
  induction fuel generalizing phase with
  | zero =>
    obtain rfl : phase = finished result rest := h
    exact ⟨⟨[]⟩, rfl⟩
  | succ fuel ih =>
    obtain ⟨script, hscript⟩ := ih h
    obtain ⟨before, hbefore⟩ := exists_withSource_tick phase script
    exact ⟨before, hbefore.trans hscript⟩

end Phase

/-- **Runs that end.** Whatever the source is, a run on it that ends is the reading of a script. -/
theorem parse_of_run {σ : Type} {read : Nat → σ → Except Fault String × σ} {source rest : σ}
    {maxNesting fuel : Nat} {result : Except ParseError Tree}
    (h : (Phase.start source).run read maxNesting fuel = .finished result rest) :
    ∃ script : Script, parse script maxNesting = result :=
  Phase.exists_withSource h

/-- Replies with the characters that open comments, one after the other and for ever. The state says
how many there were. -/
def openingComments (_ count : Nat) : Except Fault String × Nat :=
  (.ok (if count % 2 = 0 then "(" else "*"), count + 1)

end LosslessEbnf
