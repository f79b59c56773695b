import LosslessEbnf.Machine.Progress

/-!
# Runs of the machine

The machine reads a source character by character until the text is complete, cannot be read, or the
source fails.

## Main Definitions

* `settle` — all steps for one character
* `Config` — the machine between two characters
* `drive` — the run on a source
* `runText` — the run on a text

## Main Statements

* `settle_eq` — the steps for one character, unrolled by one step
* `settle_induction` — what every step keeps that leaves the character
* `drive_induction` — what all steps for one character keep
* `drive_textSource` — the run on a source of text is the run on the text

## Design Notes

The source is asked for one character at a time. A source may reply with more: then the first one is
what the machine sees, and the rest only moves the position. A reply without characters ends the
input, and the source is not asked again.
-/

namespace LosslessEbnf

/-- What all steps for one character come to. -/
inductive Outcome
  /-- The character is taken, and another one is needed. -/
  | waiting (tree : Tree) (frames : List Frame)
  /-- The text is complete. -/
  | accepted (tree : Tree)
  /-- The text cannot be read. -/
  | rejected (tree : Tree) (cause : Cause)
  deriving DecidableEq, Repr

/-- Makes steps until the character is taken or the run ends. -/
def settle (limit : Nat) (sight : Sight) (tree : Tree) (frames : List Frame) : Outcome :=
  match _h : step limit sight tree frames with
  | .again tree' frames' => settle limit sight tree' frames'
  | .next tree' frames' => .waiting tree' frames'
  | .accept tree' => .accepted tree'
  | .reject tree' cause => .rejected tree' cause
termination_by weight frames
decreasing_by exact weight_lt_of_step _h

/-- The steps for one character, unrolled by one step: it leaves the character to further ones, or
it decides. -/
theorem settle_eq (limit : Nat) (sight : Sight) (tree : Tree) (frames : List Frame) :
    settle limit sight tree frames =
      match step limit sight tree frames with
      | .again tree' frames' => settle limit sight tree' frames'
      | .next tree' frames' => .waiting tree' frames'
      | .accept tree' => .accepted tree'
      | .reject tree' cause => .rejected tree' cause := by
  rw [settle]
  split <;> simp_all

/-- What a step keeps that leaves the character holds until the last step for the character, which
decides what comes of it. -/
theorem settle_induction {limit : Nat} {sight : Sight} {P : Tree → List Frame → Prop}
    {Q : Outcome → Prop}
    (hstep : ∀ tree frames, P tree frames →
      match step limit sight tree frames with
      | .again tree' frames' => P tree' frames'
      | .next tree' frames' => Q (.waiting tree' frames')
      | .accept tree' => Q (.accepted tree')
      | .reject tree' cause => Q (.rejected tree' cause))
    {tree : Tree} {frames : List Frame} (h : P tree frames) :
    Q (settle limit sight tree frames) := by
  -- a step that leaves the character makes the stack lighter, so the induction is on its weight
  induction hw : weight frames using Nat.strongRecOn generalizing tree frames with
  | ind n ih =>
    have hnext := hstep tree frames h
    rw [settle_eq]
    cases hmove : step limit sight tree frames with
    | again tree' frames' =>
      rw [hmove] at hnext
      exact ih _ (hw ▸ weight_lt_of_step hmove) hnext rfl
    | next tree' frames' | accept tree' | reject tree' cause =>
      rw [hmove] at hnext
      exact hnext

/-- At the end of the input no further character is waited for. -/
theorem settle_atEnd_ne_waiting (limit : Nat) (here : Position) (tree tree' : Tree)
    (frames frames' : List Frame) :
    settle limit ⟨none, here⟩ tree frames ≠ .waiting tree' frames' := by
  refine settle_induction (P := fun _ _ => True)
    (Q := fun outcome => outcome ≠ .waiting tree' frames') (fun tree frames _ => ?_) trivial
  cases hstep : step limit ⟨none, here⟩ tree frames with
  | next tree₁ frames₁ => exact absurd hstep step_ne_next
  | again tree₁ frames₁ => trivial
  | accept tree₁ | reject tree₁ cause => nofun

/-- The machine between two characters. -/
structure Config where
  /-- The tree read so far. -/
  tree : Tree
  /-- The open productions, the innermost first. -/
  frames : List Frame
  /-- The position of the last character that was delivered. -/
  position : Position
  deriving DecidableEq, Repr

namespace Config

/-- The machine before the first character. -/
def initial : Config := ⟨.empty, [.grammar false], .start⟩

/-- The failure of a run in which the source failed. -/
def interrupted (config : Config) (fault : Fault) : ParseError :=
  ⟨.unreadable fault, config.position, config.tree⟩

end Config

/-- Ends a run at the end of the input. No outcome waits there (`settle_atEnd_ne_waiting`). -/
def finish (limit : Nat) (config : Config) : Except ParseError Tree :=
  match settle limit ⟨none, config.position⟩ config.tree config.frames with
  | .waiting tree _ => .ok tree
  | .accepted tree => .ok tree
  | .rejected tree cause => .error ⟨cause, config.position, tree⟩

/-- Runs the machine on a source. Gives the result and what is left of the source. -/
def drive {σ : Type} [Source σ] (limit : Nat) (config : Config) (source : σ) :
    Except ParseError Tree × σ :=
  match _h : Source.read 1 source with
  | (.error fault, rest) => (.error (config.interrupted fault), rest)
  | (.ok text, rest) =>
    if _ht : text.toList = [] then (finish limit config, rest)
    else
      let here := config.position.afterAll text.toList
      match settle limit ⟨text.toList.head?, here⟩ config.tree config.frames with
      | .waiting tree frames => drive limit ⟨tree, frames, here⟩ rest
      | .accepted tree => (.ok tree, rest)
      | .rejected tree cause => (.error ⟨cause, here, tree⟩, rest)
termination_by Source.size source
decreasing_by exact Source.size_lt _h _ht

/-- What all steps for one character keep holds on a source, too, whatever it replies, and gives
what is true of the result. -/
theorem drive_induction {σ : Type} [Source σ] {limit : Nat} {P : Tree → List Frame → Prop}
    {Q : Except ParseError Tree → Prop}
    (hfault : ∀ (config : Config) fault, P config.tree config.frames →
      Q (.error (config.interrupted fault)))
    (hsettle : ∀ sight tree frames, P tree frames →
      match settle limit sight tree frames with
      | .waiting tree' frames' => P tree' frames'
      | .accepted tree' => Q (.ok tree')
      | .rejected tree' cause => Q (.error ⟨cause, sight.here, tree'⟩))
    (source : σ) {config : Config} (h : P config.tree config.frames) :
    Q (drive limit config source).1 := by
  -- a source that delivers characters gets smaller
  induction hn : Source.size source using Nat.strongRecOn generalizing source config with
  | ind n ih =>
    rw [drive]
    split
    · exact hfault config _ h
    · rename_i text rest hread
      split
      · have hend := hsettle ⟨none, config.position⟩ config.tree config.frames h
        rw [finish]
        split
        · rename_i hwaiting
          exact (settle_atEnd_ne_waiting _ _ _ _ _ _ hwaiting).elim
        all_goals
          rename_i houtcome
          rw [houtcome] at hend
          exact hend
      · rename_i hne
        have hnext := hsettle ⟨text.toList.head?, config.position.afterAll text.toList⟩
          config.tree config.frames h
        dsimp only
        split
        · rename_i hwaiting
          rw [hwaiting] at hnext
          exact ih _ (hn ▸ Source.size_lt hread hne) _ hnext rfl
        all_goals
          rename_i houtcome
          rw [houtcome] at hnext
          exact hnext

/-- Runs the machine on a text. -/
def runText (limit : Nat) (config : Config) : List Char → Except ParseError Tree
  | [] => finish limit config
  | c :: text =>
    let here := config.position.after c
    match settle limit ⟨some c, here⟩ config.tree config.frames with
    | .waiting tree frames => runText limit ⟨tree, frames, here⟩ text
    | .accepted tree => .ok tree
    | .rejected tree cause => .error ⟨cause, here, tree⟩

@[simp] theorem runText_nil (limit : Nat) (config : Config) :
    runText limit config [] = finish limit config := rfl

theorem runText_cons (limit : Nat) (config : Config) (c : Char) (text : List Char) :
    runText limit config (c :: text) =
      match settle limit ⟨some c, config.position.after c⟩ config.tree config.frames with
      | .waiting tree frames => runText limit ⟨tree, frames, config.position.after c⟩ text
      | .accepted tree => .ok tree
      | .rejected tree cause => .error ⟨cause, config.position.after c, tree⟩ := rfl

/-- The run on a source of text is the run on the text. -/
theorem drive_textSource (limit : Nat) (config : Config) (text : List Char) :
    (drive limit config (TextSource.mk text)).1 = runText limit config text := by
  induction text generalizing config with
  | nil =>
    rw [drive]
    simp [Source.read]
  | cons c text ih =>
    rw [drive, runText_cons]
    simp only [Source.read, List.take_succ_cons, List.take_zero, List.drop_succ_cons,
      List.drop_zero, String.toList_ofList, List.cons_ne_nil, dite_false, List.head?_cons,
      Position.afterAll_cons, Position.afterAll_nil]
    split <;> simp_all

end LosslessEbnf
