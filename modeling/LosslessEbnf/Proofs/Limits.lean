import LosslessEbnf.Machine.Run
import LosslessEbnf.Proofs.Nesting

/-!
# Limits of the nesting

Only a step that may let in a comment or a bracket asks for the limit, and it compares the limit
with how deep that would lie. So a larger limit changes nothing but that a comment or a bracket is
let in which the smaller one refuses.

## Main Definitions

* `passage` — whether a step lets in a comment or a bracket or ends one
* `Checks` — how a move depends on the limit
* `Outcome.Relaxes` — what a larger limit makes of an outcome

## Main Statements

* `checks_step` — a step compares the limit with the nesting of the open productions
* `relaxes_step` — what a larger limit makes of a step
* `relaxes_settle` — what a larger limit makes of all steps for one character

## Design Notes

A step asks for the limit before the tree changes. So all limits agree until one of them refuses.
-/

namespace LosslessEbnf

/-! ### What a step does to the nesting -/

/-- What a step does to a counter of the nesting. -/
inductive Passage
  /-- A comment or a bracket is let in. -/
  | enter
  /-- A comment or a bracket ends. -/
  | leave
  /-- Neither. -/
  | stay
  deriving DecidableEq, Repr

/-- Whether a bracket begins with the character, whatever follows it. -/
def opensBracket (c : Char) : Bool := c == '\x7b' || c == '['

/-- A character that opens a bracket is in no class and is no quote. -/
theorem mem_of_opensBracket {c : Char} (h : opensBracket c = true) : c = '\x7b' ∨ c = '[' := by
  simpa [opensBracket] using h

/-- What the step of the production on top does to the nesting if it does not refuse the text. -/
def passage (sight : Sight) (tree : Tree) : List Frame → Passage
  | .grammar true :: _ => if sight.ahead = some '(' then .enter else .stay
  | .comment _ _ (.mark first _) :: _ =>
    if first = '*' ∧ sight.ahead = some ')' then .leave else .stay
  | .comment _ _ (.opened _) :: _ => .enter
  | .term _ _ false :: _ | .exception .. :: _ =>
    if sight.ahead.any opensBracket then .enter else .stay
  | .paren .. :: _ =>
    if sight.ahead = some '/' ∨ sight.ahead = some ':' then .stay else .enter
  | .opener .. :: _ => .enter
  | .bracket b _ (.body (some _)) :: _ => if b = .repeated then .leave else .stay
  | .closing node :: _ => if (tree.kind node).nests then .leave else .stay
  | _ => .stay

/-! ### What asks for the limit -/

/-- The move does not depend on the limit, or something is let in by just the limits above the
depth: with the other ones the move is the refusal of what lies too deep. -/
def Checks (enters : Prop) (depth : Nat) (move : Nat → Move) : Prop :=
  (∀ n m, move n = move m) ∨ enters ∧ ∃ refused admitted, ∀ n,
    move n = if n ≤ depth then .reject refused (.nestingTooDeep n) else admitted

namespace Checks

variable {enters : Prop} {depth : Nat}

/-- A move that does not mention the limit is the same with all limits. -/
theorem free (move : Move) : Checks enters depth fun _ => move := Or.inl fun _ _ => rfl

/-- A move that begins with the comparison is a refusal with the limits up to the depth, and
otherwise does not depend on the limit. -/
theorem asks (h : enters) (refused : Tree) (admitted : Move) :
    Checks enters depth fun n =>
      if n ≤ depth then .reject refused (.nestingTooDeep n) else admitted :=
  Or.inr ⟨h, refused, admitted, fun _ => rfl⟩

theorem imp {enters' : Prop} {move : Nat → Move} (h : Checks enters depth move)
    (himp : enters → enters') : Checks enters' depth move :=
  h.imp_right fun ⟨henters, hasks⟩ => ⟨himp henters, hasks⟩

/-- With two limits the move is the same unless the smaller one refuses what lies too deep. -/
theorem compare {move : Nat → Move} (h : Checks enters depth move) {n m : Nat} (hnm : n ≤ m) :
    move n = move m ∨
      enters ∧ n ≤ depth ∧ ∃ refused, move n = .reject refused (.nestingTooDeep n) := by
  rcases h with hfree | ⟨henters, refused, admitted, hasks⟩
  · exact Or.inl (hfree n m)
  · by_cases hn : n ≤ depth
    · exact Or.inr ⟨henters, hn, refused, by rw [hasks, if_pos hn]⟩
    · rw [hasks n, hasks m, if_neg hn, if_neg fun hm => hn (Nat.le_trans hnm hm)]
      exact Or.inl rfl

/-- Which way a move goes is decided without the limit. -/
theorem ite {p : Prop} [Decidable p] {move other : Nat → Move} (hpos : p → Checks enters depth move)
    (hneg : ¬p → Checks enters depth other) :
    Checks enters depth fun n => if p then move n else other n := by
  by_cases h : p
  · simpa only [if_pos h] using hpos h
  · simpa only [if_neg h] using hneg h

end Checks

section

variable {n m : Nat} {sight : Sight} {tree : Tree} {frames below : List Frame} {parent : NodeId}

theorem checks_openBracket {enters : Prop} (h : enters) (b : Bracket) :
    Checks enters (nesting frames) fun n => openBracket n sight tree frames parent b :=
  .asks h ..

theorem checks_openPrimary {depth : Nat} (hdepth : nesting frames = depth) (c : Char) :
    Checks (opensBracket c = true) depth fun n =>
      openPrimary n sight tree frames parent c := by
  subst hdepth
  unfold openPrimary
  refine .ite (fun _ => .free _) fun _ => .ite (fun _ => .free _) fun _ => ?_
  refine .ite (fun hbrace => checks_openBracket (hbrace ▸ rfl) _) fun _ => ?_
  exact .ite (fun hbracket => checks_openBracket (hbracket ▸ rfl) _) fun _ => .free _

theorem checks_stepGrammar (begun : Bool) :
    Checks (passage sight tree (.grammar begun :: below) = .enter)
      (nesting (.grammar begun :: below)) fun n => stepGrammar n sight tree below begun := by
  cases begun with
  | false => exact .free _
  | true =>
    unfold stepGrammar
    cases hahead : sight.ahead with
    | none => exact .free _
    | some c =>
      refine .ite (fun _ => .ite (fun hparen => .asks ?_ ..) fun _ => .free _) fun _ => .free _
      exact if_pos (hparen ▸ hahead)

theorem checks_stepComment (id : NodeId) (text : Option NodeId) (stage : CommentStage) :
    Checks (passage sight tree (.comment id text stage :: below) = .enter)
      (nesting (.comment id text stage :: below)) fun n =>
        stepComment n sight tree below id text stage := by
  unfold stepComment
  cases sight.ahead with
  | none => exact .free _
  | some c =>
    cases stage with
    | body | mark => exact .free _
    | opened opener => exact .asks rfl ..

theorem checks_stepTerm (id : NodeId) (parts : TermParts) (dash : Bool) :
    Checks (passage sight tree (.term id parts dash :: below) = .enter)
      (nesting (.term id parts dash :: below)) fun n =>
        stepTerm n sight tree below id parts dash := by
  unfold stepTerm
  cases dash with
  | true => exact .free _
  | false =>
    cases hahead : sight.ahead with
    | none => exact .free _
    | some c =>
      refine .ite (fun h => absurd h Bool.false_ne_true) fun _ => ?_
      refine .ite (fun _ => .free _) fun _ => .ite (fun _ => .free _) fun _ => ?_
      refine .ite (fun _ => .free _) fun _ => ?_
      refine .ite (fun _ => ?_) fun _ => .free _
      cases parts.primary with
      | some held => exact .free _
      | none =>
        dsimp only
        refine (checks_openPrimary ?_ c).imp fun hopens => ?_
        · rfl
        · simp [passage, hahead, hopens]

theorem checks_stepException (id term : NodeId) (primary : Option NodeId) :
    Checks (passage sight tree (.exception id term primary :: below) = .enter)
      (nesting (.exception id term primary :: below)) fun n =>
        stepException n sight tree below id term primary := by
  unfold stepException
  cases hahead : sight.ahead with
  | none => exact .free _
  | some c =>
    refine .ite (fun _ => .free _) fun _ => .ite (fun _ => ?_) fun _ => .free _
    cases primary with
    | some held => exact .free _
    | none =>
      dsimp only
      refine (checks_openPrimary ?_ c).imp fun hopens => ?_
      · rfl
      · simp [passage, hahead, hopens]

theorem checks_stepParen (start : Position) :
    Checks (passage sight tree (.paren parent start :: below) = .enter)
      (nesting (.paren parent start :: below)) fun n =>
        stepParen n sight tree below parent start := by
  unfold stepParen
  cases hahead : sight.ahead with
  | none => exact .free _
  | some c =>
    refine .ite (fun _ => .free _) fun hslash => .ite (fun _ => .free _) fun hcolon => .asks ?_ ..
    simp [passage, hahead, hslash, hcolon]

/-- A step compares the limit with the nesting of the open productions, and only where it may let in
a comment or a bracket. -/
theorem checks_step (sight : Sight) (tree : Tree) (frames : List Frame) :
    Checks (passage sight tree frames = .enter) (nesting frames) fun n =>
      step n sight tree frames := by
  cases frames with
  | nil => exact .free _
  | cons frame below =>
    cases frame with
    | grammar begun => exact checks_stepGrammar begun
    | comment id text stage => exact checks_stepComment id text stage
    | term id parts dash => exact checks_stepTerm id parts dash
    | exception id term primary => exact checks_stepException id term primary
    | paren parent start => exact checks_stepParen start
    | opener b parent opener => exact .asks rfl ..
    | _ => exact .free _

/-- With a larger limit a step is the same unless it lets in what the smaller one refuses. -/
theorem relaxes_step (h : n ≤ m) (sight : Sight) (tree : Tree) (frames : List Frame) :
    step n sight tree frames = step m sight tree frames ∨
      passage sight tree frames = .enter ∧ n ≤ nesting frames ∧
        ∃ refused, step n sight tree frames = .reject refused (.nestingTooDeep n) :=
  (checks_step sight tree frames).compare h

end

/-! ### All steps -/

/-- With the limit `n` all steps come to the first outcome, and with a larger one to the second. -/
def Outcome.Relaxes (n : Nat) (strict loose : Outcome) : Prop :=
  strict = loose ∨ ∃ tree, strict = .rejected tree (.nestingTooDeep n)

/-- What a larger limit makes of all steps for one character: the same, unless one of them refuses
what lies too deep. -/
theorem relaxes_settle {n m : Nat} (h : n ≤ m) (sight : Sight) (tree : Tree)
    (frames : List Frame) :
    (settle n sight tree frames).Relaxes n (settle m sight tree frames) := by
  -- a step that leaves the character makes the stack lighter, so the induction is on its weight
  induction hw : weight frames using Nat.strongRecOn generalizing tree frames with
  | ind w ih =>
    rw [settle_eq n, settle_eq m]
    rcases relaxes_step h sight tree frames with hsame | ⟨-, -, tree', hrefused⟩
    · rw [← hsame]
      cases hstep : step n sight tree frames with
      | again tree' frames' => exact ih _ (hw ▸ weight_lt_of_step hstep) tree' frames' rfl
      | next tree' frames' => exact Or.inl rfl
      | accept tree' => exact Or.inl rfl
      | reject tree' cause => exact Or.inl rfl
    · rw [hrefused]
      exact Or.inr ⟨tree', rfl⟩

/-- What is waited for with one limit is waited for with a larger one. -/
theorem settle_eq_waiting_of_le {n m : Nat} (h : n ≤ m) {sight : Sight} {tree tree' : Tree}
    {frames frames' : List Frame} (hwaiting : settle n sight tree frames = .waiting tree' frames') :
    settle m sight tree frames = .waiting tree' frames' := by
  rcases relaxes_settle h sight tree frames with hsame | ⟨refused, hrefused⟩
  · rw [← hsame, hwaiting]
  · rw [hwaiting] at hrefused
    cases hrefused

end LosslessEbnf
