import LosslessEbnf.Machine.Step

/-!
# Progress of the machine

Every step either takes the character or makes the open productions lighter.

## Main Statements

* `lightens_step` — a step that leaves the character to the next one makes the stack lighter
* `step_ne_next` — at the end of the input no step takes a character
-/

namespace LosslessEbnf

/-- Whether a move that leaves the character to the next step also leaves less than the given
weight. -/
def Move.Lightens (bound : Nat) : Move → Prop
  | again _ frames => weight frames < bound
  | _ => True

namespace Move

@[simp] theorem lightens_again {bound : Nat} {tree : Tree} {frames : List Frame} :
    (again tree frames).Lightens bound ↔ weight frames < bound := Iff.rfl

@[simp] theorem lightens_next {bound : Nat} {tree : Tree} {frames : List Frame} :
    (next tree frames).Lightens bound := trivial

@[simp] theorem lightens_accept {bound : Nat} {tree : Tree} : (accept tree).Lightens bound :=
  trivial

@[simp] theorem lightens_reject {bound : Nat} {tree : Tree} {cause : Cause} :
    (reject tree cause).Lightens bound := trivial

end Move

variable {bound limit : Nat} {sight : Sight} {tree : Tree} {frames below : List Frame}

/-! ### Components that begin -/

@[simp] theorem lightens_unexpected {expected : Expectation} :
    (sight.unexpected tree expected).Lightens bound := by
  unfold Sight.unexpected
  split <;> simp

/-- A mark that has only begun cannot end without taking a character. -/
@[simp] theorem lightens_openLiteral {parent : NodeId} {candidates : List String} :
    (openLiteral sight tree frames parent candidates).Lightens bound := by
  unfold openLiteral stepLiteral settleLiteral
  split
  · dsimp only
    repeat' split
    all_goals simp
  · simp

/-- White space is only opened at a character, and it takes it. At another one the text is
refused. -/
@[simp] theorem lightens_openSpace {parent : NodeId} :
    (openSpace sight tree frames parent).Lightens bound := by
  unfold openSpace
  repeat' split
  all_goals simp

/-- A name begins with the letter that was seen, so it takes the character. -/
@[simp] theorem lightens_openIdentifier {parent : NodeId} {c : Char} :
    (openIdentifier sight tree frames parent c).Lightens bound := by
  simp [openIdentifier]

@[simp] theorem lightens_expectIdentifier {parent : NodeId} {c : Char} :
    (expectIdentifier sight tree frames parent c).Lightens bound := by
  unfold expectIdentifier
  split <;> simp

/-- The opening quote is a mark that begins, and it takes its character or fails. -/
@[simp] theorem lightens_openQuoted {parent : NodeId} {form : Quoted} :
    (openQuoted sight tree frames parent form).Lightens bound := lightens_openLiteral

@[simp] theorem lightens_expectTerminal {parent : NodeId} {c : Char} :
    (expectTerminal sight tree frames parent c).Lightens bound := by
  unfold expectTerminal
  split <;> simp

/-- A comment begins with its mark, which takes a character, unless it would lie too deep and is
refused. -/
@[simp] theorem lightens_openComment {parent : NodeId} :
    (openComment limit sight tree frames parent).Lightens bound := by
  unfold openComment
  split <;> simp

@[simp] theorem lightens_openBracket {parent : NodeId} {b : Bracket} :
    (openBracket limit sight tree frames parent b).Lightens bound := by
  unfold openBracket
  split <;> simp

/-- However a primary begins, it takes its first character: as a name, as a mark, or as a
parenthesis that is looked into at the next step. -/
@[simp] theorem lightens_openPrimary {parent : NodeId} {c : Char} :
    (openPrimary limit sight tree frames parent c).Lightens bound := by
  unfold openPrimary
  repeat' split
  all_goals simp

/-- A repetition opens a number at the digit that was seen, and the number takes it. -/
@[simp] theorem lightens_openRepetition {parent : NodeId} {c : Char} :
    (openRepetition sight tree frames parent c).Lightens bound := by
  unfold openRepetition expectNumber
  split <;> simp

/-- A product opens a name at the letter that was seen, and the name takes it. -/
@[simp] theorem lightens_openProduct {parent : NodeId} {c : Char} :
    (openProduct sight tree frames parent c).Lightens bound := by
  unfold openProduct
  split <;> simp

/-- A bracket with its opener attached waits for its definitions to begin. -/
theorem lightens_attachBracket {parent : NodeId} {b : Bracket} {opener : Span}
    (h : weight frames + 7 < bound) :
    (attachBracket limit sight tree frames parent b opener).Lightens bound := by
  unfold attachBracket
  split
  · simp
  · simp [Frame.weight]
    omega

/-! ### Productions that go on -/

/-- A mark takes its next character, or it ends, fails or is put back. If it ends, its production is
off the stack. -/
theorem lightens_stepLiteral {node : NodeId} {candidates : List String} {read : List Char}
    {best : Option (List Char × Position)} (h : weight below < bound) :
    (stepLiteral sight tree below node candidates read best).Lightens bound := by
  unfold stepLiteral settleLiteral
  split
  · dsimp only
    repeat' split
    all_goals simp [h]
  · split <;> simp [h]

/-- A number or white space takes the character if it belongs to it, and otherwise it is off the
stack. -/
theorem lightens_stepRun {run : Run} {node : NodeId} (h : weight below < bound) :
    (stepRun sight tree below run node).Lightens bound := by
  unfold stepRun
  repeat' split
  all_goals simp [h]

/-- A comment leaves the character if the one before it has turned out to be text, or if the
opening mark of a comment in it is complete. Either way the comments together weigh less than
with the mark. -/
theorem lightens_stepComment {node : NodeId} {text : Option NodeId} {stage : CommentStage} :
    (stepComment limit sight tree below node text stage).Lightens
      (weight (.comment node text stage :: below)) := by
  unfold stepComment
  repeat' split
  all_goals simp [Frame.weight]
  omega

/-- A name takes letters, digits and white space. It leaves the character only when it ends, and
then it is off the stack. -/
theorem lightens_stepIdentifier {node parent : NodeId} {trailing : Option Span}
    (h : weight below < bound) :
    (stepIdentifier sight tree below node parent trailing).Lightens bound := by
  unfold stepIdentifier
  repeat' split
  all_goals simp [h]

/-- A quoted text leaves the character only when it gets the node for its text, which it does once,
behind its opening quote. -/
theorem lightens_stepQuoted {form : Quoted} {node : NodeId} {text : Option NodeId} :
    (stepQuoted sight tree below form node text).Lightens
      (weight (.quoted form node text :: below)) := by
  unfold stepQuoted
  repeat' split
  all_goals simp [Frame.weight]

/-- A parenthesis without a slash or a colon behind it turns into a bracket that is open, and that
weighs less. -/
theorem lightens_stepParen {parent : NodeId} {start : Position} :
    (stepParen limit sight tree below parent start).Lightens
      (weight (.paren parent start :: below)) := by
  have h : weight below + 7 < weight (.paren parent start :: below) := by
    simp [Frame.weight]
    omega
  generalize weight (.paren parent start :: below) = bound at h ⊢
  unfold stepParen
  repeat' split
  all_goals simp [lightens_attachBracket h]

/-- A bracket that has its opener puts its list on the stack and waits for it. Both together weigh
less. With the closer that its list hands over a bracket ends. -/
theorem lightens_stepBracket {b : Bracket} {node : NodeId} {stage : BracketStage} :
    (stepBracket sight tree below b node stage).Lightens
      (weight (.bracket b node stage :: below)) := by
  unfold stepBracket
  repeat' split
  all_goals simp [Frame.weight]
  omega

/-- A term that ends is off the stack, and nothing comes in its place. -/
theorem lightens_endTerm {node : NodeId} {parts : TermParts} (h : weight below < bound) :
    (endTerm sight tree below node parts).Lightens bound := by
  unfold endTerm
  split <;> simp [h]

/-- A term that leaves the character has seen the dash of an exception, which it puts on the stack,
or it ends. -/
theorem lightens_stepTerm {node : NodeId} {parts : TermParts} {dash : Bool} :
    (stepTerm limit sight tree below node parts dash).Lightens
      (weight (.term node parts dash :: below)) := by
  unfold stepTerm
  cases dash with
  | true =>
    simp [Frame.weight]
    omega
  | false =>
    have h : weight below < weight (.term node parts false :: below) := by simp [Frame.weight]
    generalize weight (.term node parts false :: below) = bound at h ⊢
    simp only [Bool.false_eq_true, if_false]
    repeat' split
    all_goals simp [lightens_endTerm h]

/-- An exception that ends is off the stack, and nothing comes in its place. -/
theorem lightens_endException {node : NodeId} {primary : Option NodeId} (h : weight below < bound) :
    (endException sight tree below node primary).Lightens bound := by
  unfold endException
  split <;> simp [h]

/-- An exception takes white space or begins its primary, and both take a character. Otherwise it
ends. -/
theorem lightens_stepException {node term : NodeId} {primary : Option NodeId}
    (h : weight below < bound) :
    (stepException limit sight tree below node term primary).Lightens bound := by
  unfold stepException
  repeat' split
  all_goals simp [lightens_endException h]

theorem lightens_stepRepetition {node : NodeId} :
    (stepRepetition sight tree below node).Lightens bound := by
  unfold stepRepetition
  split <;> simp

/-- A definition that leaves the character has put its term on the stack, which it may only do once
between two commas, or it ends. -/
theorem lightens_stepDefinition {node : NodeId} {start : Position} {term : Option NodeId} :
    (stepDefinition sight tree below node start term).Lightens
      (weight (.definition node start term :: below)) := by
  have h : weight below < weight (.definition node start term :: below) := by
    cases term <;> simp [Frame.weight]
  unfold stepDefinition
  repeat' split
  all_goals simp only [lightens_openSpace, lightens_openLiteral, Move.lightens_reject,
    Move.lightens_again, h]
  simp [Frame.weight]
  omega

/-- A list that leaves the character has put a definition on the stack, or it ends, or the slash in
front of the character has turned out to be a bar. -/
theorem lightens_stepDefinitions {node : NodeId} {stage : ListStage} :
    (stepDefinitions sight tree below node stage).Lightens
      (weight (.definitions node stage :: below)) := by
  unfold stepDefinitions
  repeat' split
  all_goals simp [Frame.weight]
  omega

/-- A product that leaves the character has put its list on the stack and waits for it. Both
together weigh less than a product that has its equals sign. -/
theorem lightens_stepProduct {node lhs : NodeId} {stage : ProductStage} :
    (stepProduct sight tree below node lhs stage).Lightens
      (weight (.product node lhs stage :: below)) := by
  unfold stepProduct
  repeat' split
  all_goals simp [Frame.weight]
  omega

/-- A text that has begun leaves no character. One that has not begins, and it weighs less then. -/
theorem lightens_stepGrammar {begun : Bool} :
    (stepGrammar limit sight tree below begun).Lightens (weight (.grammar begun :: below)) := by
  unfold stepGrammar
  repeat' split
  all_goals simp_all [Frame.weight]

/-! ### All steps -/

/-- A step that leaves the character to the next one makes the stack lighter. There is one case for
each production, and the weights of `Frame.weight` are chosen for them. -/
theorem lightens_step (limit : Nat) (sight : Sight) (tree : Tree) (frames : List Frame) :
    (step limit sight tree frames).Lightens (weight frames) := by
  cases frames with
  | nil => simp [step]
  | cons frame below =>
    cases frame <;> simp only [step]
    case grammar => exact lightens_stepGrammar
    case comment => exact lightens_stepComment
    case product => exact lightens_stepProduct
    case definitions => exact lightens_stepDefinitions
    case definition => exact lightens_stepDefinition
    case term => exact lightens_stepTerm
    case exception => exact lightens_stepException (by simp [Frame.weight])
    case repetition => exact lightens_stepRepetition
    case paren => exact lightens_stepParen
    case opener => exact lightens_attachBracket (by simp [Frame.weight]; omega)
    case bracket => exact lightens_stepBracket
    case quoted => exact lightens_stepQuoted
    case identifier => exact lightens_stepIdentifier (by simp [Frame.weight])
    case run => exact lightens_stepRun (by simp [Frame.weight])
    case literal => exact lightens_stepLiteral (by simp [Frame.weight])
    case matched => simp [stepMatched, Frame.weight]
    case closing => simp [stepClosing, Frame.weight]

/-- A step that leaves the character makes the stack lighter. So only so many of them can follow on
each other. -/
theorem weight_lt_of_step {limit : Nat} {sight : Sight} {tree tree' : Tree}
    {frames frames' : List Frame} (h : step limit sight tree frames = .again tree' frames') :
    weight frames' < weight frames := by
  have := lightens_step limit sight tree frames
  rwa [h] at this

/-! ### The end of the input -/

/-- Whether a move takes the next character. -/
def Move.takes : Move → Bool
  | next .. => true
  | _ => false

/-- A mark that is settled gives back what it has read in advance, and it takes nothing further. -/
theorem takes_settleLiteral {node : NodeId} {best : Option (List Char × Position)} {cause : Cause} :
    (settleLiteral tree below node best cause).takes = false := by
  unfold settleLiteral
  split <;> rfl

theorem takes_endTerm {node : NodeId} {parts : TermParts} :
    (endTerm sight tree below node parts).takes = false := by
  unfold endTerm
  split <;> rfl

theorem takes_endException {node : NodeId} {primary : Option NodeId} :
    (endException sight tree below node primary).takes = false := by
  unfold endException
  split <;> rfl

theorem takes_attachBracket {parent : NodeId} {b : Bracket} {opener : Span} :
    (attachBracket limit sight tree frames parent b opener).takes = false := by
  unfold attachBracket
  split <;> rfl

/-- At the end of the input no step takes a character. There is one case for each production, and
none of them takes what is not there. -/
theorem takes_step_atEnd (limit : Nat) (here : Position) (tree : Tree) (frames : List Frame) :
    (step limit ⟨none, here⟩ tree frames).takes = false := by
  cases frames with
  | nil => rfl
  | cons frame below =>
    cases frame <;> simp only [step]
    case grammar begun => cases begun <;> rfl
    case comment => rfl
    case product stage =>
      cases stage with
      | name => rfl
      | equals => rfl
      | body list closer => cases closer <;> rfl
    case definitions stage => cases stage <;> rfl
    case definition => rfl
    case term dash =>
      cases dash with
      | true => rfl
      | false => exact takes_endTerm
    case exception => exact takes_endException
    case repetition => rfl
    case paren => rfl
    case opener => exact takes_attachBracket
    case bracket b node stage =>
      cases stage with
      | opened opening => rfl
      | body closer =>
        cases closer with
        | none => rfl
        | some closer => simp only [stepBracket]; split <;> rfl
    case quoted text => cases text <;> rfl
    case identifier trailing => cases trailing <;> rfl
    case run => rfl
    case literal => exact takes_settleLiteral
    case matched => rfl
    case closing => rfl

/-- At the end of the input there is no character, and so no step takes one. -/
theorem step_ne_next {limit : Nat} {here : Position} {tree tree' : Tree}
    {frames frames' : List Frame} :
    step limit ⟨none, here⟩ tree frames ≠ .next tree' frames' := by
  intro h
  have := takes_step_atEnd limit here tree frames
  rw [h] at this
  simp [Move.takes] at this

end LosslessEbnf
