import LosslessEbnf.Proofs.Termination

/-!
# Candidates for marks

Which candidates are looked for where a mark is to stand.

## Main Definitions

* `Marks.Sought` — the lists of candidates that the productions look for
* `Frame.Seeks`, `Cause.Seeks` — a mark that is read, or is missing, is one of such candidates
* `Phase.Seeks` — the same at any time of a run

## Main Statements

* `seeks_step` — every step looks for a mark among such candidates
* `Phase.Seeks.run` — and so does every run, on whatever source
-/

namespace LosslessEbnf

/-- The lists of candidates that the productions look for. -/
inductive Marks.Sought : List String → Prop
  /-- The opener of a comment. -/
  | comment : Sought ["(*"]
  /-- The mark between the sides of a product. -/
  | equals : Sought ["="]
  /-- The marks that end a product. -/
  | terminators : Sought terminators
  /-- The marks between definitions. -/
  | separators : Sought separators
  /-- The mark between terms. -/
  | comma : Sought [","]
  /-- The mark in front of an exception. -/
  | dash : Sought ["-"]
  /-- The mark of a repetition. -/
  | star : Sought ["*"]
  /-- The marks around a text. -/
  | quoted (form : Quoted) : Sought [String.singleton form.mark]
  /-- The spellings that open a bracket. -/
  | openers (b : Bracket) : Sought b.openers
  /-- The spellings that close a bracket. -/
  | closers (b : Bracket) : Sought b.closers

/-- A mark that is being read is looked for among such candidates, and one that was read is one of
them. -/
@[simp] def Frame.Seeks : Frame → Prop
  | literal _ candidates _ _ => Marks.Sought candidates
  | matched _ text _ => ∃ candidates, Marks.Sought candidates ∧ String.ofList text ∈ candidates
  | _ => True

/-- A mark that is missing was looked for among such candidates. -/
@[simp] def Cause.Seeks : Cause → Prop
  | noLiteral candidates _ => Marks.Sought candidates
  | _ => True

/-- The marks of all open productions are looked for among such candidates. -/
def Seeking (frames : List Frame) : Prop := ∀ frame ∈ frames, frame.Seeks

/-- What a move leaves open, or refuses, is looked for among such candidates. -/
def Move.Seeks : Move → Prop
  | again _ frames | next _ frames => Seeking frames
  | accept _ => True
  | reject _ cause => cause.Seeks

section

variable {limit : Nat} {sight : Sight} {tree : Tree} {frame : Frame} {frames below : List Frame}
  {node parent : NodeId} {c : Char}

@[simp] theorem seeking_nil : Seeking [] := nofun

@[simp] theorem seeking_cons : Seeking (frame :: below) ↔ frame.Seeks ∧ Seeking below :=
  List.forall_mem_cons

@[simp] theorem seeks_again : (Move.again tree frames).Seeks ↔ Seeking frames := Iff.rfl

@[simp] theorem seeks_next : (Move.next tree frames).Seeks ↔ Seeking frames := Iff.rfl

@[simp] theorem seeks_accept : (Move.accept tree).Seeks := trivial

@[simp] theorem seeks_reject {cause : Cause} : (Move.reject tree cause).Seeks ↔ cause.Seeks :=
  Iff.rfl

/-! ### Components that begin -/

@[simp] theorem seeks_unexpected {expected : Expectation} :
    (sight.unexpected tree expected).Seeks := by
  unfold Sight.unexpected
  split <;> trivial

/-- A mark that goes on is looked for among the candidates that it was looked for among before. If
it ends in full it is one of them, and a refusal names them. -/
theorem seeks_stepLiteral {candidates : List String} {read : List Char}
    {best : Option (List Char × Position)} (hsought : Marks.Sought candidates)
    (h : Seeking below) :
    (stepLiteral sight tree below node candidates read best).Seeks := by
  have hsettle : ∀ cause : Cause, cause.Seeks →
      (settleLiteral tree below node best cause).Seeks := by
    intro cause hcause
    cases best with
    | none => exact hcause
    | some best => exact h
  unfold stepLiteral
  split
  · dsimp only
    split
    · exact seeking_cons.mpr ⟨hsought, h⟩
    · split
      · rename_i hfull
        exact seeking_cons.mpr ⟨⟨candidates, hsought, any_isRead_iff.mp hfull⟩, h⟩
      · exact hsettle _ hsought
  · refine hsettle _ ?_
    split
    · exact hsought
    · trivial

theorem seeks_openLiteral {candidates : List String} (hsought : Marks.Sought candidates)
    (h : Seeking frames) : (openLiteral sight tree frames parent candidates).Seeks :=
  seeks_stepLiteral hsought h

/-- White space is no mark, and what refuses another character names no candidates. -/
@[simp] theorem seeks_openSpace (h : Seeking frames) :
    (openSpace sight tree frames parent).Seeks := by
  unfold openSpace
  split
  · split
    · exact seeking_cons.mpr ⟨trivial, h⟩
    · trivial
  · trivial

/-- A comment looks for the two characters that open it. -/
theorem seeks_openComment (h : Seeking frames) :
    (openComment limit sight tree frames parent).Seeks := by
  unfold openComment
  split
  · trivial
  · exact seeks_openLiteral .comment (seeking_cons.mpr ⟨trivial, h⟩)

/-- A name is no mark, and no mark is looked for where it is missing. -/
theorem seeks_expectIdentifier (h : Seeking frames) :
    (expectIdentifier sight tree frames parent c).Seeks := by
  unfold expectIdentifier
  split
  · exact seeking_cons.mpr ⟨trivial, h⟩
  · exact seeks_unexpected

/-- A quoted text looks for the quote that the character in front of it asks for. -/
theorem seeks_openQuoted {form : Quoted} (h : Seeking frames) :
    (openQuoted sight tree frames parent form).Seeks :=
  seeks_openLiteral (.quoted form) (seeking_cons.mpr ⟨trivial, h⟩)

/-- A bracket looks for the spellings of its opener. -/
theorem seeks_openBracket {b : Bracket} (h : Seeking frames) :
    (openBracket limit sight tree frames parent b).Seeks := by
  unfold openBracket
  split
  · trivial
  · exact seeks_openLiteral (.openers b) (seeking_cons.mpr ⟨trivial, h⟩)

/-- The opener of such a bracket has been read before, and no mark is looked for with it. -/
theorem seeks_attachBracket {b : Bracket} {opener : Span} (h : Seeking frames) :
    (attachBracket limit sight tree frames parent b opener).Seeks := by
  unfold attachBracket
  split
  · trivial
  · exact seeking_cons.mpr ⟨trivial, h⟩

/-- A primary looks for a quote, for the opener of a bracket, or for no mark at all. -/
theorem seeks_openPrimary (h : Seeking frames) :
    (openPrimary limit sight tree frames parent c).Seeks := by
  unfold openPrimary expectTerminal
  repeat' split
  all_goals simp [seeks_expectIdentifier, seeks_openQuoted, seeks_openBracket, h]

/-- A closer that is handed over is a mark that has been read, and the production that gets it looks
for no other. -/
theorem seeking_handOver {closer : Span} (h : Seeking below) : Seeking (handOver closer below) := by
  unfold handOver
  split <;> simp_all

/-! ### Productions that go on -/

/-- Within a comment no mark is looked for among candidates; each of its marks is told by two
characters. -/
theorem seeks_stepComment {text : Option NodeId} {stage : CommentStage} (h : Seeking below) :
    (stepComment limit sight tree below node text stage).Seeks := by
  unfold stepComment
  repeat' split
  all_goals simp [h]

/-- A bracket looks for its closer among those that belong to it. -/
theorem seeks_stepBracket {b : Bracket} {stage : BracketStage} (h : Seeking below) :
    (stepBracket sight tree below b node stage).Seeks := by
  unfold stepBracket
  cases stage with
  | opened opening => dsimp only; split <;> simp [h]
  | body closer =>
    cases closer with
    | none => exact seeks_openLiteral (.closers b) (seeking_cons.mpr ⟨trivial, h⟩)
    | some closer => dsimp only; split <;> simp [h]

/-- A quoted text ends with the quote that it began with. -/
theorem seeks_stepQuoted {form : Quoted} {text : Option NodeId} (h : Seeking below) :
    (stepQuoted sight tree below form node text).Seeks := by
  unfold stepQuoted
  repeat' split
  all_goals simp [h, seeks_openLiteral, Marks.Sought.quoted]

/-- What stands behind a parenthesis is told by a single character. -/
theorem seeks_stepParen {start : Position} (h : Seeking below) :
    (stepParen limit sight tree below parent start).Seeks := by
  unfold stepParen
  repeat' split
  all_goals simp [h, seeks_attachBracket]

/-- A name ends in front of what does not belong to it, whatever that is. -/
theorem seeks_stepIdentifier {trailing : Option Span} (h : Seeking below) :
    (stepIdentifier sight tree below node parent trailing).Seeks := by
  unfold stepIdentifier
  repeat' split
  all_goals simp [h]

/-- A term looks for the dash of its exception. -/
theorem seeks_stepTerm {parts : TermParts} {dash : Bool} (h : Seeking below) :
    (stepTerm limit sight tree below node parts dash).Seeks := by
  unfold stepTerm endTerm openRepetition expectNumber
  repeat' split
  all_goals simp [h, seeks_openLiteral, Marks.Sought.dash, seeks_openPrimary]

/-- An exception looks for no mark of its own; what it looks for is that of its primary. -/
theorem seeks_stepException {term : NodeId} {primary : Option NodeId} (h : Seeking below) :
    (stepException limit sight tree below node term primary).Seeks := by
  unfold stepException endException
  repeat' split
  all_goals simp [h, seeks_openPrimary]

/-- A repetition looks for its star. -/
theorem seeks_stepRepetition (h : Seeking below) :
    (stepRepetition sight tree below node).Seeks := by
  unfold stepRepetition
  split
  all_goals simp [h, seeks_openLiteral, Marks.Sought.star]

/-- A definition looks for the comma between two terms. -/
theorem seeks_stepDefinition {start : Position} {term : Option NodeId} (h : Seeking below) :
    (stepDefinition sight tree below node start term).Seeks := by
  unfold stepDefinition
  repeat' split
  all_goals simp [h, seeks_openLiteral, Marks.Sought.comma]

/-- A list looks for what may stand between two definitions. The slash is told by the character
behind it. -/
theorem seeks_stepDefinitions {stage : ListStage} (h : Seeking below) :
    (stepDefinitions sight tree below node stage).Seeks := by
  unfold stepDefinitions
  repeat' split
  all_goals simp [h, seeks_openLiteral, Marks.Sought.separators, seeking_handOver]

/-- A product looks for its equals sign and then for what ends it. -/
theorem seeks_stepProduct {lhs : NodeId} {stage : ProductStage} (h : Seeking below) :
    (stepProduct sight tree below node lhs stage).Seeks := by
  unfold stepProduct
  repeat' split
  all_goals simp [h, seeks_openLiteral, Marks.Sought.equals, Marks.Sought.terminators]

/-- Between the items a text looks for no mark but the opening one of a comment. -/
theorem seeks_stepGrammar {begun : Bool} (h : Seeking below) :
    (stepGrammar limit sight tree below begun).Seeks := by
  unfold stepGrammar openProduct
  repeat' split
  all_goals simp [h, seeks_openComment, seeks_expectIdentifier]

/-- **Step lemma.** Whatever production is on top, a mark that its step begins or misses is looked
for among candidates that are sought. -/
theorem seeks_step (limit : Nat) (sight : Sight) (tree : Tree) (h : Seeking frames) :
    (step limit sight tree frames).Seeks := by
  cases frames with
  | nil => trivial
  | cons frame below =>
    obtain ⟨hframe, hbelow⟩ := seeking_cons.mp h
    cases frame
    case grammar => exact seeks_stepGrammar hbelow
    case comment => exact seeks_stepComment hbelow
    case product => exact seeks_stepProduct hbelow
    case definitions => exact seeks_stepDefinitions hbelow
    case definition => exact seeks_stepDefinition hbelow
    case term => exact seeks_stepTerm hbelow
    case exception => exact seeks_stepException hbelow
    case repetition => exact seeks_stepRepetition hbelow
    case paren => exact seeks_stepParen hbelow
    case opener => exact seeks_attachBracket hbelow
    case bracket => exact seeks_stepBracket hbelow
    case quoted => exact seeks_stepQuoted hbelow
    case identifier => exact seeks_stepIdentifier hbelow
    case run =>
      rw [step, stepRun]
      repeat' split
      all_goals simp [hbelow]
    case literal => exact seeks_stepLiteral hframe hbelow
    case matched => exact hbelow
    case closing => exact hbelow

end

/-! ### Runs -/

namespace Phase

variable {σ : Type} {read : Nat → σ → Except Fault String × σ} {limit fuel : Nat}

/-- The marks that are read, or are missing, are looked for among candidates that are sought. -/
def Seeks : Phase σ → Prop
  | asking config _ => Seeking config.frames
  | stepping _ _ frames _ => Seeking frames
  | finished (.error error) _ => error.cause.Seeks
  | finished (.ok _) _ => True

/-- At first nothing is open but the text, which looks for no mark. -/
theorem seeks_start (source : σ) : (start source).Seeks :=
  seeking_cons.mpr ⟨trivial, seeking_nil⟩

/-- A reply opens and closes nothing, and a step looks for marks as `seeks_step` says. -/
theorem Seeks.tick {phase : Phase σ} (h : phase.Seeks) : (phase.tick read limit).Seeks := by
  cases phase with
  | finished result source => exact h
  | asking config source =>
    rw [Phase.tick]
    cases hread : read 1 source with
    | mk reply rest =>
      cases reply with
      | error fault => trivial
      | ok text => exact h
  | stepping sight tree frames source =>
    have hstep := seeks_step limit sight tree h
    rw [Phase.tick]
    cases hmove : step limit sight tree frames with
    | again tree' frames' =>
      rw [hmove] at hstep
      exact hstep
    | next tree' frames' =>
      rw [hmove] at hstep
      rw [ofMove]
      split
      · exact hstep
      · trivial
    | accept tree' => trivial
    | reject tree' cause =>
      rw [hmove] at hstep
      exact hstep

/-- **Run lemma.** At any time of a run, whatever the source replies, the marks that are looked for
are among such candidates. -/
theorem Seeks.run {phase : Phase σ} (h : phase.Seeks) : (phase.run read limit fuel).Seeks := by
  induction fuel generalizing phase with
  | zero => exact h
  | succ fuel ih => exact ih h.tick

end Phase

end LosslessEbnf
