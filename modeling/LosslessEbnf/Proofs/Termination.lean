import LosslessEbnf.Parse

/-!
# Runs that end

Reading comes to an end, whatever the source replies, as long as it stops replying with characters.

## Main Definitions

* `Yields` — a source that replies with characters only so many times
* `Phase`, `Phase.run` — the run on any source, one step or one reply at a time
* `Loop`, `Frame.loop?` — the loops of the productions, and which of them a production is about to
  go round
* `Turn` — one turn of a loop

## Main Statements

* `weight_le_of_step` — a step that takes the character makes the stack heavier by at most 8
* `Phase.exists_finished` — a run ends after a number of steps that is linear in the number of
  replies
* `turn_of_loop` — each turn of a loop takes the character or leaves the loop
* `parse_ends` — all of this together

## Design Notes

Between two replies the stack gets lighter with each step, and each reply makes it heavier by no
more than a constant. So the weight of the stack and the number of replies to come make up a
measure. It also shows that a loop cannot come back to its head before the character is taken:
wherever its production is at the head, it weighs the same. Only a definition gets lighter as it
goes, when a term begins; but the term takes the character at once.
-/

namespace LosslessEbnf

/-! ### What a step does to the stack -/

/-- Whether a move that leaves the character keeps the productions `below`, and one that takes it
leaves no more than the given weight. -/
def Move.Modest (bound : Nat) (below : List Frame) : Move → Prop
  | again _ frames => below <:+ frames
  | next _ frames => weight frames ≤ bound
  | _ => True

namespace Move

variable {bound : Nat} {tree : Tree} {frames below : List Frame}

@[simp] theorem modest_again : (again tree frames).Modest bound below ↔ below <:+ frames := Iff.rfl

@[simp] theorem modest_next : (next tree frames).Modest bound below ↔ weight frames ≤ bound :=
  Iff.rfl

@[simp] theorem modest_accept : (accept tree).Modest bound below := trivial

@[simp] theorem modest_reject {cause : Cause} : (reject tree cause).Modest bound below := trivial

end Move

theorem Frame.weight_pos (frame : Frame) : 0 < frame.weight := by
  cases frame with
  | grammar begun => cases begun <;> decide
  | comment _ _ stage | product _ _ stage | definitions _ stage | bracket _ _ stage =>
    cases stage <;> exact Nat.succ_pos _
  | definition _ _ term | quoted _ _ term => cases term <;> exact Nat.succ_pos _
  | term _ _ dash => cases dash <;> exact Nat.succ_pos _
  | _ => exact Nat.succ_pos _

section

variable {bound limit : Nat} {sight : Sight} {tree : Tree} {frames below : List Frame}

/-- The closer that a list hands over is kept in the stage of the production that gets it, and does
not make it heavier. -/
theorem weight_handOver (closer : Span) (below : List Frame) :
    weight (handOver closer below) = weight below := by
  unfold handOver
  split <;> rfl

@[simp] theorem modest_unexpected {expected : Expectation} :
    (sight.unexpected tree expected).Modest bound below := by
  unfold Sight.unexpected
  split <;> simp

/-- A mark that takes a character stays the only production above the old ones, and one that ends
uncovers them. -/
theorem modest_stepLiteral {node : NodeId} {candidates : List String} {read : List Char}
    {best : Option (List Char × Position)} (h : weight below + 1 ≤ bound) :
    (stepLiteral sight tree below node candidates read best).Modest bound below := by
  have hweight : 1 + weight below ≤ bound := by omega
  unfold stepLiteral settleLiteral
  split
  · dsimp only
    repeat' split
    all_goals simp [Frame.weight, hweight]
  · split <;> simp

/-- A mark that begins puts itself on the stack. It weighs 1, as all leaves do. -/
theorem modest_openLiteral {parent : NodeId} {candidates : List String}
    (h : weight frames + 1 ≤ bound) :
    (openLiteral sight tree frames parent candidates).Modest bound below := by
  have hweight : 1 + weight frames ≤ bound := by omega
  unfold openLiteral stepLiteral settleLiteral
  split
  · dsimp only
    repeat' split
    all_goals simp [Frame.weight, hweight]
  · simp

/-- White space that begins puts itself on the stack, which is a leaf. -/
theorem modest_openSpace {parent : NodeId} (h : weight frames + 1 ≤ bound) :
    (openSpace sight tree frames parent).Modest bound below := by
  have hweight : 1 + weight frames ≤ bound := by omega
  unfold openSpace
  repeat' split
  all_goals simp [Frame.weight, hweight]

/-- A number or white space that goes on stays where it is, and one that ends uncovers what is
below. -/
theorem modest_stepRun {run : Run} {node : NodeId} (h : weight below + 1 ≤ bound) :
    (stepRun sight tree below run node).Modest bound below := by
  have hweight : 1 + weight below ≤ bound := by omega
  unfold stepRun
  repeat' split
  all_goals simp [Frame.weight, hweight]

/-- A comment that begins puts two productions on the stack, itself and its opening mark. -/
theorem modest_openComment {parent : NodeId} (h : weight frames + 2 ≤ bound) :
    (openComment limit sight tree frames parent).Modest bound below := by
  unfold openComment
  split
  · simp
  · exact modest_openLiteral (by simp [Frame.weight]; omega)

/-- A comment that takes the character only goes to another stage, or it ends. No stage weighs more
than 3. -/
theorem modest_stepComment {node : NodeId} {text : Option NodeId} {stage : CommentStage}
    (h : weight (.comment node text stage :: below) + 8 ≤ bound) :
    (stepComment limit sight tree below node text stage).Modest bound below := by
  have hweight : weight below + 3 ≤ bound := by
    rw [weight_cons] at h
    omega
  unfold stepComment
  repeat' split
  all_goals first
    | exact ⟨[_], rfl⟩
    | exact ⟨[_, _], rfl⟩
    | trivial
    | simp [Frame.weight]; omega

/-- A name that reads on stays a leaf, and what it ends with is settled without anything new on the
stack. -/
theorem modest_stepIdentifier {node parent : NodeId} {trailing : Option Span}
    (h : weight below + 1 ≤ bound) :
    (stepIdentifier sight tree below node parent trailing).Modest bound below := by
  have hweight : 1 + weight below ≤ bound := by omega
  unfold stepIdentifier
  repeat' split
  all_goals simp [Frame.weight, hweight]

theorem modest_openIdentifier {parent : NodeId} {c : Char} (h : weight frames + 1 ≤ bound) :
    (openIdentifier sight tree frames parent c).Modest bound below := by
  have hweight : 1 + weight frames ≤ bound := by omega
  simp [openIdentifier, Frame.weight, hweight]

theorem modest_expectIdentifier {parent : NodeId} {c : Char} (h : weight frames + 1 ≤ bound) :
    (expectIdentifier sight tree frames parent c).Modest bound below := by
  unfold expectIdentifier
  split
  · exact modest_openIdentifier h
  · exact modest_unexpected

/-- A quoted text that takes the character stays on the stack, or the character is the closing
quote, and then only its end is left to do. -/
theorem modest_stepQuoted {form : Quoted} {node : NodeId} {text : Option NodeId}
    (h : weight below + 2 ≤ bound) :
    (stepQuoted sight tree below form node text).Modest bound below := by
  have hweight : 1 + weight below ≤ bound := by omega
  have hclosing : weight (.closing node :: below) + 1 ≤ bound := by
    simp [Frame.weight]
    omega
  unfold stepQuoted
  repeat' split
  all_goals simp [Frame.weight, hweight, modest_openLiteral hclosing]

/-- A quoted text that begins puts two productions on the stack, itself and its opening quote. -/
theorem modest_openQuoted {parent : NodeId} {form : Quoted} (h : weight frames + 3 ≤ bound) :
    (openQuoted sight tree frames parent form).Modest bound below :=
  modest_openLiteral (by simp [Frame.weight]; omega)

theorem modest_expectTerminal {parent : NodeId} {c : Char} (h : weight frames + 3 ≤ bound) :
    (expectTerminal sight tree frames parent c).Modest bound below := by
  unfold expectTerminal
  split
  · exact modest_openQuoted h
  · exact modest_unexpected

/-- A bracket that begins puts itself and its opener on the stack. It weighs 7, since its list is
still to come. -/
theorem modest_openBracket {parent : NodeId} {b : Bracket} (h : weight frames + 8 ≤ bound) :
    (openBracket limit sight tree frames parent b).Modest bound below := by
  unfold openBracket
  split
  · simp
  · exact modest_openLiteral (by simp [Frame.weight]; omega)

theorem modest_attachBracket {parent : NodeId} {b : Bracket} {opener : Span} :
    (attachBracket limit sight tree below parent b opener).Modest bound below := by
  unfold attachBracket
  split
  · simp
  · exact List.suffix_cons ..

/-- What follows a parenthesis is either the rest of a longer opener, which is taken, or it is left
to the bracket, which is put on the stack. -/
theorem modest_stepParen {parent : NodeId} {start : Position} (h : weight below + 8 ≤ bound) :
    (stepParen limit sight tree below parent start).Modest bound below := by
  have hweight : 8 + weight below ≤ bound := by omega
  unfold stepParen
  repeat' split
  all_goals simp [Frame.weight, hweight, modest_attachBracket]

/-- A bracket that takes the character begins its white space or its closer with it. It leaves the
character to its list, below which it stays. -/
theorem modest_stepBracket {b : Bracket} {node : NodeId} {stage : BracketStage}
    (h : weight (.bracket b node stage :: below) + 8 ≤ bound) :
    (stepBracket sight tree below b node stage).Modest bound below := by
  rw [weight_cons] at h
  cases stage with
  | opened opening =>
    unfold stepBracket
    dsimp only
    split
    · exact modest_openSpace (by rw [weight_cons]; omega)
    · exact ⟨[_, _], rfl⟩
  | body closer =>
    cases closer with
    | none => exact modest_openLiteral (by simp [Frame.weight]; omega)
    | some closer =>
      unfold stepBracket
      dsimp only
      split <;> simp

/-- Among the primaries a bracket adds most, and it adds no more than 8. -/
theorem modest_openPrimary {parent : NodeId} {c : Char} (h : weight frames + 8 ≤ bound) :
    (openPrimary limit sight tree frames parent c).Modest bound below := by
  have hweight : 8 + weight frames ≤ bound := by omega
  have hname : weight frames + 1 ≤ bound := by omega
  have hquoted : weight frames + 3 ≤ bound := by omega
  unfold openPrimary
  repeat' split
  all_goals simp [Frame.weight, hweight, modest_expectIdentifier hname,
    modest_expectTerminal hquoted, modest_openQuoted hquoted, modest_openBracket h]

theorem modest_openRepetition {parent : NodeId} {c : Char} (h : weight frames + 2 ≤ bound) :
    (openRepetition sight tree frames parent c).Modest bound below := by
  have hweight : 1 + (1 + weight frames) ≤ bound := by omega
  unfold openRepetition expectNumber
  split
  · simp [Frame.weight, hweight]
  · exact modest_unexpected

/-- A term that ends uncovers what is below it. -/
theorem modest_endTerm {node : NodeId} {parts : TermParts} :
    (endTerm sight tree below node parts).Modest bound below := by
  unfold endTerm
  split <;> simp

/-- A term that takes a character begins one of its parts with it. The heaviest one is a primary. -/
theorem modest_stepTerm {node : NodeId} {parts : TermParts} {dash : Bool}
    (h : weight below + 9 ≤ bound) :
    (stepTerm limit sight tree below node parts dash).Modest bound below := by
  have hterm : ∀ parts', weight (.term node parts' false :: below) + 8 ≤ bound := by
    intro parts'
    simp [Frame.weight]
    omega
  have hspace : weight (.term node parts false :: below) + 1 ≤ bound := by
    simp [Frame.weight]
    omega
  have hdash : weight (.term node parts true :: below) + 1 ≤ bound := by
    simp [Frame.weight]
    omega
  have hnumber : ∀ parts', weight (.term node parts' false :: below) + 2 ≤ bound := by
    intro parts'
    have := hterm parts'
    omega
  unfold stepTerm
  cases dash with
  | true => exact ⟨[_, _], rfl⟩
  | false =>
    simp only [Bool.false_eq_true, if_false]
    repeat' split
    all_goals first
      | exact modest_endTerm
      | exact modest_openSpace hspace
      | exact modest_openLiteral hdash
      | exact modest_openPrimary (hterm _)
      | exact modest_openRepetition (hnumber _)
      | trivial

theorem modest_endException {node : NodeId} {primary : Option NodeId} :
    (endException sight tree below node primary).Modest bound below := by
  unfold endException
  split <;> simp

/-- An exception that takes a character begins its white space or its primary with it. -/
theorem modest_stepException {node term : NodeId} {primary : Option NodeId}
    (h : weight below + 9 ≤ bound) :
    (stepException limit sight tree below node term primary).Modest bound below := by
  have hprimary : ∀ primary', weight (.exception node term primary' :: below) + 8 ≤ bound := by
    intro primary'
    simp [Frame.weight]
    omega
  have hspace : weight (.exception node term primary :: below) + 1 ≤ bound := by
    simp [Frame.weight]
    omega
  unfold stepException
  repeat' split
  all_goals first
    | exact modest_endException
    | exact modest_openSpace hspace
    | exact modest_openPrimary (hprimary _)
    | trivial

/-- A repetition that takes the character begins its white space or its star with it, and behind the
star only its end is left to do. -/
theorem modest_stepRepetition {node : NodeId} (h : weight below + 2 ≤ bound) :
    (stepRepetition sight tree below node).Modest bound below := by
  unfold stepRepetition
  split
  · exact modest_openSpace (by simp [Frame.weight]; omega)
  · exact modest_openLiteral (by simp [Frame.weight]; omega)

/-- A definition takes a comma or white space itself. It leaves all other characters to the term
that it puts on the stack, or to what is below it. -/
theorem modest_stepDefinition {node : NodeId} {start : Position} {term : Option NodeId}
    (h : weight (.definition node start term :: below) + 8 ≤ bound) :
    (stepDefinition sight tree below node start term).Modest bound below := by
  have hcomma : weight (.definition node start none :: below) + 1 ≤ bound := by
    cases term <;> simp [Frame.weight] at h ⊢ <;> omega
  have hspace : weight (.definition node start term :: below) + 1 ≤ bound := by omega
  unfold stepDefinition
  repeat' split
  all_goals first
    | exact modest_openSpace hspace
    | exact modest_openLiteral hcomma
    | exact List.suffix_refl _
    | exact ⟨[_, _], rfl⟩
    | trivial

/-- A list takes bars and white space. It leaves the other characters to a definition, or it
ends. -/
theorem modest_stepDefinitions {node : NodeId} {stage : ListStage}
    (h : weight (.definitions node stage :: below) + 8 ≤ bound) :
    (stepDefinitions sight tree below node stage).Modest bound below := by
  have hstart : weight (.definitions node .start :: below) + 1 ≤ bound := by
    rw [weight_cons] at h ⊢
    simp only [Frame.weight] at h ⊢
    split at h <;> omega
  have hslash : 6 + weight below ≤ bound := by
    rw [weight_cons] at h
    omega
  unfold stepDefinitions
  repeat' split
  all_goals first
    | exact modest_openSpace hstart
    | exact modest_openLiteral hstart
    | exact List.suffix_refl _
    | exact ⟨[_, _], rfl⟩
    | exact ⟨[_], rfl⟩
    | exact hslash
    | skip
  all_goals simp [weight_handOver]
  all_goals omega

/-- A product takes its equals sign, its closer and white space, each with a leaf on the stack. -/
theorem modest_stepProduct {node lhs : NodeId} {stage : ProductStage}
    (h : weight (.product node lhs stage :: below) + 8 ≤ bound) :
    (stepProduct sight tree below node lhs stage).Modest bound below := by
  rw [weight_cons] at h
  unfold stepProduct
  repeat' split
  all_goals first
    | exact modest_openSpace (by simp [Frame.weight] at h ⊢; omega)
    | exact modest_openLiteral (by simp [Frame.weight] at h ⊢; omega)
    | exact modest_unexpected
    | exact ⟨[_, _], rfl⟩
    | trivial

/-- An item that begins puts a comment or a product with its name on the stack, or it is white
space. -/
theorem modest_stepGrammar {begun : Bool} (h : weight below + 9 ≤ bound) :
    (stepGrammar limit sight tree below begun).Modest bound below := by
  have hspace : weight (.grammar true :: below) + 2 ≤ bound := by
    simp [Frame.weight]
    omega
  unfold stepGrammar openProduct
  repeat' split
  all_goals first
    | exact modest_openComment hspace
    | exact modest_expectIdentifier (by simp [Frame.weight]; omega)
    | exact modest_openSpace (by omega)
    | exact modest_unexpected
    | exact ⟨[_], rfl⟩
    | trivial

/-- A step that leaves the character does not touch the productions below the one on top, and a step
that takes it makes the stack heavier by at most 8. -/
theorem modest_step (limit : Nat) (sight : Sight) (tree : Tree) (frame : Frame)
    (below : List Frame) :
    (step limit sight tree (frame :: below)).Modest (weight (frame :: below) + 8) below := by
  have hweight : weight below + 9 ≤ weight (frame :: below) + 8 := by
    have := frame.weight_pos
    rw [weight_cons]
    omega
  cases frame <;> simp only [step]
  case grammar => exact modest_stepGrammar hweight
  case comment => exact modest_stepComment (Nat.le_refl _)
  case product => exact modest_stepProduct (Nat.le_refl _)
  case definitions => exact modest_stepDefinitions (Nat.le_refl _)
  case definition => exact modest_stepDefinition (Nat.le_refl _)
  case term => exact modest_stepTerm hweight
  case exception => exact modest_stepException hweight
  case repetition => exact modest_stepRepetition (by omega)
  case paren => exact modest_stepParen (by omega)
  case opener => exact modest_attachBracket
  case bracket => exact modest_stepBracket (Nat.le_refl _)
  case quoted => exact modest_stepQuoted (by omega)
  case identifier => exact modest_stepIdentifier (by omega)
  case run => exact modest_stepRun (by omega)
  case literal => exact modest_stepLiteral (by omega)
  case matched => exact List.suffix_refl _
  case closing => exact List.suffix_refl _

theorem weight_le_of_step {tree' : Tree} {frames' : List Frame}
    (h : step limit sight tree frames = .next tree' frames') :
    weight frames' ≤ weight frames + 8 := by
  cases frames with
  | nil => cases h
  | cons frame below =>
    have hmodest := modest_step limit sight tree frame below
    rwa [h] at hmodest

end

/-! ### Runs on any source -/

/-- The source replies with characters as many times as `pieces` says, and then ends or fails. -/
inductive Yields {σ : Type} (read : Nat → σ → Except Fault String × σ) : σ → Nat → Prop
  /-- It ends. -/
  | ended {source rest : σ} (reply : read 1 source = (.ok "", rest)) : Yields read source 0
  /-- It fails. -/
  | failed {source rest : σ} {fault : Fault} (reply : read 1 source = (.error fault, rest)) :
      Yields read source 0
  /-- It replies with characters. -/
  | piece {source rest : σ} {text : String} {pieces : Nat}
      (reply : read 1 source = (.ok text, rest)) (holds : text ≠ "")
      (more : Yields read rest pieces) : Yields read source (pieces + 1)

/-- A run at any time. -/
inductive Phase (σ : Type)
  /-- The source is asked next. -/
  | asking (config : Config) (source : σ)
  /-- A step is made next. -/
  | stepping (sight : Sight) (tree : Tree) (frames : List Frame) (source : σ)
  /-- The run has ended. -/
  | finished (result : Except ParseError Tree) (source : σ)

namespace Phase

variable {σ : Type}

/-- What a reply of the source comes to. -/
def ofReply (config : Config) : Except Fault String × σ → Phase σ
  | (.error fault, rest) => finished (.error (config.interrupted fault)) rest
  | (.ok text, rest) =>
    stepping ⟨text.toList.head?, config.position.afterAll text.toList⟩ config.tree config.frames
      rest

/-- What a move comes to. Behind the end of the input nothing is asked for. -/
def ofMove (sight : Sight) (source : σ) : Move → Phase σ
  | .again tree frames => stepping sight tree frames source
  | .next tree frames =>
    match sight.ahead with
    | some _ => asking ⟨tree, frames, sight.here⟩ source
    | none => finished (.ok tree) source
  | .accept tree => finished (.ok tree) source
  | .reject tree cause => finished (.error ⟨cause, sight.here, tree⟩) source

/-- Asks the source once, or makes one step. -/
def tick (read : Nat → σ → Except Fault String × σ) (limit : Nat) : Phase σ → Phase σ
  | asking config source => ofReply config (read 1 source)
  | stepping sight tree frames source => ofMove sight source (step limit sight tree frames)
  | finished result source => finished result source

/-- Goes on for as many ticks as `fuel` allows. -/
def run (read : Nat → σ → Except Fault String × σ) (limit : Nat) : Nat → Phase σ → Phase σ
  | 0, phase => phase
  | fuel + 1, phase => run read limit fuel (phase.tick read limit)

/-- The run before the source is asked for the first time. -/
def start (source : σ) : Phase σ := asking .initial source

/-- The fuel is enough for all that the source may still reply. -/
def Affords (read : Nat → σ → Except Fault String × σ) (fuel : Nat) : Phase σ → Prop
  | asking config source =>
    ∃ pieces, Yields read source pieces ∧ 10 * pieces + weight config.frames + 2 ≤ fuel
  | stepping ⟨some _, _⟩ _ frames source =>
    ∃ pieces, Yields read source pieces ∧ 10 * pieces + weight frames + 11 ≤ fuel
  | stepping ⟨none, _⟩ _ frames _ => weight frames + 1 ≤ fuel
  | finished .. => True

variable {read : Nat → σ → Except Fault String × σ} {limit fuel : Nat}

/-- A reply leaves the run with fuel enough. It uses up one of the pieces that the source still has,
and the fuel set aside for it pays for the steps. -/
theorem affords_ofReply {config : Config} {source : σ} {pieces : Nat}
    (hyields : Yields read source pieces)
    (hfuel : 10 * pieces + weight config.frames + 2 ≤ fuel + 1) :
    (ofReply config (read 1 source)).Affords read fuel := by
  cases hyields with
  | ended reply =>
    rw [reply]
    show weight config.frames + 1 ≤ fuel
    omega
  | failed reply =>
    rw [reply]
    trivial
  | @piece _ _ text pieces reply holds more =>
    rw [reply]
    cases htext : text.toList with
    | nil => exact absurd (String.toList_eq_nil_iff.mp htext) holds
    | cons c rest =>
      rw [ofReply, htext]
      exact ⟨pieces, more, by omega⟩

/-- A tick uses up no more fuel than there is for it. A step that leaves the character makes the
stack lighter, and one that takes it is paid for by the reply. -/
theorem Affords.tick {phase : Phase σ} (h : phase.Affords read (fuel + 1)) :
    (phase.tick read limit).Affords read fuel := by
  cases phase with
  | asking config source =>
    obtain ⟨pieces, hyields, hfuel⟩ := h
    exact affords_ofReply hyields hfuel
  | finished result source => trivial
  | stepping sight tree frames source =>
    obtain ⟨ahead, here⟩ := sight
    rw [Phase.tick]
    cases hstep : step limit ⟨ahead, here⟩ tree frames with
    | again tree' frames' =>
      have hlighter := weight_lt_of_step hstep
      cases ahead with
      | none => exact Nat.le_of_lt_succ (Nat.lt_of_lt_of_le (Nat.succ_lt_succ hlighter) h)
      | some c =>
        obtain ⟨pieces, hyields, hfuel⟩ := h
        exact ⟨pieces, hyields, by omega⟩
    | next tree' frames' =>
      have hheavier := weight_le_of_step hstep
      cases ahead with
      | none => trivial
      | some c =>
        obtain ⟨pieces, hyields, hfuel⟩ := h
        exact ⟨pieces, hyields, by dsimp only; omega⟩
    | accept tree' => trivial
    | reject tree' cause => trivial

/-- Where the fuel is enough, the run has ended when it is used up. The induction is on the fuel,
and a run that is not finished still needs some. -/
theorem Affords.exists_finished {phase : Phase σ} (h : phase.Affords read fuel) :
    ∃ result rest, phase.run read limit fuel = finished result rest := by
  induction fuel generalizing phase with
  | zero =>
    cases phase with
    | asking config source =>
      obtain ⟨pieces, -, hfuel⟩ := h
      omega
    | stepping sight tree frames source =>
      obtain ⟨ahead, here⟩ := sight
      cases ahead with
      | none => cases h
      | some c =>
        obtain ⟨pieces, -, hfuel⟩ := h
        omega
    | finished result source => exact ⟨result, source, rfl⟩
  | succ fuel ih => exact ih h.tick

/-- A run ends after a number of ticks that is linear in the number of replies. -/
theorem exists_finished {source : σ} {pieces : Nat} (h : Yields read source pieces) (limit : Nat) :
    ∃ result rest, (start source).run read limit (10 * pieces + 4) = finished result rest :=
  Affords.exists_finished (show (start source).Affords read _ from ⟨pieces, h, Nat.le_refl _⟩)

/-! ### The result -/

variable [Source σ]

/-- What a run will come to. -/
def outcome (limit : Nat) : Phase σ → Except ParseError Tree × σ
  | asking config source => drive limit config source
  | stepping sight tree frames source =>
    match sight.ahead, settle limit sight tree frames with
    | some _, .waiting tree frames => drive limit ⟨tree, frames, sight.here⟩ source
    | none, .waiting tree _ => (.ok tree, source)
    | _, .accepted tree => (.ok tree, source)
    | _, .rejected tree cause => (.error ⟨cause, sight.here, tree⟩, source)
  | finished result source => (result, source)

/-- What follows a reply in the run is what the recursion on the source makes of it. -/
theorem outcome_ofReply (config : Config) (source : σ) :
    (ofReply config (Source.read 1 source)).outcome limit = drive limit config source := by
  rw [drive]
  split
  · rename_i hread
    rw [hread]
    rfl
  · rename_i text rest hread
    rw [hread]
    cases htext : text.toList with
    | nil =>
      rw [ofReply, htext, dif_pos rfl, outcome, finish]
      dsimp only [List.head?_nil, Position.afterAll_nil]
      split <;> simp_all
    | cons c more =>
      rw [ofReply, htext, dif_neg (List.cons_ne_nil c more), outcome]
      dsimp only [List.head?_cons]
      split <;> simp_all

/-- A tick does not change what a run will come to, so the outcome can be looked up at any time. -/
theorem outcome_tick (phase : Phase σ) :
    (phase.tick Source.read limit).outcome limit = phase.outcome limit := by
  cases phase with
  | asking config source => exact outcome_ofReply config source
  | finished result source => rfl
  | stepping sight tree frames source =>
    rw [tick, outcome, settle_eq]
    obtain ⟨ahead, here⟩ := sight
    cases step limit ⟨ahead, here⟩ tree frames with
    | again tree' frames' => rfl
    | next tree' frames' => cases ahead <;> rfl
    | accept tree' => cases ahead <;> rfl
    | reject tree' cause => cases ahead <;> rfl

/-- Running for a while does not change what comes out in the end. -/
theorem outcome_run (phase : Phase σ) :
    (phase.run Source.read limit fuel).outcome limit = phase.outcome limit := by
  induction fuel generalizing phase with
  | zero => rfl
  | succ fuel ih => rw [run, ih, outcome_tick]

end Phase

/-- A source that gets smaller with each reply stops replying, after no more replies than its
size. -/
theorem exists_yields {σ : Type} [Source σ] (source : σ) :
    ∃ pieces, pieces ≤ Source.size source ∧ Yields Source.read source pieces := by
  induction hsize : Source.size source using Nat.strongRecOn generalizing source with
  | ind n ih =>
    cases hread : Source.read 1 source with
    | mk reply rest =>
      cases reply with
      | error fault => exact ⟨0, Nat.zero_le n, .failed hread⟩
      | ok text =>
        by_cases htext : text = ""
        · subst htext
          exact ⟨0, Nat.zero_le n, .ended hread⟩
        · have hlt := Source.size_lt hread fun hnil => htext (String.toList_eq_nil_iff.mp hnil)
          obtain ⟨pieces, hle, hyields⟩ := ih _ (hsize ▸ hlt) rest rfl
          exact ⟨pieces + 1, by omega, .piece hread htext hyields⟩

/-- The run with fuel comes to what is read, if the fuel lasts to the end of the run. -/
theorem Phase.run_eq_parseFrom {σ : Type} [Source σ] {source : σ} {pieces : Nat}
    (h : Yields Source.read source pieces) (limit : Nat) :
    (start source).run Source.read limit (10 * pieces + 4) =
      finished (parseFrom source limit).1 (parseFrom source limit).2 := by
  obtain ⟨result, rest, hrun⟩ := exists_finished h limit
  have houtcome : ((start source).run Source.read limit (10 * pieces + 4)).outcome limit =
      (start source).outcome limit := outcome_run _
  rw [hrun] at houtcome
  have hresult : (result, rest) = parseFrom source limit := houtcome
  rw [hrun, ← hresult]

/-! ### Loops -/

/-- The loops of the productions. -/
inductive Loop
  /-- The items of the whole text. -/
  | root
  /-- The characters of a comment. -/
  | comment
  /-- The definitions of a list. -/
  | definitionList
  /-- The terms of a definition. -/
  | definition
  /-- The components of a term. -/
  | term
  /-- The white space around the primary of an exception. -/
  | exception
  /-- A run of white space. -/
  | space
  /-- The characters of a name. -/
  | identifier
  /-- A run of digits. -/
  | number
  /-- The characters of a terminal. -/
  | terminal
  /-- The characters of a special sequence. -/
  | special
  deriving DecidableEq, Repr

/-- The loop that a production is at the head of, and the node for which it goes round. -/
def Frame.loop? : Frame → Option (Loop × NodeId)
  | grammar true => some (.root, Tree.root)
  | comment node _ .body => some (.comment, node)
  | definitions node .start => some (.definitionList, node)
  | definition node _ _ => some (.definition, node)
  | term node _ false => some (.term, node)
  | exception node _ _ => some (.exception, node)
  | run .space node => some (.space, node)
  | run .number node => some (.number, node)
  | identifier node _ _ => some (.identifier, node)
  | quoted (.terminal _) node (some _) => some (.terminal, node)
  | quoted .special node (some _) => some (.special, node)
  | _ => none

section

variable {limit : Nat} {sight : Sight} {below : List Frame} {loop : Loop × NodeId} {tree : Tree}
  {frames : List Frame}

/-- A turn of a loop, whose production stands on the productions `below`: before the production is
at the head of the loop again, a step takes the character, or the run ends, or the loop is left. -/
inductive Turn (limit : Nat) (sight : Sight) (below : List Frame) (loop : Loop × NodeId) :
    Tree → List Frame → Prop
  /-- There is a character, it is taken, and the source is asked for more. -/
  | takes {tree tree' : Tree} {frames frames' : List Frame} (ahead : sight.ahead.isSome)
      (made : step limit sight tree frames = .next tree' frames') :
      Turn limit sight below loop tree frames
  /-- The text is complete. -/
  | accepts {tree tree' : Tree} {frames : List Frame}
      (made : step limit sight tree frames = .accept tree') :
      Turn limit sight below loop tree frames
  /-- The text cannot be read. -/
  | refuses {tree tree' : Tree} {frames : List Frame} {cause : Cause}
      (made : step limit sight tree frames = .reject tree' cause) :
      Turn limit sight below loop tree frames
  /-- The production ends. -/
  | leaves {tree tree' : Tree} {frames : List Frame}
      (made : step limit sight tree frames = .again tree' below) :
      Turn limit sight below loop tree frames
  /-- The turn goes on away from the head of the loop. -/
  | inside {tree tree' : Tree} {frames above : List Frame} {frame : Frame}
      (made : step limit sight tree frames = .again tree' (above ++ frame :: below))
      (away : above = [] → frame.loop? ≠ some loop)
      (more : Turn limit sight below loop tree' (above ++ frame :: below)) :
      Turn limit sight below loop tree frames

/-- A step that takes a character has seen one. -/
theorem isSome_of_next {tree' : Tree} {frames' : List Frame}
    (h : step limit sight tree frames = .next tree' frames') : sight.ahead.isSome := by
  obtain ⟨ahead, here⟩ := sight
  cases ahead with
  | none => exact absurd h step_ne_next
  | some c => rfl

/-- If a step cannot but take the character, it makes up a turn. -/
theorem Turn.of_lightens (h : (step limit sight tree frames).Lightens 0) :
    Turn limit sight below loop tree frames := by
  cases hstep : step limit sight tree frames with
  | again tree' frames' =>
    rw [hstep] at h
    exact absurd h (Nat.not_lt_zero _)
  | next tree' frames' => exact .takes (isSome_of_next hstep) hstep
  | accept tree' => exact .accepts hstep
  | reject tree' cause => exact .refuses hstep

/-- A stack that is no heavier than it is at the head of the loop does not come back there: it gets
lighter. -/
theorem Turn.of_weight_le {above : List Frame} {frame : Frame}
    (h : ∀ frame', frame'.loop? = some loop →
      weight (above ++ frame :: below) ≤ weight (frame' :: below)) :
    Turn limit sight below loop tree (above ++ frame :: below) := by
  induction hw : weight (above ++ frame :: below) using Nat.strongRecOn
    generalizing tree above frame with
  | ind n ih =>
    cases hstep : step limit sight tree (above ++ frame :: below) with
    | next tree' frames' => exact .takes (isSome_of_next hstep) hstep
    | accept tree' => exact .accepts hstep
    | reject tree' cause => exact .refuses hstep
    | again tree' frames' =>
      have hlighter := weight_lt_of_step hstep
      -- the turn goes on if the production has not ended
      have hinside : ∀ above' frame', frames' = above' ++ frame' :: below →
          Turn limit sight below loop tree (above ++ frame :: below) := by
        rintro above' frame' rfl
        refine .inside hstep ?_ (ih _ (hw ▸ hlighter) ?_ rfl)
        · rintro rfl hloop
          exact absurd (h frame' hloop) (Nat.not_le_of_lt hlighter)
        · exact fun other hother => Nat.le_trans (Nat.le_of_lt hlighter) (h other hother)
      cases above with
      | nil =>
        have hmodest := modest_step limit sight tree frame below
        rw [show step limit sight tree (frame :: below) = _ from hstep] at hmodest
        obtain ⟨front, rfl⟩ := hmodest
        rcases List.eq_nil_or_concat front with rfl | ⟨above', frame', rfl⟩
        · exact .leaves hstep
        · exact hinside above' frame' (by rw [List.concat_eq_append, List.append_assoc]; rfl)
      | cons top above =>
        have hmodest := modest_step limit sight tree top (above ++ frame :: below)
        rw [show step limit sight tree (top :: (above ++ frame :: below)) = _ from hstep] at hmodest
        obtain ⟨front, rfl⟩ := hmodest
        exact hinside (front ++ above) frame (List.append_assoc ..).symm

/-- A term that begins takes the character, or it is refused. -/
theorem lightens_stepTerm_begin {node : NodeId} {c : Char} (hc : sight.ahead = some c)
    (hbegins : (isDigit c || beginsPrimary c) = true) :
    (stepTerm limit sight tree below node {} false).Lightens 0 := by
  unfold stepTerm
  rw [hc]
  simp only [Bool.false_eq_true, if_false]
  repeat' split
  all_goals simp_all

/-- A definition that is at the head of its loop takes a comma or white space, lets a term begin,
which takes the character at once, or ends. -/
theorem turn_of_definition {node : NodeId} {start : Position} :
    Turn limit sight below loop tree (.definition node start none :: below) := by
  cases hahead : sight.ahead with
  | none => exact .of_lightens (by rw [step, stepDefinition, hahead]; trivial)
  | some c =>
    by_cases hspace : isSpace c = true
    · refine .of_lightens ?_
      rw [step, stepDefinition, hahead]
      dsimp only
      rw [if_pos hspace]
      exact lightens_openSpace
    by_cases hbegins : (isDigit c || beginsPrimary c) = true
    · have hmade : step limit sight tree (.definition node start none :: below) =
          .again (tree.pushChild node (.term {}) (.point sight.here))
            ([.term tree.size {} false] ++ .definition node start (some tree.size) :: below) := by
        rw [step, stepDefinition, hahead]
        dsimp only
        rw [if_neg hspace, if_pos hbegins]
        rfl
      exact .inside hmade (fun hnil => absurd hnil (List.cons_ne_nil _ _))
        (.of_lightens (lightens_stepTerm_begin hahead hbegins))
    by_cases hcomma : c = ','
    · refine .of_lightens ?_
      rw [step, stepDefinition, hahead]
      dsimp only
      rw [if_neg hspace, if_neg hbegins, if_pos hcomma]
      exact lightens_openLiteral
    · have hmade : step limit sight tree (.definition node start none :: below) =
          .again ((addMissingTerm tree node none sight.here).withLast node sight.here.left)
            below := by
        rw [step, stepDefinition, hahead]
        dsimp only
        rw [if_neg hspace, if_neg hbegins, if_neg hcomma]
      exact .leaves hmade

/-- A list of definitions weighs the same each time that it comes to the head of its loop. -/
theorem weight_eq_of_definitionList {frame : Frame} {node : NodeId}
    (h : frame.loop? = some (.definitionList, node)) : frame.weight = 5 := by
  unfold Frame.loop? at h
  split at h
  case h_3 => rfl
  all_goals simp at h

/-- Each turn of a loop takes the character, or the loop is left: back at the head of the loop the
stack would be no lighter than it was. -/
theorem turn_of_loop {frame : Frame} (h : frame.loop? = some loop) :
    Turn limit sight below loop tree (frame :: below) := by
  -- most productions are as light at the head of their loop as they can be
  have hlight : frame.weight = 1 → Turn limit sight below loop tree ([] ++ frame :: below) :=
    fun hweight => .of_weight_le fun frame' _ => by
      have := frame'.weight_pos
      rw [List.nil_append, weight_cons, weight_cons]
      omega
  cases frame with
  | grammar begun =>
    cases begun with
    | true => exact hlight rfl
    | false => cases h
  | definitions node stage =>
    cases stage with
    | start =>
      obtain rfl := Option.some.inj h
      have hturn : Turn limit sight below (.definitionList, node) tree
          ([] ++ .definitions node .start :: below) := .of_weight_le fun frame' hloop => by
        rw [List.nil_append, weight_cons, weight_cons, weight_eq_of_definitionList hloop]
        exact Nat.le_refl _
      exact hturn
    | _ => cases h
  | definition node start term =>
    cases term with
    | none => exact turn_of_definition
    | some term => exact hlight rfl
  | comment node text stage => cases stage <;> first | exact hlight rfl | cases h
  | term node parts dash => cases dash <;> first | exact hlight rfl | cases h
  | quoted form node text => cases text <;> first | exact hlight rfl | cases form <;> cases h
  | exception | run | identifier => exact hlight rfl
  | _ => cases h

end

/-- **Termination.** The run ends on every source that replies with characters only so many times,
whatever the limit, after a number of steps that is linear in the number of replies. On a source as
it is read, it comes to the result of the reading. And each turn of a loop takes a character, after
which the source is asked for more, or leaves the loop or ends the run. -/
theorem parse_ends :
    (∀ (σ : Type) (read : Nat → σ → Except Fault String × σ) (source : σ) (pieces maxNesting : Nat),
      Yields read source pieces → ∃ result rest,
        (Phase.start source).run read maxNesting (10 * pieces + 4) = .finished result rest) ∧
    (∀ (σ : Type) [Source σ] (source : σ) (maxNesting : Nat),
      ∃ pieces, pieces ≤ Source.size source ∧ Yields Source.read source pieces ∧
        (Phase.start source).run Source.read maxNesting (10 * pieces + 4) =
          .finished (parse source maxNesting) (parseFrom source maxNesting).2) ∧
    ∀ (maxNesting : Nat) (sight : Sight) (tree : Tree) (frame : Frame) (below : List Frame)
      (loop : Loop × NodeId), frame.loop? = some loop →
        Turn maxNesting sight below loop tree (frame :: below) := by
  refine ⟨?_, ?_, ?_⟩
  · intro σ read source pieces maxNesting hyields
    exact Phase.exists_finished hyields maxNesting
  · intro σ _ source maxNesting
    obtain ⟨pieces, hle, hyields⟩ := exists_yields source
    exact ⟨pieces, hle, hyields, Phase.run_eq_parseFrom hyields maxNesting⟩
  · intro maxNesting sight tree frame below loop hloop
    exact turn_of_loop hloop

/-- Two replies and a failure; and a run of white space in front of a letter. -/
theorem parse_ends_two_replies :
    (Yields Source.read (Script.mk [.ok "x=", .ok "a", .error ⟨.other, "lost"⟩]) 2 ∧
      ∃ result rest, (Phase.start (Script.mk [.ok "x=", .ok "a", .error ⟨.other, "lost"⟩])).run
        Source.read 3 24 = .finished result rest) ∧
    (Frame.run .space 1).loop? = some (.space, 1) ∧
      Turn 3 ⟨some 'x', ⟨1, 2⟩⟩ [.grammar true] (.space, 1)
        (Tree.empty.pushChild 0 .space (.point ⟨1, 1⟩) " ") [.run .space 1, .grammar true] := by
  have hyields : Yields Source.read (Script.mk [.ok "x=", .ok "a", .error ⟨.other, "lost"⟩]) 2 :=
    .piece rfl (by decide) (.piece rfl (by decide) (.failed rfl))
  exact ⟨⟨hyields, parse_ends.1 _ _ _ 2 3 hyields⟩, rfl, parse_ends.2.2 _ _ _ _ _ _ rfl⟩

end LosslessEbnf
