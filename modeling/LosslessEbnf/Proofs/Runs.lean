import LosslessEbnf.Machine.Run
import LosslessEbnf.Proofs.Productions

/-!
# Runs

What all steps for one character come to, and how a run on a text ends.

## Main Definitions

* `Outcome.Keeps` — what all steps for one character come to
* `Frame.demands` — an open production that needs more text

## Main Statements

* `keeps_settle` — the steps for one character keep what is true of the machine
* `settle_atEnd_ne_accepted` — the text does not end while an open production needs more of it
* `finished_settle_atEnd` — at the end of the input the spans of the tree are right, too
* `finished_of_runText` — a run that accepts a text leaves a finished tree

## Design Notes

At the end of the input there is no next character, so what begins there has no place. It never gets
into a finished tree: only a production that needs more text lets another one begin there.
-/

namespace LosslessEbnf

/-- What all steps for one character come to. -/
def Outcome.Keeps (sure : Prop) (sight : Sight) (whole : List Char) : Outcome → Prop
  | waiting tree frames => Standing sure whole whole tree frames
  | accepted tree => sight.ahead = none ∧ tree.Finished sure whole
  | rejected tree cause => tree.Refused sight whole cause

/-- All steps for one character keep what is true of the machine. Each of them does, and what they
end with is behind the character. -/
theorem keeps_settle {sure : Prop} {done whole : List Char} {sight : Sight} {tree : Tree}
    {frames : List Frame} (limit : Nat) (hs : sight.Reads done whole)
    (hsure : sure → sight.ahead.isSome) (h : Standing sure whole done tree frames) :
    (settle limit sight tree frames).Keeps sure sight whole := by
  refine settle_induction (fun tree frames h => ?_) h
  have hkeeps := keeps_step limit hs hsure h
  cases hstep : step limit sight tree frames with
  | next tree' frames' =>
    rw [hstep] at hkeeps
    exact hkeeps.2
  | again tree' frames' | accept tree' | reject tree' cause =>
    rw [hstep] at hkeeps
    exact hkeeps

/-! ### The end of the input -/

/-- Whether a component needs more text than there is up to its beginning. -/
def Component.demands : Component → Bool
  | text | space | number | mark | closing => false
  | _ => true

/-- Whether an open production needs more text. -/
def Frame.demands (frame : Frame) : Bool := frame.component.demands

/-- Open productions, each of which is admitted by the one around it. -/
inductive Nested : List Frame → Prop
  /-- The whole text is outermost. -/
  | grammar (begun : Bool) : Nested [.grammar begun]
  /-- A production stands in one that admits it and waits for it. -/
  | cons {frame host : Frame} {below : List Frame} (rest : Nested (host :: below))
      (waits : host.waiting?.isSome) (admitted : frame.component ∈ host.components) :
      Nested (frame :: host :: below)

/-- Where productions wait for each other, each is admitted by the one around it. -/
theorem Waiting.nested {sure : Prop} {whole : List Char} {frames : List Frame} {spine : Spine}
    (h : Waiting sure whole frames spine) : Nested frames := by
  induction h with
  | grammar => exact .grammar true
  | cons rest admitted _ _ ih => exact .cons ih rest.isSome_waiting admitted

theorem Waiting.nested_cons {sure : Prop} {whole : List Char} {frame host : Frame}
    {below : List Frame} {spine : Spine} (h : Waiting sure whole (host :: below) spine)
    (hadmitted : frame.component ∈ host.components) : Nested (frame :: host :: below) :=
  .cons h.nested h.isSome_waiting hadmitted

/-- A production may stand where another one of its kind may stand. -/
theorem Nested.replace {frame frame' : Frame} {below : List Frame} (h : Nested (frame :: below))
    (hne : frame.component ≠ .text) (hcomponent : frame'.component = frame.component) :
    Nested (frame' :: below) := by
  cases h with
  | grammar => exact absurd rfl hne
  | cons rest waits admitted => exact .cons rest waits (hcomponent ▸ admitted)

/-- However the machine stands, each open production is admitted by the one around it. -/
theorem Standing.nested {sure : Prop} {whole done : List Char} {tree : Tree} {frames : List Frame}
    (h : Standing sure whole done tree frames) : Nested frames := by
  cases h with
  | fresh => exact .grammar false
  | idle rest => exact rest.waiting.nested
  | comment rest => exact rest.waiting.nested.replace nofun rfl
  | product rest => exact rest.waiting.nested.replace nofun rfl
  | bracket rest => exact rest.waiting.nested.replace nofun rfl
  | slash rest => exact rest.waiting.nested.replace nofun rfl
  | paren rest admitted => exact rest.waiting.nested_cons admitted
  | opener rest admitted => exact rest.waiting.nested_cons admitted
  | quoted fill => exact fill.waiting.nested.replace nofun rfl
  | run fill admitted => exact fill.waiting.nested_cons admitted
  | identifier fill admitted => exact fill.waiting.nested_cons admitted
  | literal fill admitted => exact fill.waiting.nested_cons admitted
  | matched fill admitted => exact fill.waiting.nested_cons admitted

/-- What stands around a component that needs more text needs more text, too. -/
theorem demands_of_admitted {component : Component} {host : Frame}
    (h : component ∈ host.components)
    (hmem : component ∈ [.definitions, .definition, .term, .exception, .primary, .name]) :
    host.demands = true := by
  cases host with
  | grammar | comment | closing | literal | matched | run =>
    cases component <;> simp [Frame.components] at h hmem
  | _ => rfl

/-- A production that ends leaves one that needs more text, if it is one itself or if there is one
further out. -/
theorem Nested.any_demands {frame : Frame} {below : List Frame} (h : Nested (frame :: below))
    (hcomponent : [.text, .comment, .product, .repetition].contains frame.component = false)
    (hdemands : (frame :: below).any Frame.demands = true) : below.any Frame.demands = true := by
  rw [List.any_cons, Bool.or_eq_true] at hdemands
  rcases hdemands with hframe | hbelow
  · cases h with
    | grammar => cases hframe
    | @cons frame host below rest _ admitted =>
      rw [List.any_cons, Bool.or_eq_true]
      refine Or.inl (demands_of_admitted admitted ?_)
      revert hframe hcomponent
      rw [Frame.demands]
      cases frame.component <;> decide
  · exact hbelow

/-- A move that neither accepts the text nor ends all productions that need more text. -/
def Move.Demands : Move → Prop
  | again _ frames => frames.any Frame.demands = true
  | accept _ => False
  | _ => True

section

variable {limit : Nat} {sight : Sight} {tree : Tree} {frames below : List Frame} {parent : NodeId}

/-- A character that is unexpected ends nothing; the text is refused. -/
theorem demands_unexpected {expected : Expectation} :
    (sight.unexpected tree expected).Demands := by
  unfold Sight.unexpected
  split <;> trivial

/-- A mark that has only begun cannot end without taking a character. -/
theorem demands_openLiteral {candidates : List String} :
    (openLiteral sight tree frames parent candidates).Demands := by
  unfold openLiteral stepLiteral settleLiteral
  split
  · dsimp only
    split
    · trivial
    · split <;> trivial
  · trivial

/-- White space takes its character, or the text is refused. -/
theorem demands_openSpace : (openSpace sight tree frames parent).Demands := by
  unfold openSpace
  split
  · split <;> trivial
  · trivial

/-- A bracket that begins takes the first character of its opener, or the text is refused. -/
theorem demands_openBracket {b : Bracket} :
    (openBracket limit sight tree frames parent b).Demands := by
  unfold openBracket
  split
  · trivial
  · exact demands_openLiteral

/-- A bracket whose opener was read before leaves the character, but it needs its list and its
closer. -/
theorem demands_attachBracket {b : Bracket} {opener : Span} :
    (attachBracket limit sight tree frames parent b opener).Demands := by
  unfold attachBracket
  split <;> trivial

/-- However a primary begins, it takes its first character, or the text is refused. -/
theorem demands_openPrimary {c : Char} :
    (openPrimary limit sight tree frames parent c).Demands := by
  unfold openPrimary
  split
  · rw [expectIdentifier_of_isLetter ‹_›]
    trivial
  split
  · rw [expectTerminal_of_isQuote ‹_›]
    exact demands_openLiteral
  split
  · exact demands_openBracket
  split
  · exact demands_openBracket
  split
  · exact demands_openLiteral
  split
  · trivial
  · exact demands_unexpected

/-- A term that ends leaves the definition around it, which needs more text until its product
ends. -/
theorem demands_endTerm {node : NodeId} {parts : TermParts}
    (h : below.any Frame.demands = true) : (endTerm sight tree below node parts).Demands := by
  unfold endTerm
  split <;> exact h

/-- An exception that ends leaves the term around it, which stands in a definition that needs more
text. -/
theorem demands_endException {node : NodeId} {primary : Option NodeId}
    (h : below.any Frame.demands = true) :
    (endException sight tree below node primary).Demands := by
  unfold endException
  split <;> exact h

/-- A mark that ends leaves the productions around it, and one of them needs more text. -/
theorem demands_stepLiteral {node : NodeId} {candidates : List String} {read : List Char}
    {best : Option (List Char × Position)} (h : below.any Frame.demands = true) :
    (stepLiteral sight tree below node candidates read best).Demands := by
  have hsettle : ∀ cause, (settleLiteral tree below node best cause).Demands := by
    intro cause
    cases best with
    | none => trivial
    | some best => exact h
  unfold stepLiteral
  split
  · dsimp only
    split
    · trivial
    · split
      · trivial
      · exact hsettle _
  · exact hsettle _

/-- A term that leaves the character has begun an exception or ends. It stands in a definition that
needs more text. -/
theorem demands_stepTerm {node : NodeId} {parts : TermParts} {dash : Bool}
    (h : below.any Frame.demands = true) :
    (stepTerm limit sight tree below node parts dash).Demands := by
  unfold stepTerm
  dsimp only
  split
  · rfl
  split
  · exact demands_endTerm h
  split
  · exact demands_openSpace
  split
  · split
    · trivial
    · rw [openRepetition_of_isDigit ‹_›]
      trivial
  split
  · split
    · trivial
    · exact demands_openLiteral
  split
  · split
    · trivial
    · exact demands_openPrimary
  · exact demands_endTerm h

/-- An exception that leaves the character ends, and what it stands in needs more text. -/
theorem demands_stepException {node term : NodeId} {primary : Option NodeId}
    (h : below.any Frame.demands = true) :
    (stepException limit sight tree below node term primary).Demands := by
  unfold stepException
  dsimp only
  split
  · exact demands_endException h
  split
  · exact demands_openSpace
  split
  · split
    · trivial
    · exact demands_openPrimary
  · exact demands_endException h

/-- A definition that leaves the character has begun a term or ends, and it stands in a list that
needs more text. -/
theorem demands_stepDefinition {node : NodeId} {start : Position} {term : Option NodeId}
    (h : below.any Frame.demands = true) :
    (stepDefinition sight tree below node start term).Demands := by
  unfold stepDefinition
  split
  · trivial
  split
  · exact demands_openSpace
  split
  · split
    · trivial
    · rfl
  split
  · exact demands_openLiteral
  · exact h

/-- A list that leaves the character has begun a definition or ends, and what it stands in needs its
closer or its last mark. -/
theorem demands_stepDefinitions {node : NodeId} {stage : ListStage}
    (h : below.any Frame.demands = true) :
    (stepDefinitions sight tree below node stage).Demands := by
  unfold stepDefinitions
  split
  · split
    · exact demands_openSpace
    · rfl
  · dsimp only
    split
    · exact h
    split
    · trivial
    split
    · exact demands_openLiteral
    · exact h
  · split
    · trivial
    split
    · trivial
    · rfl

/-- A comment ends with the character that it takes, so it never leaves one to what is around it. -/
theorem demands_stepComment {node : NodeId} {text : Option NodeId} {stage : CommentStage} :
    (stepComment limit sight tree below node text stage).Demands := by
  unfold stepComment
  split
  · trivial
  split
  · split <;> trivial
  · split
    · trivial
    split
    · trivial
    · rfl
  · split
    · trivial
    · rfl

/-- A product ends with a mark, which takes a character, so at the end of the input it is
refused. -/
theorem demands_stepProduct {node lhs : NodeId} {stage : ProductStage} :
    (stepProduct sight tree below node lhs stage).Demands := by
  unfold stepProduct
  split
  · dsimp only
    split
    · exact demands_openLiteral
    · exact demands_unexpected
  · split
    · exact demands_openSpace
    · rfl
  · dsimp only
    split
    · trivial
    · exact demands_openLiteral

/-- A repetition takes the character or refuses the text, as white space or a star. -/
theorem demands_stepRepetition {node : NodeId} :
    (stepRepetition sight tree below node).Demands := by
  unfold stepRepetition
  split
  · exact demands_openSpace
  · exact demands_openLiteral

/-- A parenthesis is followed by a character that says what it opens. -/
theorem demands_stepParen {start : Position} :
    (stepParen limit sight tree below parent start).Demands := by
  unfold stepParen
  split
  · trivial
  split
  · trivial
  split
  · trivial
  · exact demands_attachBracket

/-- A bracket ends only with the closer that was handed over to it. -/
theorem demands_stepBracket {b : Bracket} {node : NodeId} {stage : BracketStage}
    (h : below.any Frame.demands = true) :
    (stepBracket sight tree below b node stage).Demands := by
  unfold stepBracket
  split
  · dsimp only
    split
    · exact demands_openSpace
    · rfl
  · exact demands_openLiteral
  · split
    · exact h
    · trivial

/-- A quoted text that leaves the character has got the leaf for its text, and needs its closing
quote. -/
theorem demands_stepQuoted {form : Quoted} {node : NodeId} {text : Option NodeId} :
    (stepQuoted sight tree below form node text).Demands := by
  unfold stepQuoted
  split
  · rfl
  split
  · trivial
  split
  · exact demands_openLiteral
  · trivial

/-- A name ends in front of the character behind it and leaves the productions around it. -/
theorem demands_stepIdentifier {node : NodeId} {trailing : Option Span}
    (h : below.any Frame.demands = true) :
    (stepIdentifier sight tree below node parent trailing).Demands := by
  unfold stepIdentifier
  dsimp only
  split
  · split
    · split <;> trivial
    · split <;> exact h
  · split <;> exact h

/-- White space and a number that end leave what is below, which is as it was before they began. -/
theorem demands_stepRun {run : Run} {node : NodeId} (h : below.any Frame.demands = true) :
    (stepRun sight tree below run node).Demands := by
  unfold stepRun
  split
  · split
    · trivial
    · exact h
  · exact h

/-- No step ends all productions that need more text, unless it takes a character. A production that
ends on its own leaves the demands of those below it. -/
theorem demands_step (limit : Nat) (sight : Sight) (tree : Tree) (h : Nested frames)
    (hdemands : frames.any Frame.demands = true) : (step limit sight tree frames).Demands := by
  cases frames with
  | nil => cases hdemands
  | cons frame below =>
    have hbelow := h.any_demands
    cases frame with
    | grammar begun =>
      cases h with
      | grammar => cases hdemands
      | cons _ _ admitted => exact absurd admitted Frame.text_not_mem_components
    | comment id text stage => exact demands_stepComment
    | product id lhs stage => exact demands_stepProduct
    | definitions id stage => exact demands_stepDefinitions (hbelow rfl hdemands)
    | definition id start term => exact demands_stepDefinition (hbelow rfl hdemands)
    | term id parts dash => exact demands_stepTerm (hbelow rfl hdemands)
    | exception id term primary => exact demands_stepException (hbelow rfl hdemands)
    | repetition id => exact demands_stepRepetition
    | paren parent start => exact demands_stepParen
    | opener b parent opener => exact demands_attachBracket
    | bracket b id stage => exact demands_stepBracket (hbelow rfl hdemands)
    | quoted form id text => exact demands_stepQuoted
    | identifier id parent trailing => exact demands_stepIdentifier (hbelow rfl hdemands)
    | run run id =>
      cases run with
      | space | number => exact demands_stepRun (hbelow rfl hdemands)
    | literal id candidates read best => exact demands_stepLiteral (hbelow rfl hdemands)
    | matched id text last => exact hbelow rfl hdemands
    | closing id => exact hbelow rfl hdemands

end

/-- The text does not end while an open production needs more of it. -/
theorem settle_atEnd_ne_accepted {limit : Nat} {whole : List Char} {here : Position}
    {tree tree' : Tree} {frames : List Frame} (hs : (Sight.mk none here).Reads whole whole)
    (h : Standing False whole whole tree frames) (hdemands : frames.any Frame.demands = true) :
    settle limit ⟨none, here⟩ tree frames ≠ .accepted tree' := by
  -- nothing is claimed of the spans, so the steps keep what they keep at any character
  refine settle_induction (P := fun tree frames =>
      Standing False whole whole tree frames ∧ frames.any Frame.demands = true)
    (Q := fun outcome => outcome ≠ .accepted tree')
    (fun tree frames ⟨h, hdemands⟩ => ?_) ⟨h, hdemands⟩
  have hkeeps := keeps_step limit hs False.elim h
  have hmove := demands_step limit ⟨none, here⟩ tree h.nested hdemands
  cases hstep : step limit ⟨none, here⟩ tree frames with
  | again tree' frames' =>
    rw [hstep] at hkeeps hmove
    exact ⟨hkeeps, hmove⟩
  | accept tree' =>
    rw [hstep] at hmove
    exact hmove.elim
  | next tree' frames' | reject tree' cause => nofun

/-- Where no open production needs more text, nothing begins at the end of the input, so the spans
may be claimed there although no character is next. -/
theorem keeps_step_atEnd {sure : Prop} {whole : List Char} {here : Position} {tree : Tree}
    {frames : List Frame} (limit : Nat) (hs : (Sight.mk none here).Reads whole whole)
    (h : Standing sure whole whole tree frames) (hdemands : frames.any Frame.demands = false) :
    (step limit ⟨none, here⟩ tree frames).Keeps sure ⟨none, here⟩ whole whole := by
  cases h with
  | fresh tree_eq done_eq =>
    subst tree_eq done_eq
    exact keeps_stepGrammar_fresh limit hs
  | @idle frame _ _ _ rest done_eq ready =>
    cases frame with
    | grammar begun =>
      cases begun with
      | true => exact keeps_stepGrammar limit hs rest done_eq
      | false => cases rest.waiting.id_eq_size
    | closing id => exact keeps_stepClosing rest done_eq ready
    | literal | matched | run => cases rest.waiting.id_eq_size
    | _ => cases hdemands
  | run fill admitted id_eq done_eq denotes =>
    exact keeps_stepRun hs fill admitted id_eq done_eq denotes
  | literal fill admitted id_eq data plain goes done_eq first =>
    exact keeps_stepLiteral hs fill admitted id_eq data plain (plain.length_lt_of_goesOn goes)
      done_eq fun _ => first
  | matched fill admitted id_eq data length done_eq denotes =>
    exact keeps_stepMatched fill admitted id_eq done_eq denotes
  | _ => cases hdemands

/-- At the end of the input the spans of an accepted tree are right, too. -/
theorem finished_settle_atEnd {sure : Prop} {limit : Nat} {whole : List Char} {here : Position}
    {tree tree' : Tree} {frames : List Frame} (hs : (Sight.mk none here).Reads whole whole)
    (h : Standing sure whole whole tree frames)
    (haccepted : settle limit ⟨none, here⟩ tree frames = .accepted tree') :
    tree'.Finished sure whole := by
  -- once a production needs more text the run cannot accept, and until then no component begins
  induction hw : weight frames using Nat.strongRecOn generalizing tree frames with
  | ind n ih =>
    by_cases hdemands : frames.any Frame.demands = true
    · exact absurd haccepted (settle_atEnd_ne_accepted hs (h.mono False.elim) hdemands)
    · have hkeeps := keeps_step_atEnd limit hs h (eq_false_of_ne_true hdemands)
      rw [settle_eq] at haccepted
      cases hstep : step limit ⟨none, here⟩ tree frames with
      | again tree' frames' =>
        rw [hstep] at hkeeps haccepted
        exact ih _ (hw ▸ weight_lt_of_step hstep) hkeeps haccepted rfl
      | next tree' frames' =>
        rw [hstep] at haccepted
        cases haccepted
      | accept tree' =>
        rw [hstep] at hkeeps haccepted
        cases haccepted
        exact hkeeps.2
      | reject tree' cause =>
        rw [hstep] at haccepted
        cases haccepted

/-! ### Runs on a text -/

/-- The machine between two characters, after `whole` was taken. -/
structure Config.Between (config : Config) (whole : List Char) : Prop where
  /-- The machine stands as it may stand. -/
  standing : Standing True whole whole config.tree config.frames
  /-- The reader stands behind the last character. -/
  position_eq : config.position = Position.start.afterAll whole

namespace Config.Between

variable {config : Config} {whole : List Char}

theorem initial : Config.initial.Between [] := ⟨.fresh rfl rfl, rfl⟩

theorem reads_none (h : config.Between whole) :
    (Sight.mk none config.position).Reads whole whole :=
  ⟨(List.append_nil whole).symm, h.position_eq⟩

theorem reads_some (h : config.Between whole) (c : Char) :
    (Sight.mk (some c) (config.position.after c)).Reads whole (whole ++ [c]) :=
  ⟨rfl, by rw [h.position_eq, Position.afterAll_append]; rfl⟩

/-- The steps for the next character keep what is true of the machine between two characters. -/
theorem keeps_settle (h : config.Between whole) (limit : Nat) (c : Char) :
    (settle limit ⟨some c, config.position.after c⟩ config.tree config.frames).Keeps True
      ⟨some c, config.position.after c⟩ (whole ++ [c]) :=
  LosslessEbnf.keeps_settle limit (h.reads_some c) (fun _ => rfl) (h.standing.weaken id [c])

/-- The steps for the end of the input keep what is true of the machine, except that nothing is sure
of the spans of what begins there. -/
theorem keeps_settle_atEnd (h : config.Between whole) (limit : Nat) :
    (settle limit ⟨none, config.position⟩ config.tree config.frames).Keeps False
      ⟨none, config.position⟩ whole :=
  LosslessEbnf.keeps_settle limit h.reads_none False.elim (h.standing.mono False.elim)

/-- Between two characters the machine stands behind what was read, and the next character moves it
on. -/
theorem next {tree : Tree} {frames : List Frame} {c : Char} (h : config.Between whole)
    (hstanding : Standing True (whole ++ [c]) (whole ++ [c]) tree frames) :
    (Config.mk tree frames (config.position.after c)).Between (whole ++ [c]) :=
  ⟨hstanding, (h.reads_some c).here_eq⟩

end Config.Between

/-- A run that accepts a text leaves a finished tree: the text is shown by it, and every span
denotes what is below. -/
theorem finished_of_runText {limit : Nat} {config : Config} {whole text : List Char} {tree : Tree}
    (h : config.Between whole) (hrun : runText limit config text = .ok tree) :
    tree.Finished True (whole ++ text) := by
  induction text generalizing config whole with
  | nil =>
    rw [runText_nil, finish] at hrun
    rw [List.append_nil]
    split at hrun
    · rename_i hsettle
      exact (settle_atEnd_ne_waiting _ _ _ _ _ _ hsettle).elim
    · rename_i hsettle
      cases hrun
      exact finished_settle_atEnd h.reads_none h.standing hsettle
    · cases hrun
  | cons c text ih =>
    have hkeeps := h.keeps_settle limit c
    rw [runText_cons] at hrun
    split at hrun
    · rename_i hsettle
      rw [hsettle] at hkeeps
      have := ih (h.next hkeeps) hrun
      rwa [List.append_assoc] at this
    · rename_i hsettle
      rw [hsettle] at hkeeps
      cases hkeeps.1
    · cases hrun

end LosslessEbnf
