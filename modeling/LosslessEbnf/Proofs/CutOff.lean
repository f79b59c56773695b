import LosslessEbnf.Proofs.Edge
import LosslessEbnf.Proofs.Finality

/-!
# What is left where a text is refused

A step that refuses the text may have begun something before it looks at the next character. What it
has begun stays in the tree, below the innermost open node, and is never ended.

## Main Definitions

* `Tree.Lengthens` — a tree to which something was added at its innermost open node
* `Move.Lengthens` — a move that adds nothing anywhere else if it refuses the text
* `Frame.innermost?` — the node that a production adds to

## Main Statements

* `Tree.Lengthens.settled` — what is added does not touch the nodes that are complete
* `lengthens_step` — a step that refuses the text adds only at the innermost open node
* `Standing.settled_settle` — what is refused at a character leaves a settled tree

## Design Notes

The spans of what is added are of no account, and neither are those of the open nodes: all of these
are on the edge of the tree. So nothing has to be known of the place where the step adds them.
-/

namespace LosslessEbnf

/-! ### What is added before a text is refused -/

/-- The tree `start`, in which `top` is the innermost open node, is lengthened at that node. -/
inductive Tree.Lengthens (start : Tree) (top : NodeId) : Tree → NodeId → Prop
  /-- Nothing is changed. -/
  | refl : Lengthens start top start top
  /-- The innermost open node changes in kind. -/
  | withKind {tree : Tree} {node : NodeId} (h : Lengthens start top tree node) (kind : Kind) :
      Lengthens start top (tree.withKind node kind) node
  /-- The innermost open node changes in its end. -/
  | withLast {tree : Tree} {node : NodeId} (h : Lengthens start top tree node) (last : Position) :
      Lengthens start top (tree.withLast node last) node
  /-- A child of the innermost open node is opened. -/
  | push {tree : Tree} {node : NodeId} (h : Lengthens start top tree node) (kind : Kind)
      (span : Span) (data : String) :
      Lengthens start top (tree.pushChild node kind span data) tree.size

/-- What is below the open nodes stays as it is, and the innermost open node is the last of the
chain that was added. -/
theorem Tree.Lengthens.exists_shows {exempt : NodeId → Prop} {whole : List Char}
    {start tree : Tree} {top node : NodeId} {host : OpenNode} {outer : Spine}
    (h : start.Lengthens top tree node) (hshows : start.Shows (host :: outer))
    (htop : top = outer.size) (hsettled : Spine.Settled exempt whole (host :: outer)) :
    ∃ host outer, tree.Shows (host :: outer) ∧ node = Spine.size outer ∧
      Spine.Settled exempt whole (host :: outer) := by
  induction h with
  | refl => exact ⟨host, outer, hshows, htop, hsettled⟩
  | withKind h kind ih =>
    obtain ⟨host, outer, hshows, rfl, hsettled⟩ := ih
    exact ⟨_, outer, hshows.withKind kind, rfl, hsettled⟩
  | withLast h last ih =>
    obtain ⟨host, outer, hshows, rfl, hsettled⟩ := ih
    exact ⟨_, outer, hshows.withLast last, rfl, hsettled⟩
  | push h kind span data ih =>
    obtain ⟨host, outer, hshows, rfl, hsettled⟩ := ih
    exact ⟨.bare ⟨kind, span, data⟩, host :: outer, hshows.push kind span data, hshows.size_eq,
      trivial, hsettled⟩

/-- A settled tree stays settled. -/
theorem Tree.Lengthens.settled {exempt : NodeId → Prop} {whole : List Char} {start tree : Tree}
    {top node : NodeId} {host : OpenNode} {outer : Spine} (h : start.Lengthens top tree node)
    (hshows : start.Shows (host :: outer)) (htop : top = outer.size)
    (hsettled : Spine.Settled exempt whole (host :: outer)) : tree.Settled exempt whole := by
  obtain ⟨host, outer, hshows, -, hsettled⟩ := h.exists_shows hshows htop hsettled
  exact ⟨host, outer, hshows, hsettled⟩

/-- A move that refuses the text leaves a tree that is lengthened at the node `top`. -/
def Move.Lengthens (start : Tree) (top : NodeId) : Move → Prop
  | reject tree _ => ∃ node, start.Lengthens top tree node
  | _ => True

section

variable {limit : Nat} {sight : Sight} {start tree : Tree} {frames below : List Frame}
  {top node parent : NodeId} {c : Char}

/-- Whatever the cause is, a refusal only hands on the tree that is there. -/
theorem Tree.Lengthens.reject (h : start.Lengthens top tree node) (cause : Cause) :
    (Move.reject tree cause).Lengthens start top := ⟨node, h⟩

/-- A character that is unexpected is refused before anything is begun with it. -/
theorem lengthens_unexpected (h : start.Lengthens top tree node) (expected : Expectation) :
    (sight.unexpected tree expected).Lengthens start top := by
  unfold Sight.unexpected
  split <;> exact h.reject _

/-- A mark is written into its leaf when it ends, so one that fails leaves the tree as it was. -/
theorem lengthens_stepLiteral (h : start.Lengthens top tree node) (leaf : NodeId)
    (candidates : List String) (read : List Char) (best : Option (List Char × Position)) :
    (stepLiteral sight tree below leaf candidates read best).Lengthens start top := by
  unfold stepLiteral settleLiteral
  dsimp only
  repeat' split
  all_goals first | trivial | exact h.reject _

/-- A mark that fails at once leaves its empty leaf, below the production that was to have it. -/
theorem lengthens_openLiteral (h : start.Lengthens top tree parent) (candidates : List String) :
    (openLiteral sight tree frames parent candidates).Lengthens start top :=
  lengthens_stepLiteral (h.push ..) ..

/-- A mark of a single character that is next is not refused. -/
theorem lengthens_openLiteral_single (hc : sight.ahead = some c) :
    (openLiteral sight tree frames parent [String.singleton c]).Lengthens start top := by
  simp [openLiteral, stepLiteral, hc, goesOn, isRead, Move.Lengthens]

theorem lengthens_openSpace (h : start.Lengthens top tree node) :
    (openSpace sight tree frames parent).Lengthens start top := by
  unfold openSpace
  repeat' split
  all_goals first | trivial | exact h.reject _

/-- A quoted text that fails at its first quote leaves its own node, and the empty leaf of the quote
below that. -/
theorem lengthens_openQuoted (h : start.Lengthens top tree parent) (form : Quoted) :
    (openQuoted sight tree frames parent form).Lengthens start top :=
  lengthens_openLiteral (h.push ..) _

/-- A comment that lies too deep leaves nothing. One whose mark fails leaves its own node and the
empty leaf of the mark. -/
theorem lengthens_openComment (h : start.Lengthens top tree parent) :
    (openComment limit sight tree frames parent).Lengthens start top := by
  unfold openComment
  split
  · exact h.reject _
  · exact lengthens_openLiteral (h.push ..) _

/-- A bracket that lies too deep leaves nothing. One whose opener fails leaves its own node and the
empty leaf of the opener. -/
theorem lengthens_openBracket (h : start.Lengthens top tree parent) (b : Bracket) :
    (openBracket limit sight tree frames parent b).Lengthens start top := by
  unfold openBracket
  split
  · exact h.reject _
  · exact lengthens_openLiteral (h.push ..) _

/-- A bracket whose opener was read before is only refused if it lies too deep, and then it leaves
nothing. -/
theorem lengthens_attachBracket (h : start.Lengthens top tree parent) (b : Bracket)
    (opener : Span) :
    (attachBracket limit sight tree frames parent b opener).Lengthens start top := by
  unfold attachBracket
  split
  · exact h.reject _
  · trivial

/-- Whatever primary is refused, it leaves nodes in a chain below the production that was to have
it. -/
theorem lengthens_openPrimary (h : start.Lengthens top tree parent) :
    (openPrimary limit sight tree frames parent c).Lengthens start top := by
  unfold openPrimary
  repeat' split
  · rw [expectIdentifier_of_isLetter ‹_›]
    trivial
  · rw [expectTerminal_of_isQuote ‹_›]
    exact lengthens_openQuoted h _
  · exact lengthens_openBracket h _
  · exact lengthens_openBracket h _
  · exact lengthens_openQuoted h _
  · trivial
  · exact lengthens_unexpected h _

/-! ### Productions -/

/-- A comment is refused where the input ends or a comment in it lies too deep, and nothing is begun
before that. -/
theorem lengthens_stepComment (text : Option NodeId) (stage : CommentStage) :
    (stepComment limit sight tree below node text stage).Lengthens tree node := by
  unfold stepComment
  cases sight.ahead with
  | none => exact Tree.Lengthens.refl.reject _
  | some c =>
    cases stage <;> dsimp only <;> repeat' split
    all_goals first | trivial | exact Tree.Lengthens.refl.reject _

/-- A name is never refused: it ends in front of what does not belong to it. -/
theorem lengthens_stepIdentifier (trailing : Option Span) :
    (stepIdentifier sight tree below node parent trailing).Lengthens start top := by
  unfold stepIdentifier
  dsimp only
  repeat' split
  all_goals trivial

theorem lengthens_stepRun (run : Run) :
    (stepRun sight tree below run node).Lengthens start top := by
  unfold stepRun
  repeat' split
  all_goals trivial

/-- A quoted text is refused where the input ends, and its text leaf is there already. A closing
quote is not refused. -/
theorem lengthens_stepQuoted (form : Quoted) (text : Option NodeId) :
    (stepQuoted sight tree below form node text).Lengthens tree top := by
  unfold stepQuoted
  split
  · trivial
  · cases hc : sight.ahead with
    | none => exact Tree.Lengthens.refl.reject _
    | some c =>
      dsimp only
      split
      · rename_i hmark
        subst hmark
        exact lengthens_openLiteral_single hc
      · trivial

/-- A parenthesis has no node. It is refused where the input ends or its bracket lies too deep. -/
theorem lengthens_stepParen (startPosition : Position) :
    (stepParen limit sight tree below parent startPosition).Lengthens tree parent := by
  unfold stepParen
  split
  · exact Tree.Lengthens.refl.reject _
  · repeat' split
    · trivial
    · trivial
    · exact lengthens_attachBracket .refl ..

/-- A bracket that lacks its closer leaves the empty leaf of it. One with the wrong closer is
refused as it is. -/
theorem lengthens_stepBracket (b : Bracket) (stage : BracketStage) :
    (stepBracket sight tree below b node stage).Lengthens tree node := by
  match stage with
  | .opened opening =>
    show Move.Lengthens tree node (if sight.ahead.any isSpace then _ else _)
    split
    · exact lengthens_openSpace (Tree.Lengthens.refl.withKind _)
    · trivial
  | .body none => exact lengthens_openLiteral .refl _
  | .body (some closer) =>
    show Move.Lengthens tree node (if b = .repeated then _ else _)
    split
    · trivial
    · exact Tree.Lengthens.refl.reject _

theorem lengthens_endTerm (parts : TermParts) :
    (endTerm sight tree below node parts).Lengthens start top := by
  unfold endTerm
  split <;> trivial

/-- A term notes its parts before it looks at the next character. What is refused then has begun
below it. -/
theorem lengthens_stepTerm (parts : TermParts) (dash : Bool) :
    (stepTerm limit sight tree below node parts dash).Lengthens tree node := by
  have hterm : tree.Lengthens node (tree.withKind node (.term parts)) node := .withKind .refl _
  unfold stepTerm
  dsimp only
  repeat' split
  · trivial
  · exact lengthens_endTerm _
  · exact lengthens_openSpace hterm
  · exact hterm.reject _
  · rw [openRepetition_of_isDigit ‹_›]
    trivial
  · exact hterm.reject _
  · exact lengthens_openLiteral hterm _
  · exact hterm.reject _
  · exact lengthens_openPrimary hterm
  · exact lengthens_endTerm _

theorem lengthens_endException (primary : Option NodeId) :
    (endException sight tree below node primary).Lengthens start top := by
  unfold endException
  split <;> trivial

/-- An exception notes its primary before it looks at the next character. What is refused then has
begun below it. -/
theorem lengthens_stepException (term : NodeId) (primary : Option NodeId) :
    (stepException limit sight tree below node term primary).Lengthens tree node := by
  have hexception : tree.Lengthens node (tree.withKind node (.exception primary)) node :=
    .withKind .refl _
  unfold stepException
  dsimp only
  repeat' split
  · exact lengthens_endException _
  · exact lengthens_openSpace hexception
  · exact hexception.reject _
  · exact lengthens_openPrimary hexception
  · exact lengthens_endException _

/-- A repetition that lacks its star leaves the empty leaf of it. -/
theorem lengthens_stepRepetition :
    (stepRepetition sight tree below node).Lengthens tree node := by
  unfold stepRepetition
  split
  · exact lengthens_openSpace .refl
  · exact lengthens_openLiteral .refl _

/-- A definition is refused where the input ends or a term lacks its comma, and it begins nothing
before that. -/
theorem lengthens_stepDefinition (startPosition : Position) (term : Option NodeId) :
    (stepDefinition sight tree below node startPosition term).Lengthens tree node := by
  unfold stepDefinition
  cases hc : sight.ahead with
  | none => exact Tree.Lengthens.refl.reject _
  | some c =>
    dsimp only
    split
    · exact lengthens_openSpace .refl
    split
    · split
      · exact Tree.Lengthens.refl.reject _
      · trivial
    split
    · rename_i hcomma
      subst hcomma
      have hmark : [","] = [String.singleton ','] := by decide
      rw [hmark]
      exact lengthens_openLiteral_single hc
    · trivial

/-- A list ends at its last definition before it looks at the next character, and it is refused only
where the input ends behind a slash. -/
theorem lengthens_stepDefinitions (stage : ListStage) :
    (stepDefinitions sight tree below node stage).Lengthens tree node := by
  cases stage with
  | start =>
    show Move.Lengthens tree node (if sight.ahead.any isSpace then _ else _)
    split
    · exact lengthens_openSpace .refl
    · trivial
  | afterDefinition =>
    unfold stepDefinitions
    dsimp only
    repeat' split
    · trivial
    · trivial
    · exact lengthens_openLiteral (.withLast .refl _) _
    · trivial
  | afterSlash slash =>
    unfold stepDefinitions
    dsimp only
    repeat' split
    · exact Tree.Lengthens.refl.reject _
    · trivial
    · trivial

/-- A product notes its name and its list before it looks at the next character. If it lacks its
last mark it leaves the empty leaf of it. -/
theorem lengthens_stepProduct (lhs : NodeId) (stage : ProductStage) :
    (stepProduct sight tree below node lhs stage).Lengthens tree node := by
  match stage with
  | .name =>
    show Move.Lengthens tree node (if sight.ahead = some '=' then _ else _)
    split
    · exact lengthens_openLiteral (.withKind .refl _) _
    · exact lengthens_unexpected (.withKind .refl _) _
  | .equals =>
    show Move.Lengthens tree node (if sight.ahead.any isSpace then _ else _)
    split
    · exact lengthens_openSpace .refl
    · trivial
  | .body list none => exact lengthens_openLiteral (.withKind .refl _) _
  | .body list (some closer) => exact (Tree.Lengthens.refl.withKind _).reject _

/-- Between two items a refusal leaves nothing but the nodes of a comment whose mark has failed. -/
theorem lengthens_stepGrammar (begun : Bool) :
    (stepGrammar limit sight tree below begun).Lengthens tree Tree.root := by
  unfold stepGrammar
  dsimp only
  repeat' split
  · trivial
  · exact lengthens_openComment .refl
  · rw [openProduct_of_isLetter ‹_›]
    trivial
  · exact lengthens_openSpace .refl
  · exact lengthens_unexpected .refl _
  · trivial
  · trivial

/-- The innermost open node, if the production on top adds to it. -/
def Frame.innermost? : Frame → Option NodeId
  | grammar _ => some Tree.root
  | comment node .. | product node .. | definitions node _ | definition node .. => some node
  | term node .. | exception node .. | repetition node | bracket _ node _ => some node
  | paren parent _ | opener _ parent _ => some parent
  | _ => none

/-- A production that waits adds to the node of which it waits for a component. -/
theorem Frame.innermost_eq {frame : Frame} {id : NodeId} (h : frame.waiting? = some id)
    (hnode : frame.innermost? = some node) : node = id := by
  unfold Frame.waiting? at h
  split at h <;> simp_all [innermost?]

/-- A step that refuses the text lengthens the tree at its innermost open node. Steps that do not
refuse it may do more. -/
theorem lengthens_step (limit : Nat) (sight : Sight) (tree : Tree) (below : List Frame)
    {frame : Frame} (htop : ∀ node, frame.innermost? = some node → node = top) :
    (step limit sight tree (frame :: below)).Lengthens tree top := by
  cases frame with
  | grammar begun => exact htop _ rfl ▸ lengthens_stepGrammar begun
  | comment id text stage => exact htop _ rfl ▸ lengthens_stepComment text stage
  | product id lhs stage => exact htop _ rfl ▸ lengthens_stepProduct lhs stage
  | definitions id stage => exact htop _ rfl ▸ lengthens_stepDefinitions stage
  | definition id start term => exact htop _ rfl ▸ lengthens_stepDefinition start term
  | term id parts dash => exact htop _ rfl ▸ lengthens_stepTerm parts dash
  | exception id term primary => exact htop _ rfl ▸ lengthens_stepException term primary
  | repetition id => exact htop _ rfl ▸ lengthens_stepRepetition
  | paren parent start => exact htop _ rfl ▸ lengthens_stepParen start
  | opener b parent opener => exact htop _ rfl ▸ lengthens_attachBracket .refl b opener
  | bracket b id stage => exact htop _ rfl ▸ lengthens_stepBracket b stage
  | quoted form id text => exact lengthens_stepQuoted form text
  | identifier id parent trailing => exact lengthens_stepIdentifier trailing
  | run run id => exact lengthens_stepRun run
  | literal id candidates read best => exact lengthens_stepLiteral .refl id candidates read best
  | matched | closing => trivial

end

/-! ### Steps that refuse the text -/

section

variable {limit : Nat} {whole done : List Char} {sight : Sight} {tree tree' : Tree}
  {frames : List Frame} {exempt : NodeId → Prop} {cause : Cause}

/-- Productions that wait have nothing but complete trees below their nodes. -/
theorem Waiting.settled {spine : Spine} (h : Waiting True whole frames spine) :
    spine.Settled exempt whole := by
  have hbegun : ∀ {node : OpenNode} {number offset : Nat}, node.Begun True whole offset →
      node.below.Exact exempt whole number (offset + node.label.data.toList.length) := by
    intro node number offset hbegun
    rw [hbegun.data]
    exact (hbegun.placed trivial).exact
  induction h with
  | grammar begun => exact ⟨hbegun begun, trivial⟩
  | cons rest _ _ begun ih => exact ⟨hbegun begun, ih⟩

/-- A step that refuses the text leaves a settled tree, since it adds only below the innermost open
node. -/
theorem Standing.settled_of_reject (h : Standing True whole done tree frames)
    (hstep : step limit sight tree frames = .reject tree' cause) : tree'.Settled exempt whole := by
  have hlengthened : ∀ {frame : Frame} {below : List Frame} {node : OpenNode} {outer : Spine},
      frames = frame :: below → tree.Shows (node :: outer) →
      Spine.Settled exempt whole (node :: outer) →
      (∀ id, frame.innermost? = some id → id = outer.size) → tree'.Settled exempt whole := by
    rintro frame below node outer rfl hshows hsettled htop
    have hlengthens := lengthens_step limit sight tree below htop
    rw [hstep] at hlengthens
    obtain ⟨latest, hlengthens⟩ := hlengthens
    exact hlengthens.settled hshows rfl hsettled
  cases h with
  | fresh tree_eq =>
    subst tree_eq
    exact hlengthened rfl Tree.shows_empty ⟨trivial, trivial⟩ fun _ h => (Option.some.inj h).symm
  | idle rest =>
    exact hlengthened rfl rest.shows rest.waiting.settled
      fun _ => Frame.innermost_eq rest.waiting.id_eq_size
  | comment rest | product rest | bracket rest | slash rest =>
    refine hlengthened rfl rest.shows rest.waiting.settled fun _ h => ?_
    exact (Option.some.inj h).symm.trans (Option.some.inj rest.waiting.id_eq_size)
  | paren rest _ parent_eq | opener rest _ parent_eq =>
    exact hlengthened rfl rest.shows rest.waiting.settled
      fun _ h => (Option.some.inj h).symm.trans parent_eq
  | quoted fill | run fill | identifier fill | literal fill | matched fill =>
    exact hlengthened rfl fill.shows ⟨trivial, fill.waiting.settled⟩ nofun

/-- What is refused at a character leaves a settled tree: the steps before the refusal keep the
machine standing. -/
theorem Standing.settled_settle (hs : sight.Reads done whole) (hsome : sight.ahead.isSome)
    (h : Standing True whole done tree frames)
    (hrefused : settle limit sight tree frames = .rejected tree' cause) (more : List Char) :
    tree'.Settled exempt (whole ++ more) := by
  refine settle_induction
    (Q := fun outcome => outcome = .rejected tree' cause → tree'.Settled exempt (whole ++ more))
    (fun tree frames h => ?_) h hrefused
  have hkeeps := keeps_step limit hs (fun _ => hsome) h
  cases hstep : step limit sight tree frames with
  | again tree₁ frames₁ =>
    rw [hstep] at hkeeps
    exact hkeeps
  | next tree₁ frames₁ | accept tree₁ => nofun
  | reject tree₁ cause₁ =>
    rintro ⟨rfl, rfl⟩
    exact (h.weaken id more).settled_of_reject hstep

end

end LosslessEbnf
