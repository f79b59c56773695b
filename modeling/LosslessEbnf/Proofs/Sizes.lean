import LosslessEbnf.Proofs.Exchange

/-!
# Sizes of trees

A tree has at most six nodes for each character of the text, and one for the root.

## Main Definitions

* `Frame.due` — the nodes that a production can still add before a character has to be taken
* `Move.Affords` — the nodes there are and those that are due stay within a bound

## Main Statements

* `affords_step` — each character pays for six nodes
* `count_runText_le` — the run on a text
* `count_parseText_le` — the tree of a text is at most linear in the text

## Design Notes

Nodes are also made for no text at all: empty terms, empty strings, lists and definitions that have
only begun, marks that are not found. So the nodes are not counted against the text that they hold.
A production that takes a character is charged for all nodes that it can make before it needs the
next one, and the most expensive character is the opener of a bracket, which puts a bracket, its
opener, a list, a definition, a term and an empty string into the tree.
-/

namespace LosslessEbnf

/-! ### Nodes that are due -/

/-- How many nodes the production can still add before it takes a character or ends. -/
def Frame.due : Frame → Nat
  | comment _ _ .body => 0
  | comment _ _ (.mark ..) => 1
  | comment _ _ (.opened _) => 2
  | product _ _ .name => 0
  | product _ _ .equals => 5
  | product _ _ (.body ..) => 1
  | definitions _ .start => 3
  | definitions _ .afterDefinition => 0
  | definitions _ (.afterSlash _) => 4
  | definition _ _ none => 2
  | definition _ _ (some _) => 0
  | term _ parts dash => (if parts.primary.isNone then 1 else 0) + (if dash then 2 else 0)
  | exception _ _ none => 1
  | exception _ _ (some _) => 0
  | repetition _ => 1
  | paren .. | opener .. => 7
  | bracket _ _ (.opened _) => 5
  | bracket _ _ (.body _) => 1
  | quoted _ _ none => 1
  | quoted _ _ (some _) => 0
  | identifier _ _ trailing => if trailing.isSome then 1 else 0
  | grammar _ | run .. | literal .. | matched .. | closing _ => 0

/-- How many nodes the open productions can still add. -/
def dues : List Frame → Nat
  | [] => 0
  | frame :: below => frame.due + dues below

@[simp] theorem dues_nil : dues [] = 0 := rfl

/-- What is due is due for each open production by itself, so a production that is put on top only
adds its own nodes. -/
@[simp] theorem dues_cons (frame : Frame) (below : List Frame) :
    dues (frame :: below) = frame.due + dues below := rfl

/-- A closer that is handed over changes nothing: its node is due already. -/
@[simp] theorem dues_handOver (closer : Span) (frames : List Frame) :
    dues (handOver closer frames) = dues frames := by
  unfold handOver
  split <;> rfl

namespace Tree

@[simp] theorem count_pushChild (tree : Tree) (parent : NodeId) (kind : Kind) (span : Span)
    (data : String) : (tree.pushChild parent kind span data).count = tree.count + 1 := rfl

@[simp] theorem count_withKind (tree : Tree) (id : NodeId) (kind : Kind) :
    (tree.withKind id kind).count = tree.count := rfl

@[simp] theorem count_withSpan (tree : Tree) (id : NodeId) (span : Span) :
    (tree.withSpan id span).count = tree.count := rfl

@[simp] theorem count_withFirst (tree : Tree) (id : NodeId) (first : Position) :
    (tree.withFirst id first).count = tree.count := rfl

@[simp] theorem count_withLast (tree : Tree) (id : NodeId) (last : Position) :
    (tree.withLast id last).count = tree.count := rfl

@[simp] theorem count_withData (tree : Tree) (id : NodeId) (data : String) :
    (tree.withData id data).count = tree.count := rfl

@[simp] theorem count_pushText (tree : Tree) (id : NodeId) (c : Char) :
    (tree.pushText id c).count = tree.count := rfl

@[simp] theorem count_extend (tree : Tree) (id : NodeId) (c : Char) (here : Position) :
    (tree.extend id c here).count = tree.count := rfl

@[simp] theorem count_closeAtLastChild (tree : Tree) (id : NodeId) :
    (tree.closeAtLastChild id).count = tree.count := by
  unfold closeAtLastChild
  split <;> rfl

end Tree

/-! ### Moves within a bound -/

/-- How many nodes the next character pays for. The end of the input pays for none. -/
def Sight.pays (sight : Sight) : Nat := if sight.ahead.isSome then 6 else 0

@[simp] theorem pays_some (c : Char) (here : Position) : Sight.pays ⟨some c, here⟩ = 6 := rfl

/-- The nodes there are after a move, and those that are due then, are at most `bound`, or so many
more as the character pays for that the move takes or fails at. -/
def Move.Affords (sight : Sight) (bound : Nat) : Move → Prop
  | again tree frames => tree.count + dues frames ≤ bound
  | next tree frames => tree.count + dues frames ≤ bound + sight.pays
  | accept tree => tree.count ≤ bound
  | reject tree _ => tree.count ≤ bound + sight.pays

namespace Move

variable {sight : Sight} {bound : Nat} {tree : Tree} {frames : List Frame} {cause : Cause}

@[simp] theorem affords_again :
    (again tree frames).Affords sight bound ↔ tree.count + dues frames ≤ bound := Iff.rfl

@[simp] theorem affords_next :
    (next tree frames).Affords sight bound ↔ tree.count + dues frames ≤ bound + sight.pays :=
  Iff.rfl

@[simp] theorem affords_accept :
    (accept tree).Affords sight bound ↔ tree.count ≤ bound := Iff.rfl

@[simp] theorem affords_reject :
    (reject tree cause).Affords sight bound ↔ tree.count ≤ bound + sight.pays := Iff.rfl

end Move

variable {bound limit : Nat} {sight : Sight} {tree : Tree} {frames below : List Frame}
  {parent node : NodeId} {c : Char}

/-! ### Components that begin -/

/-- A character that is not expected adds no node. If there is one it has paid for those that were
added on the way to it. -/
theorem affords_unexpected {expected : Expectation} (h : tree.count ≤ bound + sight.pays) :
    (sight.unexpected tree expected).Affords sight bound := by
  unfold Sight.unexpected
  split <;> exact h

/-- A mark that ends with the longest candidate, or without any, fills in a node that was there
before. -/
theorem affords_settleLiteral {best : Option (List Char × Position)} {cause : Cause}
    (h : tree.count + dues below ≤ bound) :
    (settleLiteral tree below node best cause).Affords sight bound := by
  unfold settleLiteral
  split
  · simpa using h
  · simp
    omega

/-- The node of a mark is made where the mark begins, so reading on costs nothing, however long the
mark is. -/
theorem affords_stepLiteral {candidates : List String} {read : List Char}
    {best : Option (List Char × Position)} (h : tree.count + dues below ≤ bound) :
    (stepLiteral sight tree below node candidates read best).Affords sight bound := by
  unfold stepLiteral
  split
  · dsimp only
    split
    · simp [Frame.due]
      omega
    · split
      · simp [Frame.due]
        omega
      · exact affords_settleLiteral h
  · exact affords_settleLiteral h

/-- A mark that begins has not been read, so it cannot end without taking a character. -/
theorem affords_openLiteral {candidates : List String}
    (h : tree.count + 1 + dues frames ≤ bound + sight.pays) :
    (openLiteral sight tree frames parent candidates).Affords sight bound := by
  unfold openLiteral stepLiteral settleLiteral
  split
  · dsimp only
    split
    · simpa [Frame.due] using h
    · split
      · simpa [Frame.due] using h
      · simp
        omega
  · simp
    omega

/-- A run of white space is one node, for which its first character pays. The characters behind it
have their six nodes to spare. -/
theorem affords_openSpace (h : tree.count + 1 + dues frames ≤ bound + sight.pays) :
    (openSpace sight tree frames parent).Affords sight bound := by
  unfold openSpace
  split
  · split
    · simpa [Frame.due] using h
    · simp
      omega
  · simp
    omega

/-- A name is one node as long as no white space stands at its end. That is due only once such a
character was taken. -/
theorem affords_openIdentifier (h : tree.count + 1 + dues frames ≤ bound + sight.pays) :
    (openIdentifier sight tree frames parent c).Affords sight bound := by
  simpa [openIdentifier, Frame.due] using h

/-- Where a name is expected it begins, or the character is refused, which costs no more than the
name would have. -/
theorem affords_expectIdentifier (h : tree.count + 1 + dues frames ≤ bound + sight.pays) :
    (expectIdentifier sight tree frames parent c).Affords sight bound := by
  unfold expectIdentifier
  split
  · exact affords_openIdentifier h
  · exact affords_unexpected (by omega)

/-- The opening mark of a terminal or a special sequence pays for three nodes: the primary, the
mark, and the text that begins behind it. -/
theorem affords_openQuoted {form : Quoted}
    (h : tree.count + 3 + dues frames ≤ bound + sight.pays) :
    (openQuoted sight tree frames parent form).Affords sight bound := by
  refine affords_openLiteral ?_
  simp [Frame.due]
  omega

/-- Where a terminal is expected it begins, or the character is refused, which costs no more than
the terminal would have. -/
theorem affords_expectTerminal (h : tree.count + 3 + dues frames ≤ bound + sight.pays) :
    (expectTerminal sight tree frames parent c).Affords sight bound := by
  unfold expectTerminal
  split
  · exact affords_openQuoted h
  · exact affords_unexpected (by omega)

/-- The first character of a comment pays for two nodes, the comment and its opener. The text of the
comment is paid for by its own characters. -/
theorem affords_openComment (h : tree.count + 2 + dues frames ≤ bound + sight.pays) :
    (openComment limit sight tree frames parent).Affords sight bound := by
  unfold openComment
  split
  · simp
    omega
  · refine affords_openLiteral ?_
    simp [Frame.due]
    omega

/-- The opener of a bracket is the most expensive mark: seven nodes, which are the bracket, its
opener, and the five that are due behind an opener. -/
theorem affords_openBracket {b : Bracket}
    (h : tree.count + 7 + dues frames ≤ bound + sight.pays) :
    (openBracket limit sight tree frames parent b).Affords sight bound := by
  unfold openBracket
  split
  · simp
    omega
  · refine affords_openLiteral ?_
    simp [Frame.due]
    omega

/-- A bracket is the primary that needs most: itself, its opener, and all that an empty list of
definitions holds. -/
theorem affords_openPrimary (h : tree.count + 7 + dues frames ≤ bound + sight.pays) :
    (openPrimary limit sight tree frames parent c).Affords sight bound := by
  unfold openPrimary
  split
  · exact affords_expectIdentifier (by omega)
  split
  · exact affords_expectTerminal (by omega)
  split
  · exact affords_openBracket h
  split
  · exact affords_openBracket h
  split
  · exact affords_openQuoted (by omega)
  split
  · simp [Frame.due]
    omega
  · exact affords_unexpected (by omega)

/-- The first digit of a repetition pays for three nodes: the repetition, its number, and the star
that is due behind the digits. -/
theorem affords_openRepetition (h : tree.count + 3 + dues frames ≤ bound + sight.pays) :
    (openRepetition sight tree frames parent c).Affords sight bound := by
  unfold openRepetition expectNumber
  split
  · simp [Frame.due]
    omega
  · refine affords_unexpected ?_
    simp
    omega

/-- The first letter of a product pays for two nodes, the product and its name. What follows the
name is paid for by the `=`. -/
theorem affords_openProduct (h : tree.count + 2 + dues frames ≤ bound + sight.pays) :
    (openProduct sight tree frames parent c).Affords sight bound := by
  unfold openProduct
  split
  · refine affords_expectIdentifier ?_
    simp [Frame.due]
    omega
  · exact affords_unexpected (by omega)

/-- A bracket whose opener was held back adds no more nodes than were due for the opener, so nothing
is paid for here. -/
theorem affords_attachBracket {b : Bracket} {opener : Span}
    (h : tree.count + 7 + dues frames ≤ bound) :
    (attachBracket limit sight tree frames parent b opener).Affords sight bound := by
  unfold attachBracket
  split
  · simp
    omega
  · simp [Frame.due]
    omega

/-! ### Productions that go on -/

/-- A run grows inside its node or ends, so it makes no further nodes and has none due. -/
theorem affords_stepRun {run : Run} (h : tree.count + dues below ≤ bound) :
    (stepRun sight tree below run node).Affords sight bound := by
  unfold stepRun
  split
  · split
    · simp [Frame.due]
      omega
    · exact h
  · exact h

/-- A character of a comment needs at most one node. -/
theorem count_addText_le {text : Option NodeId} {here : Position} :
    (addText tree node text c here).1.count ≤ tree.count + 1 := by
  unfold addText
  split <;> simp

/-- A character of a comment pays for the text that it begins. Due is only what was held back: the
text of a mark that was none, or a nested comment with its opener. -/
theorem affords_stepComment {text : Option NodeId} {stage : CommentStage}
    (h : tree.count + dues (.comment node text stage :: below) ≤ bound) :
    (stepComment limit sight tree below node text stage).Affords sight bound := by
  obtain ⟨ahead, here⟩ := sight
  cases ahead with
  | none =>
    simp [stepComment] at h ⊢
    omega
  | some c =>
    cases stage with
    | body =>
      have hadd : (addText tree node text c here).1.count ≤ tree.count + 1 := count_addText_le
      simp only [stepComment]
      split
      all_goals
        simp [Frame.due] at h ⊢
        omega
    | mark first start =>
      have hadd : (addText tree node text first start).1.count ≤ tree.count + 1 :=
        count_addText_le
      simp only [stepComment]
      split
      · simp [Frame.due] at h ⊢
        omega
      split
      all_goals
        simp [Frame.due] at h ⊢
        omega
    | opened opener =>
      simp only [stepComment]
      split
      all_goals
        simp [Frame.due] at h ⊢
        omega

/-- At the end of a name at most one node is added, for the white space that was held back, and this
one is due. -/
theorem affords_stepIdentifier {trailing : Option Span}
    (h : tree.count + dues (.identifier node parent trailing :: below) ≤ bound) :
    (stepIdentifier sight tree below node parent trailing).Affords sight bound := by
  obtain ⟨ahead, here⟩ := sight
  -- the name goes on, or it ends with or without white space
  cases ahead <;> cases trailing <;> simp only [stepIdentifier]
  all_goals
    repeat' split
    all_goals
      simp [Frame.due] at h ⊢
      omega

/-- The text between two marks gets its node before its first character, where it is due. The
closing mark pays for its own node. -/
theorem affords_stepQuoted {form : Quoted} {text : Option NodeId}
    (h : tree.count + dues (.quoted form node text :: below) ≤ bound) :
    (stepQuoted sight tree below form node text).Affords sight bound := by
  obtain ⟨ahead, here⟩ := sight
  cases text with
  | none =>
    simp [stepQuoted, Frame.due] at h ⊢
    omega
  | some run =>
    cases ahead with
    | none =>
      simp [stepQuoted] at h ⊢
      omega
    | some c =>
      simp only [stepQuoted]
      split
      · refine affords_openLiteral ?_
        simp [Frame.due] at h ⊢
        omega
      · simp [Frame.due] at h ⊢
        omega

/-- Whatever a parenthesis turns out to open, the seven nodes of a bracket are due for it. -/
theorem affords_stepParen {start : Position}
    (h : tree.count + dues (.paren parent start :: below) ≤ bound) :
    (stepParen limit sight tree below parent start).Affords sight bound := by
  simp only [dues_cons, Frame.due] at h
  unfold stepParen
  split
  · simp
    omega
  split
  · simp [Frame.due]
    omega
  split
  · simp [Frame.due]
    omega
  · exact affords_attachBracket (by omega)

/-- Behind its opener a bracket has a list with a definition, a term and an empty string due, and
the closer at last. -/
theorem affords_stepBracket {b : Bracket} {stage : BracketStage}
    (h : tree.count + dues (.bracket b node stage :: below) ≤ bound) :
    (stepBracket sight tree below b node stage).Affords sight bound := by
  cases stage with
  | opened opening =>
    simp only [dues_cons, Frame.due] at h
    obtain ⟨ahead, here⟩ := sight
    cases ahead with
    | none =>
      simp [stepBracket, Frame.due]
      omega
    | some c =>
      simp only [stepBracket]
      split
      · refine affords_openSpace ?_
        simp [Frame.due]
        omega
      · simp [Frame.due]
        omega
  | body closer =>
    simp only [dues_cons, Frame.due] at h
    cases closer with
    | none =>
      refine affords_openLiteral ?_
      simp [Frame.due]
      omega
    | some closer =>
      simp only [stepBracket]
      split
      all_goals
        simp
        omega

/-! ### Terms -/

/-- A term that has no primary gets an empty string, which was due as long as it had none. -/
theorem affords_endTerm {parts : TermParts}
    (h : tree.count + dues (.term node parts false :: below) ≤ bound) :
    (endTerm sight tree below node parts).Affords sight bound := by
  unfold endTerm
  split
  all_goals
    rename_i hprimary
    simp [Frame.due, hprimary, addEmptyString] at h ⊢
    omega

/-- A component that begins in a term is paid for by its first character, and the empty string is no
longer due once there is a primary. -/
theorem affords_stepTerm {parts : TermParts} {dash : Bool}
    (h : tree.count + dues (.term node parts dash :: below) ≤ bound) :
    (stepTerm limit sight tree below node parts dash).Affords sight bound := by
  unfold stepTerm
  cases dash with
  | true =>
    simp [Frame.due] at h ⊢
    omega
  | false =>
    simp only [Bool.false_eq_true, if_false]
    obtain ⟨ahead, here⟩ := sight
    cases ahead with
    | none => exact affords_endTerm h
    | some c =>
      have hend : (endTerm ⟨some c, here⟩ (tree.withKind node (.term parts)) below node
          parts).Affords ⟨some c, here⟩ bound := affords_endTerm h
      dsimp only
      split
      · refine affords_openSpace ?_
        simp [Frame.due] at h ⊢
        omega
      split
      · split
        · simp at h ⊢
          omega
        · refine affords_openRepetition ?_
          simp [Frame.due] at h ⊢
          omega
      split
      · split
        · simp at h ⊢
          omega
        · refine affords_openLiteral ?_
          simp [Frame.due] at h ⊢
          omega
      split
      · split
        · simp at h ⊢
          omega
        · rename_i hprimary
          refine affords_openPrimary ?_
          simp [Frame.due, hprimary] at h ⊢
          omega
      · exact hend

/-- An exception that has no primary gets an empty string, which was due as long as it had none. -/
theorem affords_endException {term : NodeId} {primary : Option NodeId}
    (h : tree.count + dues (.exception node term primary :: below) ≤ bound) :
    (endException sight tree below node primary).Affords sight bound := by
  unfold endException
  split
  all_goals
    simp [Frame.due, addEmptyString] at h ⊢
    omega

/-- The primary of an exception is paid for by its first character, and then no empty string is due
any more. -/
theorem affords_stepException {term : NodeId} {primary : Option NodeId}
    (h : tree.count + dues (.exception node term primary :: below) ≤ bound) :
    (stepException limit sight tree below node term primary).Affords sight bound := by
  unfold stepException
  have hend : (endException sight (tree.withKind node (.exception primary)) below node
      primary).Affords sight bound := affords_endException h
  obtain ⟨ahead, here⟩ := sight
  cases ahead with
  | none => exact hend
  | some c =>
    dsimp only
    split
    · refine affords_openSpace ?_
      simp at h ⊢
      omega
    split
    · split
      · simp at h ⊢
        omega
      · refine affords_openPrimary ?_
        simp [Frame.due] at h ⊢
        omega
    · exact hend

/-- Behind the digits only the star is added, with white space in front of it that pays for
itself. -/
theorem affords_stepRepetition (h : tree.count + dues (.repetition node :: below) ≤ bound) :
    (stepRepetition sight tree below node).Affords sight bound := by
  obtain ⟨ahead, here⟩ := sight
  cases ahead with
  | none =>
    simp only [stepRepetition, Option.any_none, Bool.false_eq_true, if_false]
    refine affords_openLiteral ?_
    simp [Frame.due] at h ⊢
    omega
  | some c =>
    unfold stepRepetition
    split
    · refine affords_openSpace ?_
      simp at h ⊢
      omega
    · refine affords_openLiteral ?_
      simp [Frame.due] at h ⊢
      omega

/-! ### Definitions and products -/

/-- A missing term costs what is due for it. -/
theorem count_addMissingTerm (tree : Tree) (node : NodeId) (start : Position) (term : Option NodeId)
    (here : Position) :
    (addMissingTerm tree node term here).count =
      tree.count + (Frame.definition node start term).due := by
  cases term <;> rfl

/-- A definition without a term has two nodes due, an empty term and its string. With a term it has
none, and a comma pays for the next two. -/
theorem affords_stepDefinition {start : Position} {term : Option NodeId}
    (h : tree.count + dues (.definition node start term :: below) ≤ bound) :
    (stepDefinition sight tree below node start term).Affords sight bound := by
  have hmissing := count_addMissingTerm tree node start term sight.here
  simp only [dues_cons] at h
  unfold stepDefinition
  obtain ⟨ahead, here⟩ := sight
  cases ahead with
  | none =>
    simp
    omega
  | some c =>
    dsimp only at hmissing ⊢
    split
    · refine affords_openSpace ?_
      simp
      omega
    split
    · split
      · simp
        omega
      · simp [Frame.due] at h ⊢
        omega
    split
    · refine affords_openLiteral ?_
      rw [hmissing, dues_cons, pays_some, show (Frame.definition node start none).due = 2 from rfl]
      omega
    · rw [Move.affords_again, Tree.count_withLast, hmissing]
      omega

/-- A list pays for a definition before each one begins; a separator pays for itself and the
definition behind it, also if it was a held back slash. -/
theorem affords_stepDefinitions {stage : ListStage}
    (h : tree.count + dues (.definitions node stage :: below) ≤ bound) :
    (stepDefinitions sight tree below node stage).Affords sight bound := by
  obtain ⟨ahead, here⟩ := sight
  cases stage with
  | start =>
    simp only [dues_cons, Frame.due] at h
    cases ahead with
    | none =>
      simp [stepDefinitions, Frame.due]
      omega
    | some c =>
      simp only [stepDefinitions]
      split
      · refine affords_openSpace ?_
        simp [Frame.due]
        omega
      · simp [Frame.due]
        omega
  | afterDefinition =>
    simp only [dues_cons, Frame.due] at h
    cases ahead with
    | none =>
      simp [stepDefinitions]
      omega
    | some c =>
      simp only [stepDefinitions]
      split
      · simp [Frame.due]
        omega
      split
      · refine affords_openLiteral ?_
        simp [Frame.due]
        omega
      · simp
        omega
  | afterSlash slash =>
    simp only [dues_cons, Frame.due] at h
    cases ahead with
    | none =>
      simp [stepDefinitions]
      omega
    | some c =>
      simp only [stepDefinitions]
      split
      · simp
        omega
      · simp [Frame.due]
        omega

/-- The `=` of a product pays for itself and for all that its definitions have due, and the mark at
its end is due as long as they are open. -/
theorem affords_stepProduct {lhs : NodeId} {stage : ProductStage}
    (h : tree.count + dues (.product node lhs stage :: below) ≤ bound) :
    (stepProduct sight tree below node lhs stage).Affords sight bound := by
  obtain ⟨ahead, here⟩ := sight
  cases stage with
  | name =>
    simp only [dues_cons, Frame.due] at h
    simp only [stepProduct]
    split
    · rename_i hequals
      cases hequals
      refine affords_openLiteral ?_
      simp [Frame.due]
      omega
    · refine affords_unexpected ?_
      simp
      omega
  | equals =>
    simp only [dues_cons, Frame.due] at h
    cases ahead with
    | none =>
      simp [stepProduct, Frame.due]
      omega
    | some c =>
      simp only [stepProduct]
      split
      · refine affords_openSpace ?_
        simp [Frame.due]
        omega
      · simp [Frame.due]
        omega
  | body list closer =>
    simp only [dues_cons, Frame.due] at h
    cases closer with
    | some closer =>
      simp [stepProduct]
      omega
    | none =>
      refine affords_openLiteral ?_
      simp [Frame.due]
      omega

/-- Between the items of the whole text nothing is due, so each item is paid for by its first
character. -/
theorem affords_stepGrammar {begun : Bool}
    (h : tree.count + dues (.grammar begun :: below) ≤ bound) :
    (stepGrammar limit sight tree below begun).Affords sight bound := by
  simp only [dues_cons, Frame.due] at h
  obtain ⟨ahead, here⟩ := sight
  unfold stepGrammar
  cases ahead with
  | none =>
    split
    all_goals
      simp
      omega
  | some c =>
    cases begun with
    | true =>
      dsimp only
      simp only [if_true]
      split
      · refine affords_openComment ?_
        simp [Frame.due]
        omega
      split
      · refine affords_openProduct ?_
        simp [Frame.due]
        omega
      split
      · refine affords_openSpace ?_
        simp [Frame.due]
        omega
      · refine affords_unexpected ?_
        simp
        omega
    | false =>
      simp [Frame.due]
      omega

/-! ### Runs -/

/-- **Each character pays for six nodes.** A step that leaves the character makes no more nodes than
are due. -/
theorem affords_step (limit : Nat) (h : tree.count + dues frames ≤ bound) :
    (step limit sight tree frames).Affords sight bound := by
  cases frames with
  | nil => exact h
  | cons frame below =>
    cases frame with
    | grammar => exact affords_stepGrammar h
    | comment => exact affords_stepComment h
    | product => exact affords_stepProduct h
    | definitions => exact affords_stepDefinitions h
    | definition => exact affords_stepDefinition h
    | term => exact affords_stepTerm h
    | exception => exact affords_stepException h
    | repetition => exact affords_stepRepetition h
    | paren => exact affords_stepParen h
    | opener =>
      simp only [dues_cons, Frame.due] at h
      exact affords_attachBracket (by omega)
    | bracket => exact affords_stepBracket h
    | quoted => exact affords_stepQuoted h
    | identifier => exact affords_stepIdentifier h
    | run => exact affords_stepRun (by simpa [Frame.due] using h)
    | literal => exact affords_stepLiteral (by simpa [Frame.due] using h)
    | matched => simpa [step, stepMatched, Frame.due] using h
    | closing => simpa [step, stepClosing, Frame.due] using h

/-- What all steps for one character leave is within the bound and what the character pays for. -/
def Outcome.Affords (bound : Nat) : Outcome → Prop
  | waiting tree frames => tree.count + dues frames ≤ bound
  | accepted tree => tree.count ≤ bound
  | rejected tree _ => tree.count ≤ bound

/-- All steps for one character keep within what it pays for, since only the last one of them takes
it. -/
theorem affords_settle (limit : Nat) (sight : Sight) (h : tree.count + dues frames ≤ bound) :
    (settle limit sight tree frames).Affords (bound + sight.pays) := by
  refine settle_induction (P := fun tree frames => tree.count + dues frames ≤ bound)
    (fun tree frames h => ?_) h
  have hmove : (step limit sight tree frames).Affords sight bound := affords_step limit h
  cases hstep : step limit sight tree frames with
  | again tree' frames' | next tree' frames' | reject tree' cause =>
    rw [hstep] at hmove
    exact hmove
  | accept tree' =>
    rw [hstep] at hmove
    exact Nat.le_add_right_of_le hmove

/-- A run on a text makes at most six nodes for each character, besides those that are due. -/
theorem count_runText_le (limit : Nat) (config : Config) (text : List Char) :
    (handedOut (runText limit config text)).count ≤
      config.tree.count + dues config.frames + 6 * text.length := by
  induction text generalizing config with
  | nil =>
    have hsettle := affords_settle limit ⟨none, config.position⟩
      (Nat.le_refl (config.tree.count + dues config.frames))
    rw [runText_nil, finish]
    split
    · rename_i hwaiting
      exact (settle_atEnd_ne_waiting _ _ _ _ _ _ hwaiting).elim
    all_goals
      rename_i houtcome
      rw [houtcome] at hsettle
      exact hsettle
  | cons c text ih =>
    have hsettle := affords_settle limit ⟨some c, config.position.after c⟩
      (Nat.le_refl (config.tree.count + dues config.frames))
    rw [runText_cons, List.length_cons]
    split
    · rename_i tree frames hwaiting
      rw [hwaiting] at hsettle
      have hrest := ih ⟨tree, frames, config.position.after c⟩
      simp only [Outcome.Affords, pays_some] at hsettle hrest
      omega
    all_goals
      rename_i houtcome
      rw [houtcome] at hsettle
      simp only [Outcome.Affords, pays_some] at hsettle
      simp only [handedOut]
      omega

/-- **Size.** The tree of a text has at most six nodes for each character, and one for the root. It
does not matter whether the text is accepted, and how deep it may be nested. -/
theorem count_parseText_le (text : String) (maxNesting : Nat) :
    (handedOut (parseText text maxNesting)).count ≤ 6 * text.length + 1 := by
  have hrun := count_runText_le maxNesting .initial text.toList
  rw [← parseText_eq, show Config.initial.tree.count = 1 from rfl,
    show dues Config.initial.frames = 0 from rfl, String.length_toList] at hrun
  omega

end LosslessEbnf
