import LosslessEbnf.Proofs.Completion
import LosslessEbnf.Proofs.Termination

/-!
# The causes that occur

Some failures that the machine provides for never occur: every production that expects a character
of a class is begun only in front of such a character, and a term ends only where the definition
around it cannot go on with another term.

## Main Definitions

* `Cause.Listed` — the causes that can occur
* `Tidy` — what the productions of a stack know of each other
* `Move.Tidies` — a move that keeps this, and fails only for a listed cause

## Main Statements

* `tidies_step` — every step keeps the stack tidy
* `listed_of_parse` — every failure of a reading has a listed cause

## Design Notes

A definition remembers the term that no comma has ended yet. While it does so, it is either under
that term or on top, and then the term has just ended in front of a character that ends terms. That
is all the stacks have to say: it is a property of neighbours, which needs neither the tree nor the
text.
-/

namespace LosslessEbnf

/-- The marks that are looked for without a look at the next character. -/
def Marks.missable : List (List String) :=
  [["(*"], ["*"], ["\x7d"], ["]", ":)"], [")"], [";", "."]]

/-- The causes that can occur. -/
def Cause.Listed : Cause → Prop
  | missingSpace _ | undelimitedTerm .. => False
  | unexpectedCharacter _ expected => expected = .item ∨ expected = .equalsSign
  | noLiteral candidates _ => candidates ∈ Marks.missable
  | _ => True

/-! ### Tidy stacks -/

namespace Frame

/-- Whether the production is a term. -/
def isTerm : Frame → Bool
  | term .. => true
  | _ => false

/-- Whether the production is a definition with a term that no comma has ended yet. -/
def holdsTerm : Frame → Bool
  | definition _ _ (some _) => true
  | _ => false

/-- A mark of which some characters were read may be missing. An exception stands on the term that
it names, and the term knows the exception. -/
def Apt (below : List Frame) : Frame → Prop
  | literal _ candidates _ _ => candidates ∈ Marks.missable
  | exception node host _ =>
    ∃ parts rest, below = term host parts false :: rest ∧ parts.exception = some node
  | _ => True

end Frame

/-- Whether the production on top is a definition with a term that no comma has ended yet. -/
def topHoldsTerm : List Frame → Bool
  | [] => false
  | frame :: _ => frame.holdsTerm

/-- Whether `c` belongs to a term or begins another one. -/
def continuesTerm (c : Char) : Bool := isSpace c || (isDigit c || beginsPrimary c)

/-- The whole text is at the bottom, and only a term stands on a definition that holds a term. -/
def Tidy : List Frame → Prop
  | [] => False
  | .grammar _ :: below => below = []
  | frame :: below =>
    frame.Apt below ∧ (frame.isTerm = false → topHoldsTerm below = false) ∧ Tidy below

/-- The stack stays tidy, and a definition that holds a term comes to the top only where no term can
go on. The text is complete only at the end of the input, and there is a failure only for a listed
cause. -/
def Move.Tidies (ahead : Option Char) : Move → Prop
  | again _ frames =>
    Tidy frames ∧ (topHoldsTerm frames = true → ahead.any continuesTerm = false)
  | next _ frames => Tidy frames ∧ topHoldsTerm frames = false
  | accept _ => ahead = none
  | reject _ cause => cause.Listed

variable {limit : Nat} {sight : Sight} {tree : Tree} {frames below : List Frame}
  {node parent : NodeId} {ahead : Option Char} {c : Char}

/-- A step that leaves the character keeps the stack tidy if it does not uncover a definition that
holds a term. -/
theorem Move.Tidies.again (h : Tidy frames) (htop : topHoldsTerm frames = false) :
    (Move.again tree frames).Tidies ahead :=
  ⟨h, fun htrue => by rw [htop] at htrue; cases htrue⟩

/-! ### Components that begin -/

/-- A character is unexpected only between two items or in place of an equals sign. -/
theorem tidies_unexpected {expected : Expectation} (h : expected = .item ∨ expected = .equalsSign) :
    (sight.unexpected tree expected).Tidies ahead := by
  unfold Sight.unexpected
  split
  · exact h
  · trivial

/-- A mark that fails names the candidates it looked for, and these are among the lists of marks
that can be missing. -/
theorem tidies_stepLiteral {candidates : List String} {read : List Char}
    {best : Option (List Char × Position)} (hmissable : candidates ∈ Marks.missable)
    (h : Tidy below) (htop : topHoldsTerm below = false) :
    (stepLiteral sight tree below node candidates read best).Tidies ahead := by
  have hsettle : ∀ cause : Cause, cause.Listed →
      (settleLiteral tree below node best cause).Tidies ahead := by
    intro cause hcause
    cases best with
    | none => exact hcause
    | some best => exact .again h htop
  unfold stepLiteral
  split
  · dsimp only
    split
    · exact ⟨⟨hmissable, fun _ => htop, h⟩, rfl⟩
    · split
      · exact ⟨⟨trivial, fun _ => htop, h⟩, rfl⟩
      · exact hsettle _ hmissable
  · refine hsettle _ ?_
    split
    · exact hmissable
    · trivial

/-- A mark may begin wherever its candidates are among those that can be missing. -/
theorem tidies_openLiteral {candidates : List String} (hmissable : candidates ∈ Marks.missable)
    (h : Tidy frames) (htop : topHoldsTerm frames = false) :
    (openLiteral sight tree frames parent candidates).Tidies ahead :=
  tidies_stepLiteral hmissable h htop

/-- A mark of one character that stands ahead is read with that character, so it does not fail. -/
theorem openLiteral_of_ahead {candidates : List String} {mark : String}
    (hc : sight.ahead = some c) (hplain : Marks.Plain candidates) (hmark : mark ∈ candidates)
    (hread : mark.toList = [c]) :
    openLiteral sight tree frames parent candidates =
      .next (tree.pushChild parent .literal (.point sight.here))
        (.matched tree.size [c] sight.here :: frames) := by
  have hfull : candidates.any (isRead ([] ++ [c])) = true :=
    List.any_eq_true.mpr ⟨mark, hmark, beq_iff_eq.mpr hread⟩
  have hends : ¬candidates.any (goesOn ([] ++ [c])) = true :=
    ne_true_of_eq_false (hread ▸ hplain.not_goesOn hmark)
  unfold openLiteral stepLiteral
  rw [hc]
  dsimp only
  rw [if_neg hends, if_pos hfull]
  rfl

/-- A mark cannot fail if one of its candidates is just the next character: it is read in full with
that character, and no candidate goes on behind it. -/
theorem tidies_openLiteral_of_ahead {candidates : List String} {mark : String}
    (hc : sight.ahead = some c) (hplain : Marks.Plain candidates) (hmark : mark ∈ candidates)
    (hread : mark.toList = [c]) (h : Tidy frames) (htop : topHoldsTerm frames = false) :
    (openLiteral sight tree frames parent candidates).Tidies ahead := by
  rw [openLiteral_of_ahead hc hplain hmark hread]
  exact ⟨⟨trivial, fun _ => htop, h⟩, rfl⟩

/-- A mark of a single character, the next one, cannot fail. -/
theorem tidies_openMark {mark : String} (hc : sight.ahead = some c) (hread : mark.toList = [c])
    (h : Tidy frames) (htop : topHoldsTerm frames = false) :
    (openLiteral sight tree frames parent [mark]).Tidies ahead := by
  obtain rfl : mark = String.singleton c :=
    String.toList_inj.mp (hread.trans (String.toList_singleton c).symm)
  exact tidies_openLiteral_of_ahead hc (Marks.plain_singleton c) List.mem_cons_self hread h htop

/-- White space is only opened in front of white space, so it is never missing. -/
theorem tidies_openSpace (hspace : sight.ahead.any isSpace = true) (h : Tidy frames)
    (htop : topHoldsTerm frames = false) :
    (openSpace sight tree frames parent).Tidies ahead := by
  unfold openSpace
  split
  · rename_i c hc
    rw [hc, Option.any_some] at hspace
    rw [if_pos hspace]
    exact ⟨⟨trivial, fun _ => htop, h⟩, rfl⟩
  · rename_i hc
    rw [hc] at hspace
    cases hspace

/-- A name is only opened with a letter that was seen. -/
theorem tidies_openIdentifier (h : Tidy frames) (htop : topHoldsTerm frames = false) :
    (openIdentifier sight tree frames parent c).Tidies ahead :=
  ⟨⟨trivial, fun _ => htop, h⟩, rfl⟩

/-- A comment is opened in front of its parenthesis, but the star behind it can be missing. -/
theorem tidies_openComment (h : Tidy frames) (htop : topHoldsTerm frames = false) :
    (openComment limit sight tree frames parent).Tidies ahead := by
  unfold openComment
  split
  · trivial
  · exact tidies_openLiteral List.mem_cons_self ⟨trivial, fun _ => htop, h⟩ rfl

/-- A quoted text is opened in front of its quote, so the opening one is never missing. -/
theorem tidies_openQuoted (form : Quoted) (hc : sight.ahead = some form.mark) (h : Tidy frames)
    (htop : topHoldsTerm frames = false) :
    (openQuoted sight tree frames parent form).Tidies ahead :=
  tidies_openMark hc (String.toList_singleton _) ⟨trivial, fun _ => htop, h⟩ rfl

/-- A bracket that begins with a brace or a square bracket is opened in front of that character, so
its opener is never missing. -/
theorem tidies_openBracket {b : Bracket} (mark : String) (hc : sight.ahead = some c)
    (hmark : mark ∈ b.openers) (hread : mark.toList = [c]) (h : Tidy frames)
    (htop : topHoldsTerm frames = false) :
    (openBracket limit sight tree frames parent b).Tidies ahead := by
  unfold openBracket
  split
  · trivial
  · exact tidies_openLiteral_of_ahead hc b.plain_openers hmark hread
      ⟨trivial, fun _ => htop, h⟩ rfl

/-- A bracket whose opener was read before puts nothing but itself on the stack. -/
theorem tidies_attachBracket {b : Bracket} {opener : Span} (h : Tidy frames)
    (htop : topHoldsTerm frames = false) :
    (attachBracket limit sight tree frames parent b opener).Tidies ahead := by
  unfold attachBracket
  split
  · trivial
  · exact .again ⟨trivial, fun _ => htop, h⟩ rfl

/-- Where a primary begins, one of its forms does, so no primary is refused for the character it
begins with. -/
theorem tidies_openPrimary (hc : sight.ahead = some c) (hbegins : beginsPrimary c = true)
    (h : Tidy frames) (htop : topHoldsTerm frames = false) :
    (openPrimary limit sight tree frames parent c).Tidies ahead := by
  unfold openPrimary
  split
  · rw [expectIdentifier_of_isLetter ‹_›]
    exact tidies_openIdentifier h htop
  rename_i hletter
  split
  · rw [expectTerminal_of_isQuote ‹_›]
    exact tidies_openQuoted (.terminal c) hc h htop
  rename_i hquote
  split
  · subst c
    exact tidies_openBracket "\x7b" hc List.mem_cons_self (by decide) h htop
  rename_i hbrace
  split
  · subst c
    exact tidies_openBracket "[" hc (List.mem_of_elem_eq_true rfl) (by decide) h htop
  rename_i hbracket
  split
  · subst c
    exact tidies_openQuoted .special hc h htop
  rename_i hmark
  split
  · exact ⟨⟨trivial, fun _ => htop, h⟩, rfl⟩
  rename_i hparen
  -- the symbols that are left are the quotes
  exfalso
  rw [beginsPrimary, eq_false_of_ne_true hletter, Bool.false_or, List.contains_iff_mem] at hbegins
  simp only [Marks.primaryStarts, List.mem_cons, List.not_mem_nil, or_false, hparen, hbracket,
    hbrace, hmark, false_or] at hbegins
  rcases hbegins with rfl | rfl | rfl <;> exact hquote (by decide)

/-! ### Productions -/

/-- White space and numbers stand on productions that hold no finished term, so these may come to
the top again. -/
theorem tidies_stepRun {run : Run} (h : Tidy (.run run node :: below)) :
    (stepRun sight tree below run node).Tidies ahead := by
  have htop := h.2.1 rfl
  unfold stepRun
  split
  · split
    · exact ⟨h, rfl⟩
    · exact .again h.2.2 htop
  · exact .again h.2.2 htop

/-- A comment fails at the end of the input or at the limit, and both are listed causes. -/
theorem tidies_stepComment {text : Option NodeId} {stage : CommentStage}
    (h : Tidy (.comment node text stage :: below)) :
    (stepComment limit sight tree below node text stage).Tidies ahead := by
  have htop := h.2.1 rfl
  have hcomment : ∀ text stage, Tidy (.comment node text stage :: below) :=
    fun _ _ => ⟨trivial, fun _ => htop, h.2.2⟩
  unfold stepComment
  split
  · trivial
  cases stage with
  | body =>
    dsimp only
    split
    · exact ⟨hcomment _ _, rfl⟩
    · exact ⟨hcomment _ _, rfl⟩
  | mark first start =>
    dsimp only
    split
    · exact ⟨h.2.2, htop⟩
    split
    · exact ⟨hcomment _ _, rfl⟩
    · exact .again (hcomment _ _) rfl
  | opened opener =>
    dsimp only
    split
    · trivial
    · exact .again ⟨trivial, fun _ => rfl, hcomment _ _⟩ rfl

/-- A name fails nowhere: it ends in front of what does not belong to it. -/
theorem tidies_stepIdentifier {trailing : Option Span}
    (h : Tidy (.identifier node parent trailing :: below)) :
    (stepIdentifier sight tree below node parent trailing).Tidies ahead := by
  have htop := h.2.1 rfl
  have hname : ∀ trailing, Tidy (.identifier node parent trailing :: below) :=
    fun _ => ⟨trivial, fun _ => htop, h.2.2⟩
  unfold stepIdentifier
  dsimp only
  split
  · split
    · split <;> exact ⟨hname _, rfl⟩
    · split <;> exact .again h.2.2 htop
  · split <;> exact .again h.2.2 htop

/-- A quoted text fails at the end of the input. Its closing quote is opened in front of that quote,
so it is never missing. -/
theorem tidies_stepQuoted {form : Quoted} {text : Option NodeId}
    (h : Tidy (.quoted form node text :: below)) :
    (stepQuoted sight tree below form node text).Tidies ahead := by
  have htop := h.2.1 rfl
  unfold stepQuoted
  split
  · exact .again ⟨trivial, fun _ => htop, h.2.2⟩ rfl
  split
  · trivial
  rename_i c hc
  split
  · subst c
    exact tidies_openMark hc (String.toList_singleton _) ⟨trivial, fun _ => htop, h.2.2⟩ rfl
  · exact ⟨h, rfl⟩

/-- A parenthesis fails at the end of the input or at the limit, and otherwise a bracket comes in
its place. -/
theorem tidies_stepParen {start : Position} (h : Tidy (.paren parent start :: below)) :
    (stepParen limit sight tree below parent start).Tidies ahead := by
  have htop := h.2.1 rfl
  unfold stepParen
  split
  · trivial
  split
  · exact ⟨⟨trivial, fun _ => htop, h.2.2⟩, rfl⟩
  split
  · exact ⟨⟨trivial, fun _ => htop, h.2.2⟩, rfl⟩
  · exact tidies_attachBracket h.2.2 htop

/-- A bracket may stand in front of anything that ends its list, so that every closer can be
missing. -/
theorem Bracket.closers_missable (b : Bracket) : b.closers ∈ Marks.missable := by
  cases b <;> exact List.mem_of_elem_eq_true rfl

/-- A bracket looks for its closer without a look at the next character. The closer that is handed
over may be the wrong one, which is a listed cause, too. -/
theorem tidies_stepBracket {b : Bracket} {stage : BracketStage}
    (h : Tidy (.bracket b node stage :: below)) :
    (stepBracket sight tree below b node stage).Tidies ahead := by
  have htop := h.2.1 rfl
  unfold stepBracket
  split
  · dsimp only
    split
    · exact tidies_openSpace ‹_› h rfl
    · exact .again ⟨trivial, fun _ => rfl, trivial, fun _ => htop, h.2.2⟩ rfl
  · exact tidies_openLiteral b.closers_missable ⟨trivial, fun _ => htop, h.2.2⟩ rfl
  · split
    · exact .again h.2.2 htop
    · trivial

/-- A term that ends uncovers the definition that holds it, in front of a character that begins no
other term. -/
theorem tidies_endTerm {parts : TermParts} (h : Tidy below)
    (hends : ahead.any continuesTerm = false) :
    (endTerm sight tree below node parts).Tidies ahead := by
  unfold endTerm
  split <;> exact ⟨h, fun _ => hends⟩

/-- A term ends where no term can go on, so the definition around it finds a comma, its own end or
the end of the input. -/
theorem tidies_stepTerm {parts : TermParts} {dash : Bool}
    (h : Tidy (.term node parts dash :: below)) :
    (stepTerm limit sight tree below node parts dash).Tidies sight.ahead := by
  have hterm : ∀ parts dash, Tidy (.term node parts dash :: below) :=
    fun _ _ => ⟨trivial, nofun, h.2.2⟩
  unfold stepTerm
  dsimp only
  split
  · exact .again ⟨⟨_, _, rfl, rfl⟩, fun _ => rfl, hterm _ _⟩ rfl
  split
  · rename_i hc
    exact tidies_endTerm h.2.2 (by rw [hc]; rfl)
  rename_i c hc
  split
  · exact tidies_openSpace (by rw [hc]; assumption) (hterm _ _) rfl
  rename_i hspace
  split
  · split
    · trivial
    · rw [openRepetition_of_isDigit ‹_›]
      exact ⟨⟨trivial, fun _ => rfl, trivial, fun _ => rfl, hterm _ _⟩, rfl⟩
  rename_i hdigit
  split
  · subst c
    split
    · trivial
    · exact tidies_openMark hc (by decide) (hterm _ _) rfl
  split
  · split
    · trivial
    · exact tidies_openPrimary hc ‹_› (hterm _ _) rfl
  · rename_i hbegins
    refine tidies_endTerm h.2.2 ?_
    rw [hc, Option.any_some, continuesTerm, eq_false_of_ne_true hspace, eq_false_of_ne_true hdigit,
      eq_false_of_ne_true hbegins]
    rfl

/-- An exception that ends uncovers its term, which is no definition. -/
theorem tidies_endException {primary : Option NodeId} (h : Tidy below)
    (htop : topHoldsTerm below = false) :
    (endException sight tree below node primary).Tidies ahead := by
  unfold endException
  split <;> exact .again h htop

/-- An exception goes on with white space or a primary that begins with the next character, and it
refuses a second primary by way of a listed cause. -/
theorem tidies_stepException {term : NodeId} {primary : Option NodeId}
    (h : Tidy (.exception node term primary :: below)) :
    (stepException limit sight tree below node term primary).Tidies ahead := by
  have htop := h.2.1 rfl
  unfold stepException
  dsimp only
  split
  · exact tidies_endException h.2.2 htop
  rename_i c hc
  split
  · exact tidies_openSpace (by rw [hc]; assumption) h rfl
  split
  · split
    · trivial
    · exact tidies_openPrimary hc ‹_› ⟨h.1, fun _ => htop, h.2.2⟩ rfl
  · exact tidies_endException h.2.2 htop

/-- A repetition looks for its star without a look at the next character, so the star can be
missing. -/
theorem tidies_stepRepetition (h : Tidy (.repetition node :: below)) :
    (stepRepetition sight tree below node).Tidies ahead := by
  unfold stepRepetition
  split
  · exact tidies_openSpace ‹_› h rfl
  · exact tidies_openLiteral (List.mem_of_elem_eq_true rfl) ⟨trivial, h.2.1, h.2.2⟩ rfl

/-- A term that has not been ended by a comma is followed by none, because the definition comes to
the top only where no term can go on. -/
theorem tidies_stepDefinition {start : Position} {term : Option NodeId}
    (h : Tidy (.definition node start term :: below))
    (hends : term.isSome = true → sight.ahead.any continuesTerm = false) :
    (stepDefinition sight tree below node start term).Tidies ahead := by
  have htop := h.2.1 rfl
  unfold stepDefinition
  split
  · trivial
  rename_i c hc
  rw [hc] at hends
  split
  · rename_i hspace
    cases term with
    | none => exact tidies_openSpace (by rw [hc]; exact hspace) h rfl
    | some previous =>
      have hnone := hends rfl
      rw [Option.any_some, continuesTerm, hspace] at hnone
      cases hnone
  split
  · rename_i hbegins
    cases term with
    | none => exact .again ⟨trivial, nofun, trivial, fun _ => htop, h.2.2⟩ rfl
    | some previous =>
      have hnone := hends rfl
      rw [Option.any_some, continuesTerm, hbegins, Bool.or_true] at hnone
      cases hnone
  split
  · subst c
    exact tidies_openMark hc (by decide) ⟨trivial, fun _ => htop, h.2.2⟩ rfl
  · exact .again h.2.2 htop

/-- The production that gets the closer is no definition before and after. -/
theorem tidies_handOver {closer : Span} (h : Tidy below) (htop : topHoldsTerm below = false) :
    (Move.next tree (handOver closer below)).Tidies ahead := by
  unfold handOver
  split
  · exact ⟨h, rfl⟩
  · exact ⟨h, rfl⟩
  · exact ⟨h, htop⟩

/-- A list looks for a separator only in front of one. It opens a definition that holds no term
yet. -/
theorem tidies_stepDefinitions {stage : ListStage} (h : Tidy (.definitions node stage :: below)) :
    (stepDefinitions sight tree below node stage).Tidies ahead := by
  have htop := h.2.1 rfl
  have hlist : ∀ stage, Tidy (.definitions node stage :: below) :=
    fun _ => ⟨trivial, fun _ => htop, h.2.2⟩
  unfold stepDefinitions
  split
  · split
    · exact tidies_openSpace ‹_› h rfl
    · exact .again ⟨trivial, fun _ => rfl, hlist _⟩ rfl
  · dsimp only
    split
    · exact .again h.2.2 htop
    rename_i c hc
    split
    · exact ⟨hlist _, rfl⟩
    split
    · rename_i hseparates
      obtain ⟨mark, hmark, hbegins⟩ := List.any_eq_true.mp hseparates
      obtain ⟨first, hread, -⟩ := Marks.exists_of_mem_separators hmark
      rw [beginsWith, hread, beq_iff_eq] at hbegins
      obtain rfl := Option.some.inj hbegins
      exact tidies_openLiteral_of_ahead hc Marks.plain_separators hmark hread (hlist _) rfl
    · exact .again h.2.2 htop
  · split
    · trivial
    split
    · exact tidies_handOver h.2.2 htop
    · exact .again (hlist _) rfl

/-- A product looks for its equals sign only in front of one, and it reports the missing one as a
character that is unexpected. What ends it can be missing. -/
theorem tidies_stepProduct {lhs : NodeId} {stage : ProductStage}
    (h : Tidy (.product node lhs stage :: below)) :
    (stepProduct sight tree below node lhs stage).Tidies ahead := by
  have htop := h.2.1 rfl
  have hproduct : ∀ stage, Tidy (.product node lhs stage :: below) :=
    fun _ => ⟨trivial, fun _ => htop, h.2.2⟩
  unfold stepProduct
  split
  · dsimp only
    split
    · exact tidies_openMark ‹_› (by decide) (hproduct _) rfl
    · exact tidies_unexpected (Or.inr rfl)
  · split
    · exact tidies_openSpace ‹_› h rfl
    · exact .again ⟨trivial, fun _ => rfl, hproduct _⟩ rfl
  · dsimp only
    split
    · trivial
    · exact tidies_openLiteral (List.mem_of_elem_eq_true rfl) ⟨trivial, fun _ => htop, h.2.2⟩ rfl

/-- A text is accepted only at the end of the input, and between two items all that is refused is an
unexpected character. -/
theorem tidies_stepGrammar {begun : Bool} (h : Tidy (.grammar begun :: below)) :
    (stepGrammar limit sight tree below begun).Tidies sight.ahead := by
  have hgrammar : Tidy (.grammar true :: below) := h
  unfold stepGrammar
  split
  · split
    · assumption
    rename_i c hc
    dsimp only
    split
    · exact tidies_openComment hgrammar rfl
    split
    · rw [openProduct_of_isLetter ‹_›]
      exact tidies_openIdentifier ⟨trivial, fun _ => rfl, hgrammar⟩ rfl
    split
    · exact tidies_openSpace (by rw [hc]; assumption) hgrammar rfl
    · exact tidies_unexpected (Or.inl rfl)
  · split
    · assumption
    · exact .again hgrammar rfl

/-- **Step lemma.** Every step keeps the stack tidy, and fails only for a listed cause. The stack
says what the production on top needs to know of the one below. -/
theorem tidies_step (h : Tidy frames)
    (hends : topHoldsTerm frames = true → sight.ahead.any continuesTerm = false) :
    (step limit sight tree frames).Tidies sight.ahead := by
  cases frames with
  | nil => exact h.elim
  | cons frame below =>
    cases frame with
    | grammar begun => exact tidies_stepGrammar h
    | comment node text stage => exact tidies_stepComment h
    | product node lhs stage => exact tidies_stepProduct h
    | definitions node stage => exact tidies_stepDefinitions h
    | definition node start term =>
      refine tidies_stepDefinition h fun hsome => hends ?_
      cases term with
      | none => cases hsome
      | some term => rfl
    | term node parts dash => exact tidies_stepTerm h
    | exception node term primary => exact tidies_stepException h
    | repetition node => exact tidies_stepRepetition h
    | paren parent start => exact tidies_stepParen h
    | opener b parent span => exact tidies_attachBracket h.2.2 (h.2.1 rfl)
    | bracket b node stage => exact tidies_stepBracket h
    | quoted form node text => exact tidies_stepQuoted h
    | identifier node parent trailing => exact tidies_stepIdentifier h
    | run run node => exact tidies_stepRun h
    | literal node candidates read best => exact tidies_stepLiteral h.1 h.2.2 (h.2.1 rfl)
    | matched node text last => exact .again h.2.2 (h.2.1 rfl)
    | closing node => exact .again h.2.2 (h.2.1 rfl)

/-! ### Runs -/

/-- The stack stays tidy over all steps for one character. -/
def Outcome.Tidies : Outcome → Prop
  | waiting _ frames => Tidy frames ∧ topHoldsTerm frames = false
  | accepted _ => True
  | rejected _ cause => cause.Listed

/-- The steps for one character keep the stack tidy, so they fail only for a listed cause. -/
theorem tidies_settle (h : Tidy frames)
    (hends : topHoldsTerm frames = true → sight.ahead.any continuesTerm = false) :
    (settle limit sight tree frames).Tidies := by
  refine settle_induction (P := fun _ frames => Tidy frames ∧
    (topHoldsTerm frames = true → sight.ahead.any continuesTerm = false)) ?_ ⟨h, hends⟩
  rintro tree frames ⟨h, hends⟩
  have htidies : (step limit sight tree frames).Tidies sight.ahead := tidies_step h hends
  cases hstep : step limit sight tree frames with
  | accept tree' => trivial
  | again tree' frames' | next tree' frames' | reject tree' cause =>
    rw [hstep] at htidies
    exact htidies

namespace Phase

variable {σ : Type} {phase : Phase σ}

/-- The stack is tidy at any time of a run, and a run that failed did so for a listed cause. -/
def Tidied : Phase σ → Prop
  | asking config _ => Tidy config.frames ∧ topHoldsTerm config.frames = false
  | stepping sight _ frames _ =>
    Tidy frames ∧ (topHoldsTerm frames = true → sight.ahead.any continuesTerm = false)
  | finished (.ok _) _ => True
  | finished (.error error) _ => error.cause.Listed

/-- At first there is only the text on the stack. -/
theorem tidied_start (source : σ) : (start source).Tidied := ⟨rfl, rfl⟩

/-- A reply changes no stack, and a step keeps it tidy. -/
theorem Tidied.tick (h : phase.Tidied) (read : Nat → σ → Except Fault String × σ)
    (limit : Nat) : (phase.tick read limit).Tidied := by
  cases phase with
  | asking config source =>
    rw [Phase.tick]
    cases read 1 source with
    | mk reply rest =>
      cases reply with
      | error fault => trivial
      | ok text => exact ⟨h.1, fun htop => absurd htop (ne_true_of_eq_false h.2)⟩
  | stepping sight tree frames source =>
    have hstep : (step limit sight tree frames).Tidies sight.ahead := tidies_step h.1 h.2
    rw [Phase.tick]
    generalize step limit sight tree frames = move at hstep ⊢
    cases move with
    | again tree' frames' => exact hstep
    | next tree' frames' =>
      rw [ofMove]
      split
      · exact hstep
      · trivial
    | accept tree' => trivial
    | reject tree' cause => exact hstep
  | finished result source => exact h

/-- **Run lemma.** The stack stays tidy however long a run goes on. -/
theorem Tidied.run (h : phase.Tidied) (read : Nat → σ → Except Fault String × σ)
    (limit fuel : Nat) : (phase.run read limit fuel).Tidied := by
  induction fuel generalizing phase with
  | zero => exact h
  | succ fuel ih => exact ih (h.tick read limit)

end Phase

/-- **Completeness of the list of causes.** On every source, even on one that never ends, and with
every limit a failure has one of the listed causes: white space is never missing, no term follows
another one without a comma, and characters and marks are expected in vain only in certain places.
-/
theorem listed_of_parse :
    (∀ (σ : Type) [Source σ] (source : σ) (maxNesting : Nat) (error : ParseError),
      parse source maxNesting = .error error → error.cause.Listed) ∧
    ∀ (σ : Type) (read : Nat → σ → Except Fault String × σ) (source rest : σ)
      (maxNesting fuel : Nat) (error : ParseError),
      (Phase.start source).run read maxNesting fuel = .finished (.error error) rest →
        error.cause.Listed := by
  have hrun : ∀ (σ : Type) (read : Nat → σ → Except Fault String × σ) (source rest : σ)
      (maxNesting fuel : Nat) (error : ParseError),
      (Phase.start source).run read maxNesting fuel = .finished (.error error) rest →
        error.cause.Listed := by
    intro σ read source rest maxNesting fuel error h
    have htidied := (Phase.tidied_start source).run read maxNesting fuel
    rwa [h] at htidied
  refine ⟨fun σ _ source maxNesting error h => ?_, hrun⟩
  obtain ⟨pieces, -, hyields⟩ := exists_yields source
  have hfinished := Phase.run_eq_parseFrom hyields maxNesting
  rw [show (parseFrom source maxNesting).1 = .error error from h] at hfinished
  exact hrun σ Source.read source _ maxNesting _ error hfinished

/-- A source whose replies hold several characters, and one that never ends. -/
theorem listed_of_parse_missing_mark :
    (∃ error, parse (Script.mk [.ok "x=", .ok "=", .ok "a", .ok ");"]) 2 = .error error ∧
      error.cause = .noLiteral [";", "."] ")" ∧ error.cause.Listed) ∧
    ∃ error, (Phase.start ()).run (fun _ _ => (.ok "(", ())) 2 6 = .finished (.error error) () ∧
      error.cause = .noLiteral ["(*"] "((" ∧ error.cause.Listed := by
  constructor
  · obtain ⟨error, herror, hcause⟩ := exists_error_of_failure?
      (show failure? (parse (Script.mk [.ok "x=", .ok "=", .ok "a", .ok ");"]) 2) =
        some (.noLiteral [";", "."] ")") by with_unfolding_all decide)
    exact ⟨error, herror, hcause, listed_of_parse.1 _ _ _ _ herror⟩
  · obtain ⟨result, hrun, hfailure⟩ : ∃ result,
        (Phase.start ()).run (fun _ _ => (.ok "(", ())) 2 6 = .finished result () ∧
          failure? result = some (.noLiteral ["(*"] "((") :=
      ⟨_, rfl, by with_unfolding_all decide⟩
    obtain ⟨error, rfl, hcause⟩ := exists_error_of_failure? hfailure
    exact ⟨error, hrun, hcause, listed_of_parse.2 _ _ _ _ _ _ _ hrun⟩

end LosslessEbnf
