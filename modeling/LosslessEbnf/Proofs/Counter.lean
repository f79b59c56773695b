import LosslessEbnf.Proofs.Classes
import LosslessEbnf.Proofs.Levels
import LosslessEbnf.Proofs.Limits

/-!
# Counting the nesting

The nesting can be counted while a text is read: one up where a comment or a bracket is let in, and
one down where it ends. Here such a counter is kept along a run, and it is what the machine compares
with the limit.

## Main Definitions

* `count?` — the counter after a step, unless it would leave its range
* `countSettle`, `countRun`, `countText` — the counter along a run
* `Counted` — the steps of a run, each with the counter that the steps before it have left
* `Gauges` — the counter is what a step goes by

## Main Statements

* `passes_step` — the counter is the tally of the open productions
* `nesting_eq_tally` — where a step lets something in, the machine sees what was counted
* `exists_countText` — the counter keeps between zero and the limit, and is back at zero where a
  text is read
* `Counted.gauges` — at every step of a run the limit is compared with the counter

## Design Notes

A comment ends with the last character of its closer, but a bracket only after its closer. So the
counter goes down when the production that read the closer ends.
-/

namespace LosslessEbnf

/-- The counter afterwards. It has no value below zero. -/
def Passage.turn? : Passage → Nat → Option Nat
  | enter, count => some (count + 1)
  | leave, 0 => none
  | leave, count + 1 => some count
  | stay, count => some count

/-- The counter after a step, unless it would fall below zero or rise above the limit. -/
def count? (limit : Nat) (sight : Sight) (tree : Tree) (frames : List Frame) (count : Nat) :
    Option Nat :=
  ((passage sight tree frames).turn? count).filter (· ≤ limit)

/-- The counter after all steps for one character. -/
def countSettle (limit : Nat) (sight : Sight) (tree : Tree) (frames : List Frame) (count : Nat) :
    Option Nat :=
  match _h : step limit sight tree frames with
  | .again tree' frames' =>
    (count? limit sight tree frames count).bind (countSettle limit sight tree' frames')
  | .next _ _ | .accept _ => count? limit sight tree frames count
  | .reject _ _ => some count
termination_by weight frames
decreasing_by exact weight_lt_of_step _h

/-- The counter after a run on a text. -/
def countRun (limit : Nat) (config : Config) (count : Nat) : List Char → Option Nat
  | [] => countSettle limit ⟨none, config.position⟩ config.tree config.frames count
  | c :: text =>
    let here := config.position.after c
    match countSettle limit ⟨some c, here⟩ config.tree config.frames count,
        settle limit ⟨some c, here⟩ config.tree config.frames with
    | some count, .waiting tree frames => countRun limit ⟨tree, frames, here⟩ count text
    | count?, _ => count?

/-- The counter after a text was read, or after the reading failed. -/
def countText (text : String) (limit : Nat) : Option Nat :=
  countRun limit .initial 0 text.toList

/-! ### What the counter stands for -/

/-- The move leaves as many open comments and brackets as are counted; a text is only accepted where
none are. -/
def Move.Passes (count? : Option Nat) : Move → Prop
  | again tree frames | next tree frames => count? = some (tally tree frames)
  | accept _ => count? = some 0
  | reject _ _ => True

namespace Move

variable {count? : Option Nat} {tree : Tree} {frames : List Frame} {cause : Cause}

@[simp] theorem passes_again :
    (again tree frames).Passes count? ↔ count? = some (tally tree frames) := Iff.rfl

@[simp] theorem passes_next :
    (next tree frames).Passes count? ↔ count? = some (tally tree frames) := Iff.rfl

@[simp] theorem passes_reject : (reject tree cause).Passes count? := trivial

end Move

section

variable {limit count : Nat} {sight : Sight} {tree : Tree} {frames below : List Frame}
  {node parent : NodeId} {c : Char}

/-- What a node holds does not matter, only its kind does. -/
theorem tally_congr {tree' : Tree} (h : ∀ id, tree'.kind id = tree.kind id) (frames : List Frame) :
    tally tree' frames = tally tree frames := by
  refine List.countP_congr fun frame _ => ?_
  cases frame with
  | closing node => rw [Frame.counts, Frame.counts, h]
  | _ => rfl

theorem kind_withLast {id other : NodeId} {last : Position} :
    (tree.withLast id last).kind other = tree.kind other :=
  Tree.kind_update fun _ => rfl

/-- The tally asks a tree for the kinds of its nodes only, and where a node ends has nothing to do
with them. -/
theorem tally_withLast {id : NodeId} {last : Position} :
    tally (tree.withLast id last) frames = tally tree frames :=
  tally_congr (fun _ => kind_withLast) frames

theorem kind_withData {id other : NodeId} {data : String} :
    (tree.withData id data).kind other = tree.kind other :=
  Tree.kind_update fun _ => rfl

/-- The tally does not ask what a node holds. -/
theorem tally_withData {id : NodeId} {data : String} :
    tally (tree.withData id data) frames = tally tree frames :=
  tally_congr (fun _ => kind_withData) frames

/-! ### Components that begin -/

/-- What the machine refuses leaves no stack to be counted. -/
theorem passes_unexpected {count? : Option Nat} (expected : Expectation) :
    (sight.unexpected tree expected).Passes count? := by
  unfold Sight.unexpected
  split <;> trivial

/-- A mark is neither a comment nor a bracket, so the counter is that of the productions below,
whether the mark goes on or ends. -/
theorem passes_stepLiteral (h : tally tree below = count) (candidates : List String)
    (read : List Char) (best : Option (List Char × Position)) :
    (stepLiteral sight tree below node candidates read best).Passes (some count) := by
  subst h
  unfold stepLiteral settleLiteral
  dsimp only
  repeat' split
  all_goals simp [tally_cons, tally_withLast, tally_withData, Frame.counts, Frame.nests]

/-- A mark begins, and what waits for it counts as it did. -/
theorem passes_openLiteral
    (h : tally (tree.pushChild parent .literal (.point sight.here)) frames = count)
    (candidates : List String) :
    (openLiteral sight tree frames parent candidates).Passes (some count) :=
  passes_stepLiteral h ..

/-- White space comes on top of the stack, or the character is refused, and nothing is let in. -/
theorem passes_openSpace (h : ∀ tree, tally tree frames = count) :
    (openSpace sight tree frames parent).Passes (some count) := by
  unfold openSpace
  repeat' split
  all_goals simp [tally_cons, Frame.counts, Frame.nests, h]

/-- A name comes on top of the stack and counts for nothing. -/
theorem passes_openIdentifier (h : ∀ tree, tally tree frames = count) :
    (openIdentifier sight tree frames parent c).Passes (some count) := by
  simp [openIdentifier, tally_cons, Frame.counts, Frame.nests, h]

/-- A quoted text and its quote come on top of the stack, and neither counts. -/
theorem passes_openQuoted (h : ∀ tree, tally tree frames = count) (form : Quoted) :
    (openQuoted sight tree frames parent form).Passes (some count) := by
  refine passes_openLiteral ?_ _
  rw [tally_cons, h]
  rfl

/-- A comment that is let in counts from now on, while its opening mark is still read. -/
theorem passes_openComment (h : ∀ tree, tally tree frames = count) :
    (openComment limit sight tree frames parent).Passes (some (count + 1)) := by
  unfold openComment
  split
  · trivial
  · refine passes_openLiteral ?_ _
    rw [tally_cons, h]
    rfl

/-- A bracket that is let in counts from now on, while its opener is still read. -/
theorem passes_openBracket (h : ∀ tree, tally tree frames = count) (b : Bracket) :
    (openBracket limit sight tree frames parent b).Passes (some (count + 1)) := by
  unfold openBracket
  split
  · trivial
  · refine passes_openLiteral ?_ _
    rw [tally_cons, h]
    rfl

/-- A bracket counts from the character behind its parenthesis on, since it was not known to be one
before. -/
theorem passes_attachBracket (h : ∀ tree, tally tree frames = count) (b : Bracket)
    (opener : Span) :
    (attachBracket limit sight tree frames parent b opener).Passes (some (count + 1)) := by
  unfold attachBracket
  split
  · trivial
  · simp [tally_cons, Frame.counts, Frame.nests, h]

/-- The first character tells whether a primary goes one up: it does for a brace and a square
bracket, but not yet for a parenthesis. -/
theorem passes_openPrimary (h : ∀ tree, tally tree frames = count) :
    (openPrimary limit sight tree frames parent c).Passes
      ((if opensBracket c then Passage.enter else .stay).turn? count) := by
  by_cases hopens : opensBracket c = true
  · rw [if_pos hopens]
    rcases mem_of_opensBracket hopens with rfl | rfl
    · exact passes_openBracket h .repeated
    · exact passes_openBracket h .optional
  · rw [if_neg hopens]
    unfold openPrimary
    split
    · rw [expectIdentifier_of_isLetter ‹_›]
      exact passes_openIdentifier h
    split
    · rw [expectTerminal_of_isQuote ‹_›]
      exact passes_openQuoted h _
    split
    · rename_i hbrace
      exact absurd (by rw [hbrace]; rfl) hopens
    split
    · rename_i hbracket
      exact absurd (by rw [hbracket]; rfl) hopens
    split
    · exact passes_openQuoted h .special
    split
    · simp [tally_cons, Frame.counts, Frame.nests, h, Passage.turn?]
    · exact passes_unexpected _

/-! ### Productions -/

/-- A comment goes one down with the last character of its closing mark, and one up with the opening
mark of a comment in it. It counts itself all the while. -/
theorem passes_stepComment (h : ∀ tree, tally tree below = count) (text : Option NodeId)
    (stage : CommentStage) :
    (stepComment limit sight tree below node text stage).Passes
      ((passage sight tree (.comment node text stage :: below)).turn? (count + 1)) := by
  unfold stepComment
  cases hahead : sight.ahead with
  | none => trivial
  | some c =>
    cases stage with
    | body =>
      dsimp only
      split <;> simp [passage, Passage.turn?, tally_cons, Frame.counts, Frame.nests, h]
    | mark first start =>
      dsimp only
      split
      · rename_i hmark
        simp [passage, hahead, hmark, Passage.turn?, h]
      · rename_i hmark
        simp only [passage, hahead, Option.some.injEq, hmark, if_false]
        split <;> simp [Passage.turn?, tally_cons, Frame.counts, Frame.nests, h]
    | opened opener =>
      dsimp only
      split <;> simp [passage, Passage.turn?, tally_cons, Frame.counts, Frame.nests, h]

/-- A character that opens a bracket belongs to no class, so one that belongs to a class opens
none. -/
theorem opensBracket_eq_false (h : isSpace c = true ∨ isDigit c = true) :
    opensBracket c = false := by
  rw [Bool.eq_false_iff]
  intro hopens
  have hmark : c ∈ Marks.chars := by
    rcases mem_of_opensBracket hopens with rfl | rfl <;> decide
  rw [Marks.isSpace_eq_false hmark, Marks.isDigit_eq_false hmark] at h
  rcases h with h | h <;> cases h

/-- What opens a bracket begins a primary. -/
theorem opensBracket_eq_false_of_not_beginsPrimary (h : ¬beginsPrimary c = true) :
    opensBracket c = false := by
  rw [Bool.eq_false_iff]
  intro hopens
  refine h (Marks.beginsPrimary_of_mem ?_)
  rcases mem_of_opensBracket hopens with rfl | rfl <;> decide

/-- A term lets something in only with its primary. The other components, the repetition and the
dash, leave the counter as it is. -/
theorem passes_stepTerm (h : ∀ tree, tally tree below = count) (parts : TermParts) (dash : Bool) :
    (stepTerm limit sight tree below node parts dash).Passes
      ((passage sight tree (.term node parts dash :: below)).turn? count) := by
  have hended : ∀ tree, (endTerm sight tree below node parts).Passes (some count) := by
    intro tree
    unfold endTerm
    split <;> simp [h]
  have hterm : ∀ parts tree, tally tree (.term node parts false :: below) = count := by
    intro parts tree
    rw [tally_cons, h]
    rfl
  unfold stepTerm
  cases dash with
  | true => simp [passage, Passage.turn?, tally_cons, Frame.counts, Frame.nests, h]
  | false =>
    simp only [Bool.false_eq_true, if_false, passage]
    cases hahead : sight.ahead with
    | none => exact hended _
    | some c =>
      change Move.Passes ((if opensBracket c then Passage.enter else .stay).turn? count)
        (if isSpace c = true then _ else _)
      by_cases hspace : isSpace c = true
      · rw [if_pos hspace, opensBracket_eq_false (Or.inl hspace)]
        exact passes_openSpace (hterm parts)
      rw [if_neg hspace]
      by_cases hdigit : isDigit c = true
      · rw [if_pos hdigit, opensBracket_eq_false (Or.inr hdigit)]
        cases parts.repetition with
        | some held => trivial
        | none =>
          dsimp only
          rw [openRepetition_of_isDigit hdigit]
          simp [Passage.turn?, tally_cons, Frame.counts, Frame.nests, h]
      rw [if_neg hdigit]
      by_cases hdash : c = '-'
      · subst hdash
        rw [if_pos rfl]
        cases parts.exception with
        | some held => trivial
        | none => exact passes_openLiteral (by rw [tally_cons, h]; rfl) _
      rw [if_neg hdash]
      by_cases hprimary : beginsPrimary c = true
      · rw [if_pos hprimary]
        cases hparts : parts.primary with
        | some held => trivial
        | none => exact passes_openPrimary (hterm _)
      · rw [if_neg hprimary, opensBracket_eq_false_of_not_beginsPrimary hprimary]
        exact hended _

/-- An exception lets something in only with its primary, when that begins with the opener of a
bracket. -/
theorem passes_stepException (h : ∀ tree, tally tree below = count) (term : NodeId)
    (primary : Option NodeId) :
    (stepException limit sight tree below node term primary).Passes
      ((passage sight tree (.exception node term primary :: below)).turn? count) := by
  have hended : ∀ tree, (endException sight tree below node primary).Passes (some count) := by
    intro tree
    unfold endException
    split <;> simp [h]
  have hexception : ∀ primary tree, tally tree (.exception node term primary :: below) = count := by
    intro primary tree
    rw [tally_cons, h]
    rfl
  unfold stepException
  simp only [passage]
  cases hahead : sight.ahead with
  | none => exact hended _
  | some c =>
    change Move.Passes ((if opensBracket c then Passage.enter else .stay).turn? count)
        (if isSpace c = true then _ else _)
    by_cases hspace : isSpace c = true
    · rw [if_pos hspace, opensBracket_eq_false (Or.inl hspace)]
      exact passes_openSpace (hexception primary)
    rw [if_neg hspace]
    by_cases hprimary : beginsPrimary c = true
    · rw [if_pos hprimary]
      cases primary with
      | some held => trivial
      | none => exact passes_openPrimary (hexception _)
    · rw [if_neg hprimary, opensBracket_eq_false_of_not_beginsPrimary hprimary]
      exact hended _

/-- A parenthesis lets in a bracket unless a slash or a colon follows. With these it is a longer
opener, which lets in its bracket at the next step. -/
theorem passes_stepParen (h : ∀ tree, tally tree below = count) (start : Position) :
    (stepParen limit sight tree below parent start).Passes
      ((passage sight tree (.paren parent start :: below)).turn? count) := by
  unfold stepParen passage
  cases sight.ahead with
  | none => trivial
  | some c =>
    dsimp only
    by_cases hslash : c = '/'
    · simp [hslash, Passage.turn?, tally_cons, Frame.counts, Frame.nests, h]
    rw [if_neg hslash]
    by_cases hcolon : c = ':'
    · simp [hcolon, Passage.turn?, tally_cons, Frame.counts, Frame.nests, h]
    rw [if_neg hcolon]
    simp only [Option.some.injEq, hslash, hcolon, or_self, if_false]
    exact passes_attachBracket h ..

/-- What ends with a mark counts while the mark is read if its node does. -/
theorem passes_openLiteral_closing (sight : Sight) (tree : Tree)
    (h : ∀ tree, tally tree below = count) (hnode : node < tree.size) (candidates : List String) :
    (openLiteral sight tree (.closing node :: below) node candidates).Passes
      (some (count + (tree.kind node).nests.toNat)) := by
  refine passes_openLiteral ?_ _
  rw [tally_cons, h, Frame.counts, Tree.kind_pushChild_of_ne (Nat.ne_of_lt hnode)]

/-- A bracket counts until it ends. With a closer of its own that is when the production which read
the closer ends, and with one that is handed over, at once. -/
theorem passes_stepBracket (h : ∀ tree, tally tree below = count) (hnode : node < tree.size)
    (hkind : (tree.kind node).nests = true) (b : Bracket) (stage : BracketStage) :
    (stepBracket sight tree below b node stage).Passes
      ((passage sight tree (.bracket b node stage :: below)).turn? (count + 1)) := by
  have hbracket : ∀ stage tree, tally tree (.bracket b node stage :: below) = count + 1 := by
    intro stage tree
    rw [tally_cons, h]
    rfl
  match stage with
  | .opened opening =>
    show Move.Passes _ (if sight.ahead.any isSpace then _ else _ : Move)
    split
    · exact passes_openSpace (hbracket _)
    · simp [passage, Passage.turn?, tally_cons, Frame.counts, Frame.nests, h]
  | .body none =>
    have hclosing := passes_openLiteral_closing sight tree h hnode b.closers
    rw [hkind] at hclosing
    exact hclosing
  | .body (some closer) =>
    show Move.Passes _ (if b = .repeated then _ else _ : Move)
    split
    · rename_i hb
      simp [passage, hb, Passage.turn?, h]
    · trivial

/-- A quoted text ends like a bracket, with the production that read its quote. But its node is of
another kind, so that the counter stays. -/
theorem passes_stepQuoted (h : ∀ tree, tally tree below = count) (hnode : node < tree.size)
    (hkind : (tree.kind node).nests = false) (form : Quoted) (text : Option NodeId) :
    (stepQuoted sight tree below form node text).Passes (some count) := by
  unfold stepQuoted
  split
  · simp [tally_cons, Frame.counts, Frame.nests, h]
  · rename_i run
    split
    · trivial
    split
    · have hkind' : ((tree.withLast run sight.here.left).kind node).nests = false := by
        rw [kind_withLast, hkind]
      have hclosing := passes_openLiteral_closing sight
        (tree.withLast run sight.here.left) h (by rwa [Tree.withLast, Tree.size_update])
        [String.singleton form.mark]
      rw [hkind'] at hclosing
      exact hclosing
    · simp [tally_cons, Frame.counts, Frame.nests, h]

/-- A repetition ends like a bracket, with the production that read its star, and it counts for
nothing. -/
theorem passes_stepRepetition (h : ∀ tree, tally tree below = count) (hnode : node < tree.size)
    (hkind : (tree.kind node).nests = false) :
    (stepRepetition sight tree below node).Passes (some count) := by
  unfold stepRepetition
  split
  · refine passes_openSpace fun tree => ?_
    rw [tally_cons, h]
    rfl
  · have hclosing := passes_openLiteral_closing sight tree h hnode ["*"]
    rw [hkind] at hclosing
    exact hclosing

/-- A definition opens and ends terms, and none of them counts. -/
theorem passes_stepDefinition (h : ∀ tree, tally tree below = count) (start : Position)
    (term : Option NodeId) :
    (stepDefinition sight tree below node start term).Passes (some count) := by
  have hdefinition : ∀ term tree, tally tree (.definition node start term :: below) = count := by
    intro term tree
    rw [tally_cons, h]
    rfl
  unfold stepDefinition
  split
  · trivial
  split
  · exact passes_openSpace (hdefinition term)
  split
  · split
    · trivial
    · simp [tally_cons, Frame.counts, Frame.nests, h]
  split
  · exact passes_openLiteral (hdefinition none _) _
  · simp [h]

/-- A closer that is handed over does not count. -/
theorem tally_handOver (closer : Span) :
    tally tree (handOver closer frames) = tally tree frames := by
  unfold handOver
  split <;> simp [tally_cons, Frame.counts, Frame.nests]

/-- A list opens and ends definitions. A closer that it hands over does not end the bracket yet, so
the counter stays. -/
theorem passes_stepDefinitions (h : ∀ tree, tally tree below = count) (stage : ListStage) :
    (stepDefinitions sight tree below node stage).Passes (some count) := by
  have hlist : ∀ stage tree, tally tree (.definitions node stage :: below) = count := by
    intro stage tree
    rw [tally_cons, h]
    rfl
  cases stage with
  | start =>
    show Move.Passes _ (if sight.ahead.any isSpace then _ else _ : Move)
    split
    · exact passes_openSpace (hlist .start)
    · simp [tally_cons, Frame.counts, Frame.nests, h]
  | afterDefinition =>
    unfold stepDefinitions
    dsimp only
    split
    · simp [h]
    split
    · simp [hlist]
    split
    · exact passes_openLiteral (hlist .start _) _
    · simp [h]
  | afterSlash slash =>
    unfold stepDefinitions
    dsimp only
    split
    · trivial
    split
    · simp [tally_handOver, h]
    · simp [hlist]

/-- A product ends like a bracket, with the production that read its last mark, and it counts for
nothing. -/
theorem passes_stepProduct (h : ∀ tree, tally tree below = count) (hnode : node < tree.size)
    (hkind : (tree.kind node).nests = false) (lhs : NodeId) (stage : ProductStage) :
    (stepProduct sight tree below node lhs stage).Passes (some count) := by
  have hproduct : ∀ stage tree, tally tree (.product node lhs stage :: below) = count := by
    intro stage tree
    rw [tally_cons, h]
    rfl
  match stage with
  | .name =>
    show Move.Passes _ (if sight.ahead = some '=' then _ else _ : Move)
    split
    · exact passes_openLiteral (hproduct .equals _) _
    · exact passes_unexpected _
  | .equals =>
    show Move.Passes _ (if sight.ahead.any isSpace then _ else _ : Move)
    split
    · exact passes_openSpace (hproduct .equals)
    · simp [tally_cons, Frame.counts, Frame.nests, h]
  | .body list none =>
    have hextends : tree.Extends (tree.withKind node (.product (some lhs) (some list))) :=
      (Tree.Extends.refl tree).withKind hkind
    have hclosing := passes_openLiteral_closing sight _ h
      (Nat.lt_of_lt_of_le hnode hextends.size_le) Marks.terminators
    rw [hextends.nests_eq node hnode, hkind] at hclosing
    exact hclosing
  | .body list (some closer) => trivial

/-- Nothing is open between two items, so a comment that begins there takes the counter from zero to
one. -/
theorem passes_stepGrammar (h : ∀ tree, tally tree below = 0) (begun : Bool) :
    (stepGrammar limit sight tree below begun).Passes
      ((passage sight tree (.grammar begun :: below)).turn? 0) := by
  have hgrammar : ∀ tree, tally tree (.grammar true :: below) = 0 := by
    intro tree
    rw [tally_cons, h]
    rfl
  unfold stepGrammar
  cases begun with
  | false =>
    rw [if_neg nofun]
    split
    · rfl
    · simp [passage, Passage.turn?, hgrammar]
  | true =>
    rw [if_pos rfl]
    simp only [passage]
    cases hahead : sight.ahead with
    | none => rfl
    | some c =>
      by_cases hparen : c = '('
      · subst hparen
        exact passes_openComment hgrammar
      · change Move.Passes _ (if c = '(' then _ else _)
        rw [if_neg (fun heq => hparen (Option.some.inj heq)), if_neg hparen]
        split
        · rw [openProduct_of_isLetter ‹_›]
          exact passes_openIdentifier (by simp [tally_cons, Frame.counts, Frame.nests, hgrammar])
        split
        · exact passes_openSpace hgrammar
        · exact passes_unexpected _

/-- A number and white space count for nothing, whether they go on or end. -/
theorem passes_stepRun (h : ∀ tree, tally tree below = count) (run : Run) :
    (stepRun sight tree below run node).Passes (some count) := by
  unfold stepRun
  repeat' split
  all_goals simp [tally_cons, Frame.counts, Frame.nests, h]

/-- A name counts for nothing, and neither does the leaf for the white space at its end. -/
theorem passes_stepIdentifier (h : ∀ tree, tally tree below = count) (trailing : Option Span) :
    (stepIdentifier sight tree below node parent trailing).Passes (some count) := by
  unfold stepIdentifier
  dsimp only
  repeat' split
  all_goals simp [tally_cons, Frame.counts, Frame.nests, h]

/-- What ends behind its last mark goes one down if it is a bracket, and otherwise the counter
stays. The kind of its node tells which. -/
theorem passes_stepClosing (h : ∀ tree, tally tree below = count) :
    (stepClosing tree below node).Passes
      ((passage sight tree (.closing node :: below)).turn?
        (count + (tree.kind node).nests.toNat)) := by
  unfold stepClosing passage
  cases hnests : (tree.kind node).nests <;> simp [Passage.turn?, hnests, h]

/-! ### Texts between marks -/

/-- A production that a text and a mark of a single character end is no comment and no bracket. -/
theorem Kind.Closed.nests_eq_false {kind : Kind} {row : List Child} {text mark : Child} {c : Char}
    (h : kind.Closed (row ++ [text, mark])) (htext : text.kind = .text)
    (hmark : mark.data = String.singleton c) : kind.nests = false := by
  have hrow : row ++ [text, mark] = (row ++ [text]) ++ [mark] := by simp
  cases kind with
  | comment =>
    have hbuilds : Matches (commentRule.take 2 ++ [.one (·.IsMark ["*)"])])
        ((row ++ [text]) ++ [mark]) := hrow ▸ h.builds
    have hcloser := List.mem_singleton.mp hbuilds.unsnoc.2.2
    rw [hmark] at hcloser
    exact absurd (congrArg String.length hcloser) (by rw [String.length_singleton]; decide)
  | primary form =>
    cases form with
    | bracketed b opening =>
      have hbuilds : Matches ((bracketRule b opening).take 3 ++ [.one (·.IsMark b.allClosers)])
          ((row ++ [text]) ++ [mark]) := hrow ▸ h.builds
      have hlist : Matches ((bracketRule b opening).take 2 ++ [.one (·.kind = .definitionList)])
          (row ++ [text]) := hbuilds.unsnoc.1
      rw [hlist.unsnoc.2] at htext
      cases htext
    | _ => rfl
  | _ => rfl

/-! ### The step of the machine -/

/-- A production on top makes a step: what is open is counted. Its node tells whether it counts, and
so does the production. -/
theorem Idle.passes_step {frame : Frame} {top : OpenNode} {outer : Spine}
    (h : Idle sight.ahead tree frame below top outer) (hnested : Nested (frame :: below)) :
    (step limit sight tree (frame :: below)).Passes
      ((passage sight tree (frame :: below)).turn? (tally tree (frame :: below))) := by
  have hin : outer.size < tree.size := h.carries.shows.size_lt
  have hcounts := h.fits.shape.counts_eq h.carries.shows.kind_top
  rw [← h.carries.shows.kind_top] at hcounts
  have hid : ∀ {id}, frame.node? = some id → id = outer.size := h.fits.shape.node_eq
  have hbelow : frame.component ≠ .mark → ∀ tree', tally tree' below = tally tree below := by
    intro hmark tree'
    rw [hnested.tally_below hmark, hnested.tally_below hmark]
  rw [tally_cons]
  cases frame with
  | grammar begun =>
    obtain ⟨hroot, -⟩ := h.fits.shape
    have hempty : below = [] := by
      have hrest := h.rest
      rw [hroot] at hrest
      cases hrest
      rfl
    subst hempty
    exact passes_stepGrammar (fun _ => rfl) begun
  | comment id text stage => exact passes_stepComment (hbelow nofun) text stage
  | product id lhs stage =>
    obtain rfl := hid rfl
    exact passes_stepProduct (hbelow nofun) hin hcounts.symm lhs stage
  | definitions id stage => exact passes_stepDefinitions (hbelow nofun) stage
  | definition id start term => exact passes_stepDefinition (hbelow nofun) start term
  | term id parts dash => exact passes_stepTerm (hbelow nofun) parts dash
  | exception id term primary => exact passes_stepException (hbelow nofun) term primary
  | repetition id =>
    obtain rfl := hid rfl
    exact passes_stepRepetition (hbelow nofun) hin hcounts.symm
  | bracket b id stage =>
    obtain rfl := hid rfl
    exact passes_stepBracket (hbelow nofun) hin hcounts.symm b stage
  | quoted form id text =>
    obtain rfl := hid rfl
    exact passes_stepQuoted (hbelow nofun) hin hcounts.symm form text
  | closing id => exact passes_stepClosing (hbelow nofun)
  | paren | opener | identifier | run | literal | matched => exact h.fits.shape.elim

/-- **Step lemma.** A step leaves as many open comments and brackets as the counter says behind its
passage. -/
theorem passes_step (limit : Nat) (h : Grown sight.ahead tree frames) (hnested : Nested frames) :
    (step limit sight tree frames).Passes
      ((passage sight tree frames).turn? (tally tree frames)) := by
  have hbelow : ∀ {frame below}, Nested (frame :: below) → frame.component ≠ .mark →
      ∀ tree', tally tree' below = tally tree below := by
    intro frame below hnested hmark tree'
    rw [hnested.tally_below hmark, hnested.tally_below hmark]
  cases h with
  | idle h => exact h.passes_step hnested
  | paren => exact passes_stepParen (hbelow hnested nofun) _
  | opener => exact passes_attachBracket (hbelow hnested nofun) ..
  | @quoted form id run below leaf spine fill run_eq top_eq =>
    obtain ⟨node, outer, rfl, rfl⟩ := Spine.exists_of_top? top_eq
    have hshows := fill.carries.shows.close
    refine passes_stepQuoted (hbelow hnested nofun) hshows.size_lt ?_ form (some run)
    rw [hshows.kind_top, OpenNode.label_add]
    cases fill.rest with
    | cons _ _ awaits =>
      have hfits := awaits none _ ⟨"", rfl, nofun⟩
      exact hfits.shape.2.nests_eq_false rfl rfl
  | @run run => exact passes_stepRun (hbelow hnested (by cases run <;> nofun)) run
  | identifier => exact passes_stepIdentifier (hbelow hnested nofun) _
  | literal => exact passes_stepLiteral rfl ..
  | matched =>
    simp [step, stepMatched, passage, Passage.turn?, tally_cons, tally_withLast, tally_withData,
      Frame.counts, Frame.nests]

/-- What lets in a comment or a bracket is no mark and ends nothing. -/
theorem ne_mark_of_enter {frame : Frame} (h : passage sight tree (frame :: below) = .enter) :
    frame.component ≠ .mark ∧ frame.component ≠ .closing := by
  cases frame with
  | literal | matched => cases h
  | closing node =>
    rw [passage] at h
    cases hnests : (tree.kind node).nests <;> rw [hnests] at h <;> cases h
  | run run node =>
    cases run with
    | space | number => cases h
  | _ =>
    clear h
    constructor <;> intro hcomponent <;> cases hcomponent

/-- Where a comment or a bracket is let in, the machine sees what was counted. -/
theorem nesting_eq_tally (h : passage sight tree frames = .enter) (hnested : Nested frames) :
    nesting frames = tally tree frames := by
  cases frames with
  | nil => rfl
  | cons frame below =>
    obtain ⟨hmark, hclosing⟩ := ne_mark_of_enter h
    rw [nesting_cons, tally_cons, hnested.tally_below hmark, Frame.counts_of_ne_closing hclosing]

end

/-! ### Runs -/

/-- The counter after all steps for one character, unrolled by one step. -/
theorem countSettle_eq (limit : Nat) (sight : Sight) (tree : Tree) (frames : List Frame)
    (count : Nat) :
    countSettle limit sight tree frames count =
      match step limit sight tree frames with
      | .again tree' frames' =>
        (count? limit sight tree frames count).bind (countSettle limit sight tree' frames')
      | .next _ _ | .accept _ => count? limit sight tree frames count
      | .reject _ _ => some count := by
  rw [countSettle]
  split <;> simp_all

/-- The outcome leaves as many open comments and brackets as are counted; a text is only accepted
where none are. -/
def Outcome.Counts (count? : Option Nat) : Outcome → Prop
  | waiting tree frames => count? = some (tally tree frames)
  | accepted _ => count? = some 0
  | rejected _ _ => count?.isSome

/-- What is open lies within the limit, because each open comment or bracket is a node around the
innermost one. -/
theorem tally_le {limit : Nat} {sure : Prop} {whole done : List Char} {ahead : Option Char}
    {tree : Tree} {frames : List Frame} (h : Grown ahead tree frames)
    (hstanding : Standing sure whole done tree frames) (hbounded : tree.Bounded limit) :
    tally tree frames ≤ limit := by
  obtain ⟨id, hid, hle⟩ := h.exists_nestingAt hstanding
  exact Nat.le_trans hle (hbounded.nestingAt_le id hid)

/-- A count within the limit is kept. The counter is only given up where it would leave its
range. -/
theorem count?_eq {limit count count' : Nat} {sight : Sight} {tree : Tree} {frames : List Frame}
    (h : (passage sight tree frames).turn? count = some count') (hle : count' ≤ limit) :
    count? limit sight tree frames count = some count' := by
  rw [count?, h, Option.filter_some, if_pos (decide_eq_true hle)]

/-- How the machine stands at a step for the character behind `done`. -/
structure AtStep (limit : Nat) (whole done : List Char) (sight : Sight) (tree : Tree)
    (frames : List Frame) : Prop where
  /-- It sees the character. -/
  reads : sight.Reads done whole
  /-- It stands as it may stand. -/
  standing : Standing False whole done tree frames
  /-- The tree has grown as it may have. -/
  grown : Grown sight.ahead tree frames
  /-- All nodes lie within the limit. -/
  bounded : tree.Bounded limit

/-- In a configuration that is reached the machine sees what is next. -/
theorem Reached.atStep {limit : Nat} {whole : List Char} {config : Config}
    (h : Reached limit whole config) (ahead : Option Char) :
    AtStep limit (whole ++ ahead.toList) whole (config.sight ahead) config.tree config.frames := by
  cases ahead with
  | none =>
    rw [Option.toList_none, List.append_nil]
    exact ⟨h.between.reads_none, h.standing, h.grown none, h.bounded⟩
  | some c =>
    exact ⟨h.between.reads_some c, h.standing.weaken id [c], h.grown (some c), h.bounded⟩

namespace AtStep

variable {limit : Nat} {whole done : List Char} {sight : Sight} {tree : Tree} {frames : List Frame}

/-- The step leaves as many open comments and brackets as are counted, and the counter does not
leave its range, since the nodes of the tree keep within the limit. -/
theorem passes (h : AtStep limit whole done sight tree frames) :
    (step limit sight tree frames).Passes (count? limit sight tree frames (tally tree frames)) := by
  have hkeeps := keeps_step limit h.reads False.elim h.standing
  have hgrows := grows_step limit h.grown
  have hpasses := passes_step limit h.grown h.standing.nested
  have hbounded := (bounded_step h.grown h.bounded).2
  cases hstep : step limit sight tree frames with
  | again tree' frames' =>
    rw [hstep] at hkeeps hgrows hpasses hbounded
    exact count?_eq hpasses (tally_le hgrows hkeeps hbounded)
  | next tree' frames' =>
    rw [hstep] at hkeeps hgrows hpasses hbounded
    exact count?_eq hpasses (tally_le (hgrows none) hkeeps.2 hbounded)
  | accept tree' =>
    rw [hstep] at hpasses
    exact count?_eq hpasses (Nat.zero_le limit)
  | reject tree' cause => trivial

/-- A step that leaves the character is followed by another one. -/
theorem again (h : AtStep limit whole done sight tree frames) {tree' : Tree} {frames' : List Frame}
    (hstep : step limit sight tree frames = .again tree' frames') :
    AtStep limit whole done sight tree' frames' := by
  have hkeeps := keeps_step limit h.reads False.elim h.standing
  have hgrows := grows_step limit h.grown
  have hbounded := (bounded_step h.grown h.bounded).2
  rw [hstep] at hkeeps hgrows hbounded
  exact ⟨h.reads, hkeeps, hgrows, hbounded⟩

/-- A step that takes the character is followed by one that sees what is next, and the machine
stands there as it may. -/
theorem next (h : AtStep limit whole done sight tree frames) {tree' : Tree} {frames' : List Frame}
    (hstep : step limit sight tree frames = .next tree' frames') (ahead : Option Char) :
    AtStep limit (whole ++ ahead.toList) whole ((Config.mk tree' frames' sight.here).sight ahead)
      tree' frames' := by
  have hkeeps := keeps_step limit h.reads False.elim h.standing
  have hgrows := grows_step limit h.grown
  have hbounded := (bounded_step h.grown h.bounded).2
  rw [hstep] at hkeeps hgrows hbounded
  refine ⟨⟨rfl, ?_⟩, hkeeps.2.weaken id _, hgrows _, hbounded⟩
  cases ahead with
  | none =>
    rw [Option.toList_none, List.append_nil]
    exact h.reads.here_eq
  | some c =>
    rw [Position.afterAll_append, ← h.reads.here_eq]
    rfl

/-- All steps for one character leave as many open comments and brackets as are counted, and a text
is accepted with none of them open. -/
theorem counts_settle (h : AtStep limit whole done sight tree frames) :
    (settle limit sight tree frames).Counts
      (countSettle limit sight tree frames (tally tree frames)) := by
  -- a step that leaves the character makes the stack lighter, so the induction is on its weight
  induction hw : weight frames using Nat.strongRecOn generalizing tree frames with
  | ind n ih =>
    have hpasses := h.passes
    rw [settle_eq, countSettle_eq]
    cases hstep : step limit sight tree frames with
    | again tree' frames' =>
      rw [hstep, Move.passes_again] at hpasses
      dsimp only
      rw [hpasses]
      exact ih _ (hw ▸ weight_lt_of_step hstep) (h.again hstep) rfl
    | next tree' frames' | accept tree' =>
      rw [hstep] at hpasses
      exact hpasses
    | reject tree' cause => rfl

end AtStep

/-- **Run lemma.** Behind a text that is accepted the counter is back at zero, and it has never left
its range. The induction is on the text. -/
theorem Reached.exists_countRun {limit : Nat} {whole text : List Char} {config : Config}
    (h : Reached limit whole config) :
    ∃ count, countRun limit config (tally config.tree config.frames) text = some count ∧
      ((runText limit config text).isOk → count = 0) := by
  induction text generalizing whole config with
  | nil =>
    have hcounts := (h.atStep none).counts_settle
    change (settle limit ⟨none, config.position⟩ config.tree config.frames).Counts
      (countSettle limit ⟨none, config.position⟩ config.tree config.frames _) at hcounts
    rw [countRun, runText_nil, finish]
    cases hsettle : settle limit ⟨none, config.position⟩ config.tree config.frames with
    | waiting tree frames => exact (settle_atEnd_ne_waiting _ _ _ _ _ _ hsettle).elim
    | accepted tree =>
      rw [hsettle] at hcounts
      exact ⟨0, hcounts, fun _ => rfl⟩
    | rejected tree cause =>
      rw [hsettle] at hcounts
      obtain ⟨count, hcount⟩ := Option.isSome_iff_exists.mp hcounts
      exact ⟨count, hcount, fun hok => (Bool.false_ne_true hok).elim⟩
  | cons c text ih =>
    have hcounts := (h.atStep (some c)).counts_settle
    change (settle limit ⟨some c, config.position.after c⟩ config.tree config.frames).Counts
      (countSettle limit ⟨some c, config.position.after c⟩ config.tree config.frames _) at hcounts
    rw [countRun, runText_cons]
    cases hsettle : settle limit ⟨some c, config.position.after c⟩ config.tree config.frames with
    | waiting tree frames =>
      rw [hsettle] at hcounts
      dsimp only
      rw [show countSettle .. = _ from hcounts]
      exact ih (.next h hsettle)
    | accepted tree =>
      rw [hsettle] at hcounts
      dsimp only
      rw [show countSettle .. = _ from hcounts]
      exact ⟨0, rfl, fun _ => rfl⟩
    | rejected tree cause =>
      rw [hsettle] at hcounts
      obtain ⟨count, hcount⟩ := Option.isSome_iff_exists.mp hcounts
      dsimp only
      rw [hcount]
      exact ⟨count, rfl, fun hok => (Bool.false_ne_true hok).elim⟩

/-- The counter neither falls below zero nor rises above the limit, and it is back at zero where a
text is read. -/
theorem exists_countText (text : String) (limit : Nat) :
    ∃ count, countText text limit = some count ∧ ((parseText text limit).isOk → count = 0) := by
  rw [parseText_eq]
  exact Reached.initial.exists_countRun

/-! ### What is compared with the limit -/

/-- The run on a text comes to a step with the counter at `count`. What the machine sees there is
followed by `rest`. -/
inductive Counted (limit : Nat) (text : List Char) :
    Sight → Tree → List Frame → List Char → Nat → Prop
  /-- Nothing was read, and nothing was counted. -/
  | first :
      Counted limit text (Config.initial.sight text.head?) .empty [.grammar false] text.tail 0
  /-- A step leaves the character. -/
  | again {sight : Sight} {tree tree' : Tree} {frames frames' : List Frame} {rest : List Char}
      {count count' : Nat} (before : Counted limit text sight tree frames rest count)
      (moves : step limit sight tree frames = .again tree' frames')
      (turns : count? limit sight tree frames count = some count') :
      Counted limit text sight tree' frames' rest count'
  /-- A step takes the character. -/
  | next {sight : Sight} {tree tree' : Tree} {frames frames' : List Frame} {rest : List Char}
      {count count' : Nat} (before : Counted limit text sight tree frames rest count)
      (moves : step limit sight tree frames = .next tree' frames')
      (turns : count? limit sight tree frames count = some count') :
      Counted limit text ((Config.mk tree' frames' sight.here).sight rest.head?) tree' frames'
        rest.tail count'

/-- The counter is what a step goes by. -/
structure Gauges (limit : Nat) (sight : Sight) (tree : Tree) (frames : List Frame)
    (count : Nat) : Prop where
  /-- Where a comment or a bracket may be let in, so many are open. -/
  nesting_eq : passage sight tree frames = .enter → nesting frames = count
  /-- If the step asks for the limit at all, it is let in by just the limits above the counter. -/
  checks : Checks (passage sight tree frames = .enter) count fun n => step n sight tree frames
  /-- The counter keeps its range, and it is back at zero where the text is accepted. -/
  passes : (step limit sight tree frames).Passes (count? limit sight tree frames count)

/-- At every step of a run the counter is the tally of what is open. The induction is on the
steps. -/
theorem Counted.atStep {limit : Nat} {text : List Char} {sight : Sight} {tree : Tree}
    {frames : List Frame} {rest : List Char} {count : Nat}
    (h : Counted limit text sight tree frames rest count) :
    count = tally tree frames ∧ ∃ whole done, AtStep limit whole done sight tree frames := by
  induction h with
  | first => exact ⟨rfl, _, _, Reached.initial.atStep text.head?⟩
  | again _ moves turns ih =>
    obtain ⟨rfl, whole, done, hat⟩ := ih
    have hpasses := hat.passes
    rw [moves, Move.passes_again, turns, Option.some.injEq] at hpasses
    exact ⟨hpasses, whole, done, hat.again moves⟩
  | @next _ _ _ _ _ rest _ _ _ moves turns ih =>
    obtain ⟨rfl, whole, done, hat⟩ := ih
    have hpasses := hat.passes
    rw [moves, Move.passes_next, turns, Option.some.injEq] at hpasses
    exact ⟨hpasses, _, _, hat.next moves rest.head?⟩

/-- A step that compares the limit with something compares it with the counter. -/
theorem Counted.gauges {limit : Nat} {text : List Char} {sight : Sight} {tree : Tree}
    {frames : List Frame} {rest : List Char} {count : Nat}
    (h : Counted limit text sight tree frames rest count) :
    Gauges limit sight tree frames count := by
  obtain ⟨rfl, whole, done, hat⟩ := h.atStep
  have heq : passage sight tree frames = .enter → nesting frames = tally tree frames :=
    fun henter => nesting_eq_tally henter hat.standing.nested
  refine ⟨heq, ?_, hat.passes⟩
  rcases checks_step sight tree frames with hfree | ⟨henter, hasks⟩
  · exact Or.inl hfree
  · rw [← heq henter]
    exact Or.inr ⟨henter, hasks⟩

end LosslessEbnf
