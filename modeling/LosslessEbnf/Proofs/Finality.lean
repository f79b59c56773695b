import LosslessEbnf.Proofs.Completion
import LosslessEbnf.Proofs.Reaching

/-!
# Failures that more text does not mend

A failure that is not due to the end of the input stays as it is whatever stands behind the text.

## Main Definitions

* `Cause.Final` — a cause that does not lie in the end of the input
* `Frame.Poised` — what may be on top between two characters
* `Frame.Hungry` — what is only refused at the end of the input because the text should go on
* `Cause.Ended`, `Cause.Spent` — what the machine can refuse at the end of the input

## Main Statements

* `poises_step` — what is on top when a character was taken
* `starves_step_atEnd` — a hungry production leaves one on top that is hungry, too
* `exists_error_append_of_final` — a failure that is not due to the end of the input is final
* `ended_of_isOk_append` — what the failures report that more text mends

## Design Notes

At a character a run fails without a look at what stands behind it, so only the end of the input has
to be gone into. There the first step decides: it refuses what was taken already, and does not look
at the next character, or it leaves a production on top that is only refused for want of text.
-/

namespace LosslessEbnf

/-- The cause does not lie in the end of the input: a mark of which nothing was read is missing only
where the input ends. -/
def Cause.Final : Cause → Prop
  | endOfInput _ => False
  | noLiteral _ read => read ≠ ""
  | _ => True

/-! ### Between two characters -/

/-- What may be on top between two characters: a production that waits for a component is not. -/
def Frame.Poised : Frame → Prop
  | grammar _ | comment .. | paren .. | identifier .. | run .. | matched .. => True
  | product _ _ (.body _ (some _)) | bracket _ _ (.body (some _)) => True
  | definitions _ (.afterSlash _) => True
  | opener b _ _ => b ≠ .grouped
  | quoted _ _ text => text.isSome
  | literal _ _ read _ => read ≠ []
  | _ => False

/-- A production that may be on top between two characters is on top of the stack. -/
def Poised : List Frame → Prop
  | [] => False
  | frame :: _ => frame.Poised

/-- If the move takes the character, it leaves a production on top that may be there then. -/
def Move.Poises : Move → Prop
  | next _ frames => Poised frames
  | _ => True

namespace Move

@[simp] theorem poises_again {tree : Tree} {frames : List Frame} : (again tree frames).Poises :=
  trivial

@[simp] theorem poises_next_cons {tree : Tree} {frame : Frame} {below : List Frame} :
    (next tree (frame :: below)).Poises ↔ frame.Poised := Iff.rfl

@[simp] theorem poises_accept {tree : Tree} : (accept tree).Poises := trivial

@[simp] theorem poises_reject {tree : Tree} {cause : Cause} : (reject tree cause).Poises := trivial

end Move

section

variable {limit : Nat} {sight : Sight} {tree : Tree} {frames below : List Frame} {node : NodeId}

@[simp] theorem poises_unexpected {expected : Expectation} :
    (sight.unexpected tree expected).Poises := by
  unfold Sight.unexpected
  split <;> simp

/-- A mark that takes its character has read it then, be it in full or not. -/
@[simp] theorem poises_stepLiteral {candidates : List String} {read : List Char}
    {best : Option (List Char × Position)} :
    (stepLiteral sight tree below node candidates read best).Poises := by
  unfold stepLiteral settleLiteral
  dsimp only
  repeat' split
  all_goals simp [Frame.Poised]

@[simp] theorem poises_openLiteral {candidates : List String} :
    (openLiteral sight tree frames node candidates).Poises := poises_stepLiteral

/-- White space that takes its character is on top. -/
@[simp] theorem poises_openSpace : (openSpace sight tree frames node).Poises := by
  unfold openSpace
  repeat' split
  all_goals simp [Frame.Poised]

/-- A bracket whose opener was read before takes no character. -/
@[simp] theorem poises_attachBracket {b : Bracket} {opener : Span} :
    (attachBracket limit sight tree frames node b opener).Poises := by
  unfold attachBracket
  split <;> simp

@[simp] theorem poises_openBracket {b : Bracket} :
    (openBracket limit sight tree frames node b).Poises := by
  unfold openBracket
  split <;> simp

/-- A name, a mark or a parenthesis is on top when the first character of a primary is taken. -/
@[simp] theorem poises_openPrimary {c : Char} :
    (openPrimary limit sight tree frames node c).Poises := by
  unfold openPrimary expectIdentifier openIdentifier expectTerminal openQuoted
  repeat' split
  all_goals simp [Frame.Poised]

/-- A term ends without a character. -/
@[simp] theorem poises_endTerm {parts : TermParts} :
    (endTerm sight tree below node parts).Poises := by
  unfold endTerm
  split <;> simp

/-- An exception ends without a character. -/
@[simp] theorem poises_endException {primary : Option NodeId} :
    (endException sight tree below node primary).Poises := by
  unfold endException
  split <;> simp

/-- A comment stands in the whole text or in another comment, which may be on top. -/
theorem poised_of_comment {host : Frame} (h : .comment ∈ host.components) : host.Poised := by
  unfold Frame.components at h
  split at h <;> simp_all [Frame.Poised]

@[simp] theorem poises_openComment : (openComment limit sight tree frames node).Poises := by
  unfold openComment
  split <;> simp

/-- A comment that takes its character stays on top. If it ends, what it stands in is a comment or
the text, and either may be on top. -/
theorem poises_stepComment {text : Option NodeId} {stage : CommentStage}
    (h : Nested (.comment node text stage :: below)) :
    (stepComment limit sight tree below node text stage).Poises := by
  cases h with
  | cons _ _ admitted =>
    unfold stepComment
    repeat' split
    case h_2.isTrue => exact poised_of_comment admitted
    all_goals simp [Frame.Poised]

/-- A closer that is handed over is held by the production on top. -/
theorem poised_handOver {host : Frame} (closer : Span) (h : .definitions ∈ host.components) :
    Poised (handOver closer (host :: below)) := by
  rcases Frame.eq_body_of_definitions h with ⟨id, lhs, list, held, rfl⟩ | ⟨b, id, held, rfl⟩
  · trivial
  · trivial

/-- A list that takes a slash stays on top. If a parenthesis follows, the production that gets the
closer is on top, and it has what it was waiting for. -/
theorem poises_stepDefinitions {stage : ListStage} (h : Nested (.definitions node stage :: below)) :
    (stepDefinitions sight tree below node stage).Poises := by
  cases h with
  | cons _ _ admitted =>
    unfold stepDefinitions
    repeat' split
    any_goals simp [Frame.Poised]
    exact poised_handOver _ admitted

/-- A character between items begins a comment, a name or white space, and that is on top then. -/
@[simp] theorem poises_stepGrammar {begun : Bool} :
    (stepGrammar limit sight tree below begun).Poises := by
  unfold stepGrammar openProduct expectIdentifier openIdentifier
  repeat' split
  all_goals simp [Frame.Poised]

/-- A product takes a character with a mark or with white space. -/
@[simp] theorem poises_stepProduct {lhs : NodeId} {stage : ProductStage} :
    (stepProduct sight tree below node lhs stage).Poises := by
  unfold stepProduct
  repeat' split
  all_goals simp

/-- A definition takes a character with a comma or with white space. -/
@[simp] theorem poises_stepDefinition {start : Position} {term : Option NodeId} :
    (stepDefinition sight tree below node start term).Poises := by
  unfold stepDefinition
  repeat' split
  all_goals simp

/-- A term takes a character with a number, a dash, a primary or white space. -/
@[simp] theorem poises_stepTerm {parts : TermParts} {dash : Bool} :
    (stepTerm limit sight tree below node parts dash).Poises := by
  unfold stepTerm openRepetition expectNumber
  dsimp only
  repeat' split
  all_goals simp [Frame.Poised]

/-- An exception takes a character with a primary or with white space. -/
@[simp] theorem poises_stepException {term : NodeId} {primary : Option NodeId} :
    (stepException limit sight tree below node term primary).Poises := by
  unfold stepException
  repeat' split
  all_goals simp

/-- A repetition takes a character with its star or with white space. -/
@[simp] theorem poises_stepRepetition : (stepRepetition sight tree below node).Poises := by
  unfold stepRepetition
  split <;> simp

/-- A parenthesis that takes a character is an opener of two characters, which is not that of a
group. -/
@[simp] theorem poises_stepParen {start : Position} :
    (stepParen limit sight tree below node start).Poises := by
  unfold stepParen
  repeat' split
  all_goals simp [Frame.Poised]

/-- A bracket takes a character with its closer or with white space. -/
@[simp] theorem poises_stepBracket {b : Bracket} {stage : BracketStage} :
    (stepBracket sight tree below b node stage).Poises := by
  unfold stepBracket
  repeat' split
  all_goals simp

/-- A quoted text takes a character only when it has its leaf for the text. -/
@[simp] theorem poises_stepQuoted {form : Quoted} {text : Option NodeId} :
    (stepQuoted sight tree below form node text).Poises := by
  unfold stepQuoted
  repeat' split
  all_goals simp [Frame.Poised]

/-- A name that takes a character stays on top. -/
@[simp] theorem poises_stepIdentifier {parent : NodeId} {trailing : Option Span} :
    (stepIdentifier sight tree below node parent trailing).Poises := by
  unfold stepIdentifier
  repeat' split
  all_goals simp [Frame.Poised]

/-- A run that takes a character stays on top. -/
@[simp] theorem poises_stepRun {run : Run} : (stepRun sight tree below run node).Poises := by
  unfold stepRun
  repeat' split
  all_goals simp [Frame.Poised]

/-- What is on top when a character was taken may be there. There is one case for each production,
and only two of them ask what is around it. -/
theorem poises_step (h : Nested frames) : (step limit sight tree frames).Poises := by
  cases frames with
  | nil => trivial
  | cons frame below =>
    cases frame with
    | grammar => exact poises_stepGrammar
    | comment => exact poises_stepComment h
    | product => exact poises_stepProduct
    | definitions => exact poises_stepDefinitions h
    | definition => exact poises_stepDefinition
    | term => exact poises_stepTerm
    | exception => exact poises_stepException
    | repetition => exact poises_stepRepetition
    | paren => exact poises_stepParen
    | opener => exact poises_attachBracket
    | bracket => exact poises_stepBracket
    | quoted => exact poises_stepQuoted
    | identifier => exact poises_stepIdentifier
    | run => exact poises_stepRun
    | literal => exact poises_stepLiteral
    | matched | closing => exact Move.poises_again

end

/-- Between two characters a production that may be there is on top: the last step for the first one
has left it there. -/
theorem poised_settle {whole done : List Char} {limit : Nat} {sight : Sight} {tree tree' : Tree}
    {frames frames' : List Frame} (hs : sight.Reads done whole)
    (h : Standing False whole done tree frames)
    (htaken : settle limit sight tree frames = .waiting tree' frames') : Poised frames' := by
  refine settle_induction (Q := fun outcome => outcome = .waiting tree' frames' → Poised frames')
    (fun tree frames h => ?_) h htaken
  have hkeeps := keeps_step limit hs False.elim h
  have hpoises : (step limit sight tree frames).Poises := poises_step h.nested
  cases hstep : step limit sight tree frames with
  | again tree₁ frames₁ =>
    rw [hstep] at hkeeps
    exact hkeeps
  | next tree₁ frames₁ =>
    rw [hstep] at hpoises
    rintro ⟨rfl, rfl⟩
    exact hpoises
  | accept tree₁ | reject tree₁ cause => nofun

/-- Where a run has got to, what is on top waits for no component, and a literal there has read
something. -/
theorem Reached.poised {limit : Nat} {whole : List Char} {config : Config}
    (h : Reached limit whole config) : Poised config.frames := by
  cases h with
  | initial => trivial
  | @next _ _ c _ _ before taken =>
    have hstanding := (before.between.standing.mono False.elim).weaken id [c]
    exact poised_settle (before.between.reads_some c) hstanding taken

/-! ### The end of the input -/

/-- At the end of the input the production is refused for want of text, if it is refused. -/
def Frame.Hungry : Frame → Prop
  | product _ _ (.body ..) | bracket _ _ (.body _) | definitions _ .afterDefinition => False
  | opener .. => False
  | literal _ _ read _ => read ≠ []
  | _ => True

/-- What is refused at the end of the input for want of text: a production that goes on, or the star
that is missing behind a number. -/
def Cause.Wants (top : Frame) (cause : Cause) : Prop :=
  (∃ reading, cause = .endOfInput reading) ∨
    top.component = .repetition ∧ cause = .noLiteral ["*"] ""

/-- The move leaves a hungry production on top, or is made for want of text. -/
def Move.Starves (top : Frame) : Move → Prop
  | again _ frames => ∃ frame below, frames = frame :: below ∧ frame.Hungry
  | reject _ cause => cause.Wants top
  | _ => True

/-- A production in which something else than definitions may stand is hungry. -/
theorem hungry_of_admitted {component : Component} {host : Frame}
    (h : component ∈ host.components) (hlist : component ≠ .definitions)
    (hitem : component ≠ .definition) : host.Hungry := by
  unfold Frame.components at h
  split at h <;> simp_all [Frame.Hungry]

/-- A production that ends leaves a hungry one on top, one that asks for more text before it can
end. -/
theorem Nested.exists_hungry {frame : Frame} {below : List Frame} (h : Nested (frame :: below))
    (htext : frame.component ≠ .text) (hlist : frame.component ≠ .definitions)
    (hitem : frame.component ≠ .definition) :
    ∃ host below', below = host :: below' ∧ host.Hungry := by
  cases h with
  | grammar => exact absurd rfl htext
  | cons _ _ admitted => exact ⟨_, _, rfl, hungry_of_admitted admitted hlist hitem⟩

/-- At the end of the input a hungry production leaves one on top that is hungry, too, or is refused
for want of text. -/
theorem starves_step_atEnd {frame : Frame} {below : List Frame} (limit : Nat) (here : Position)
    (tree : Tree) (h : Nested (frame :: below)) (hhungry : frame.Hungry) :
    (step limit ⟨none, here⟩ tree (frame :: below)).Starves frame := by
  cases frame with
  | grammar begun => cases begun <;> trivial
  | comment | paren => exact Or.inl ⟨_, rfl⟩
  | product id lhs stage =>
    cases stage with
    | name => exact Or.inl ⟨_, rfl⟩
    | equals => exact ⟨_, _, rfl, trivial⟩
    | body => exact hhungry.elim
  | definitions id stage =>
    cases stage with
    | start => exact ⟨_, _, rfl, trivial⟩
    | afterDefinition => exact hhungry.elim
    | afterSlash => exact Or.inl ⟨_, rfl⟩
  | definition => exact Or.inl ⟨_, rfl⟩
  | term id parts dash =>
    cases dash with
    | true => exact ⟨_, _, rfl, trivial⟩
    | false =>
      show (endTerm ⟨none, here⟩ _ below id parts).Starves _
      unfold endTerm
      split <;> exact h.exists_hungry nofun nofun nofun
  | exception id term primary =>
    show (endException ⟨none, here⟩ _ below id primary).Starves _
    unfold endException
    split <;> exact h.exists_hungry nofun nofun nofun
  | repetition => exact Or.inr ⟨rfl, rfl⟩
  | opener => exact hhungry.elim
  | bracket b id stage =>
    cases stage with
    | opened opening => exact ⟨_, _, rfl, trivial⟩
    | body => exact hhungry.elim
  | quoted form id text =>
    cases text with
    | none => exact ⟨_, _, rfl, trivial⟩
    | some run => exact Or.inl ⟨_, rfl⟩
  | identifier id parent trailing => cases trailing <;> exact h.exists_hungry nofun nofun nofun
  | run run id => cases run <;> exact h.exists_hungry nofun nofun nofun
  | literal id candidates read best =>
    cases best with
    | some best => exact h.exists_hungry nofun nofun nofun
    | none =>
      have hread : read.isEmpty = false := by
        cases read with
        | nil => exact absurd rfl hhungry
        | cons c read => rfl
      refine Or.inl ⟨.literal, ?_⟩
      rw [hread]
      rfl
  | matched | closing => exact h.exists_hungry nofun nofun nofun

/-! ### Numbers without a star -/

/-- The text ends with a number, behind which there may be white space. -/
def EndsWithNumber (text : List Char) : Prop :=
  ∃ front number blank, text = front ++ number ++ blank ∧ number ≠ [] ∧
    (∀ c ∈ number, isDigit c = true) ∧ Blank blank

/-- A leaf has no children. -/
theorem Kind.Builds.eq_nil {kind : Kind} {row : List Child} (h : kind.Builds row)
    (hleaf : kind.isLeaf = true) : row = [] := by
  cases kind with
  | text | space | literal | number => exact h
  | primary form => cases form <;> first | exact h | cases hleaf
  | _ => cases hleaf

namespace Forest

variable {forest : Forest} {number : NodeId}

theorem eq_nil_of_row (h : forest.row number = []) : forest = nil := by
  cases forest with
  | nil => rfl
  | cons => cases h

/-- The text of leaves side by side is what they hold, one behind the other. -/
theorem text_eq_of_leaves (h : forest.Each (fun id node => node.Formed id) number)
    (hleaf : ∀ child ∈ forest.row number, child.kind.isLeaf = true) :
    forest.text = (forest.row number).flatMap fun child => child.data.toList := by
  induction forest generalizing number with
  | nil => rfl
  | cons top below beside _ ih =>
    obtain ⟨htop, -, hbeside⟩ := h
    rw [row_cons, List.forall_mem_cons] at hleaf
    have hnil : below = nil := eq_nil_of_row (htop.builds.eq_nil hleaf.1)
    rw [text_cons, row_cons, List.flatMap_cons, ih hbeside hleaf.2, hnil, text_nil,
      List.append_nil]

/-- The tops of formed trees hold what their kinds demand. -/
theorem spells_of_mem_row (h : forest.Each (fun id node => node.Formed id) number) {child : Child}
    (hchild : child ∈ forest.row number) : child.kind.Spells child.data := by
  induction forest generalizing number with
  | nil => cases hchild
  | cons top below beside _ ih =>
    obtain ⟨htop, -, hbeside⟩ := h
    rw [row_cons, List.mem_cons] at hchild
    rcases hchild with rfl | hchild
    · exact htop.spells
    · exact ih hbeside hchild

end Forest

/-- A number and the white space behind it are the text of a repetition whose star is due. -/
theorem OpenNode.Sound.exists_number {id : NodeId} {node : OpenNode} (h : node.Sound id)
    (hrow : Matches (repetitionRule.take 2) (node.row id)) :
    ∃ number blank, node.text = number ++ blank ∧ number ≠ [] ∧
      (∀ c ∈ number, isDigit c = true) ∧ Blank blank := by
  obtain ⟨front, gap, hrow, ⟨digits, rfl, hdigits⟩, hgap⟩ := hrow
  have hgap : Slot.gap gap := matches_single.mp hgap
  have htext : ∀ {leaves : List Child}, node.row id = leaves →
      (∀ child ∈ leaves, child.kind.isLeaf = true) →
      node.text = leaves.flatMap fun child => child.data.toList := by
    rintro _ rfl hleaf
    rw [OpenNode.text, h.data, String.toList_empty, List.nil_append,
      Forest.text_eq_of_leaves h.formed hleaf]
    rfl
  have hspells : ∀ child ∈ node.row id, child.kind.Spells child.data :=
    fun child => Forest.spells_of_mem_row h.formed
  have hnumber : digits.kind.Spells digits.data := hspells digits (by rw [hrow]; simp)
  rw [hdigits] at hnumber
  have hne : digits.data.toList ≠ [] := by simpa using hnumber.1
  rcases hgap with rfl | ⟨white, rfl, hwhite⟩
  · refine ⟨digits.data.toList, [], ?_, hne, hnumber.2, blank_nil⟩
    rw [htext hrow (by simp [hdigits, Kind.isLeaf])]
    simp
  · have hblank : white.kind.Spells white.data := hspells white (by rw [hrow]; simp)
    rw [hwhite] at hblank
    refine ⟨digits.data.toList, white.data.toList, ?_, hne, hnumber.2, hblank.2⟩
    rw [htext hrow (by simp [hdigits, hwhite, Kind.isLeaf])]
    simp

/-- Where a repetition waits for its star, the text ends with its number and perhaps white space. -/
theorem endsWithNumber_of_repetition {sure : Prop} {whole done : List Char} {ahead : Option Char}
    {tree : Tree} {frame : Frame} {below : List Frame}
    (h : Standing sure whole done tree (frame :: below))
    (hgrown : Grown ahead tree (frame :: below)) (hcomponent : frame.component = .repetition) :
    EndsWithNumber done := by
  cases frame with
  | repetition id =>
    cases hgrown with
    | @idle _ _ node outer hidle =>
      obtain ⟨-, -, hrow⟩ := hidle.fits.shape
      obtain ⟨number, blank, htext, hnumber⟩ := hidle.sound.exists_number hrow
      cases h with
      | idle rest done_eq =>
        refine ⟨outer.text, number, blank, ?_, hnumber⟩
        rw [← done_eq, ← rest.text_eq, hidle.carries.shows.text, Spine.text_cons, htext,
          List.append_assoc]
  | run run id => cases run <;> cases hcomponent
  | _ => cases hcomponent

/-! ### What is final -/

/-- The text `whole` ended too early, or behind a number the star is missing. -/
def Cause.Ended (whole : List Char) (cause : Cause) : Prop :=
  (∃ reading, cause = .endOfInput reading) ∨
    cause = .noLiteral ["*"] "" ∧ EndsWithNumber whole

/-- A failure that lies in the end of the input says so, or names a mark of which nothing was
read. -/
theorem Cause.Ended.not_final {whole : List Char} {cause : Cause} (h : cause.Ended whole) :
    ¬cause.Final := by
  rcases h with ⟨reading, rfl⟩ | ⟨rfl, -⟩
  · exact id
  · exact fun hfinal => hfinal rfl

/-- At the end of the input a hungry production is refused because the text ended. The induction is
on the steps, each of which leaves a hungry one on top. -/
theorem ended_of_settle_atEnd {whole : List Char} {limit : Nat} {here : Position}
    {tree tree' : Tree} {cause : Cause} {frame : Frame} {below : List Frame}
    (hs : (Sight.mk none here).Reads whole whole)
    (h : Standing False whole whole tree (frame :: below))
    (hgrown : Grown none tree (frame :: below)) (hhungry : frame.Hungry)
    (hrefused : settle limit ⟨none, here⟩ tree (frame :: below) = .rejected tree' cause) :
    cause.Ended whole := by
  induction hw : weight (frame :: below) using Nat.strongRecOn
    generalizing tree frame below with
  | ind n ih =>
    have hkeeps := keeps_step limit hs False.elim h
    have hgrows : (step limit ⟨none, here⟩ tree (frame :: below)).Grows none :=
      grows_step limit hgrown
    have hstarves := starves_step_atEnd limit here tree h.nested hhungry
    rw [settle_eq] at hrefused
    cases hstep : step limit ⟨none, here⟩ tree (frame :: below) with
    | again tree₁ frames₁ =>
      rw [hstep] at hkeeps hgrows hstarves hrefused
      obtain ⟨frame₁, below₁, rfl, hhungry₁⟩ := hstarves
      exact ih _ (hw ▸ weight_lt_of_step hstep) hkeeps hgrows hhungry₁ hrefused rfl
    | next tree₁ frames₁ => exact absurd hstep step_ne_next
    | accept tree₁ =>
      rw [hstep] at hrefused
      cases hrefused
    | reject tree₁ cause₁ =>
      rw [hstep] at hstarves hrefused
      cases hrefused
      rcases hstarves with hended | ⟨hcomponent, hstar⟩
      · exact Or.inl hended
      · exact Or.inr ⟨hstar, endsWithNumber_of_repetition h hgrown hcomponent⟩

/-- The machine refuses characters that it took already: the text ends with the closer `/)`, or with
an opener that is nested too deep. -/
def Cause.Spent (limit : Nat) (whole : List Char) (cause : Cause) : Prop :=
  (∃ span, cause = .unexpectedLiteral "/)" span) ∧ ['/', ')'] <:+ whole ∨
    cause = .nestingTooDeep limit ∧ (['(', '/'] <:+ whole ∨ ['(', ':'] <:+ whole)

section

variable {whole : List Char} {limit : Nat} {here : Position} {tree tree' : Tree} {cause : Cause}
  {below frames : List Frame}

/-- If the first step at the end of the input leaves a hungry production on top, the text is refused
because it ended. -/
theorem ended_of_again {tree₁ : Tree} {frame : Frame} (hs : (Sight.mk none here).Reads whole whole)
    (h : Standing False whole whole tree frames) (hgrown : Grown none tree frames)
    (hrefused : settle limit ⟨none, here⟩ tree frames = .rejected tree' cause)
    (hstep : step limit ⟨none, here⟩ tree frames = .again tree₁ (frame :: below))
    (hhungry : frame.Hungry) : cause.Ended whole := by
  have hkeeps := keeps_step limit hs False.elim h
  have hgrows : (step limit ⟨none, here⟩ tree frames).Grows none := grows_step limit hgrown
  rw [hstep] at hkeeps hgrows
  rw [settle_eq, hstep] at hrefused
  exact ended_of_settle_atEnd hs hkeeps hgrows hhungry hrefused

/-- What the first step refuses without a look at the next character is refused in any case. -/
theorem spent_of_reject {tree₁ : Tree} {cause₁ : Cause}
    (hrefused : settle limit ⟨none, here⟩ tree frames = .rejected tree' cause)
    (hstep : ∀ sight, step limit sight tree frames = .reject tree₁ cause₁)
    (hspent : cause₁.Spent limit whole) :
    cause.Spent limit whole ∧ ∀ sight, settle limit sight tree frames = .rejected tree' cause := by
  rw [settle_eq, hstep] at hrefused
  cases hrefused
  refine ⟨hspent, fun sight => ?_⟩
  rw [settle_eq, hstep]

/-- A product whose list has handed over a closer is refused for that closer. -/
theorem spent_of_product {id lhs list : NodeId} {closer : Span}
    (h : Standing False whole whole tree (.product id lhs (.body list (some closer)) :: below))
    (hrefused : settle limit ⟨none, here⟩ tree (.product id lhs (.body list (some closer)) :: below)
      = .rejected tree' cause) :
    cause.Spent limit whole ∧ ∀ sight, settle limit sight tree
      (.product id lhs (.body list (some closer)) :: below) = .rejected tree' cause := by
  cases h with
  | idle rest _ _ => cases rest.waiting.id_eq_size
  | product rest done_eq denotes =>
    exact spent_of_reject hrefused (fun _ => rfl) (Or.inl ⟨⟨_, rfl⟩, _, done_eq⟩)

/-- A bracket whose list has handed over a closer ends with it, in a term that asks for more text,
or it is refused for that closer. -/
theorem ended_or_spent_of_bracket {b : Bracket} {id : NodeId} {closer : Span}
    (hs : (Sight.mk none here).Reads whole whole)
    (h : Standing False whole whole tree (.bracket b id (.body (some closer)) :: below))
    (hgrown : Grown none tree (.bracket b id (.body (some closer)) :: below))
    (hrefused : settle limit ⟨none, here⟩ tree (.bracket b id (.body (some closer)) :: below)
      = .rejected tree' cause) :
    cause.Ended whole ∨ cause.Spent limit whole ∧ ∀ sight, settle limit sight tree
      (.bracket b id (.body (some closer)) :: below) = .rejected tree' cause := by
  by_cases hb : b = .repeated
  · obtain ⟨frame, below', rfl, hhungry⟩ := h.nested.exists_hungry (by simp [Frame.component])
      (by simp [Frame.component]) (by simp [Frame.component])
    exact Or.inl (ended_of_again hs h hgrown hrefused (by rw [step, stepBracket, if_pos hb])
      hhungry)
  · have hstep : ∀ sight, step limit sight tree (.bracket b id (.body (some closer)) :: below) =
        .reject tree (.unexpectedLiteral "/)" closer) := by
      intro sight
      rw [step, stepBracket, if_neg hb]
    cases h with
    | idle rest _ _ => cases rest.waiting.id_eq_size
    | bracket rest done_eq denotes =>
      exact Or.inr (spent_of_reject hrefused hstep (Or.inl ⟨⟨_, rfl⟩, _, done_eq⟩))

/-- An opener of two characters opens its bracket, which asks for more text, or the bracket lies too
deep. -/
theorem ended_or_spent_of_opener {b : Bracket} {parent : NodeId} {opener : Span}
    (hs : (Sight.mk none here).Reads whole whole)
    (h : Standing False whole whole tree (.opener b parent opener :: below))
    (hgrown : Grown none tree (.opener b parent opener :: below)) (hpoised : b ≠ .grouped)
    (hrefused : settle limit ⟨none, here⟩ tree (.opener b parent opener :: below) =
      .rejected tree' cause) :
    cause.Ended whole ∨ cause.Spent limit whole ∧ ∀ sight, settle limit sight tree
      (.opener b parent opener :: below) = .rejected tree' cause := by
  by_cases hlimit : limit ≤ nesting below
  · have hstep : ∀ sight, step limit sight tree (.opener b parent opener :: below) =
        .reject tree (.nestingTooDeep limit) := by
      intro sight
      rw [step, attachBracket, if_pos hlimit]
    refine Or.inr (spent_of_reject hrefused hstep (Or.inr ⟨rfl, ?_⟩))
    cases h with
    | idle rest => cases rest.waiting.id_eq_size
    | opener _ _ _ done_eq =>
      cases b with
      | repeated => exact Or.inl ⟨_, done_eq⟩
      | optional => exact Or.inr ⟨_, done_eq⟩
      | grouped => exact absurd rfl hpoised
  · have hhungry : (Frame.bracket b tree.size (.opened (tree.size + 1))).Hungry := trivial
    exact Or.inl (ended_of_again hs h hgrown hrefused (by rw [step, attachBracket, if_neg hlimit])
      hhungry)

/-- What is refused at the end of the input is refused because the text ended, or whatever comes
next. -/
theorem ended_or_spent (hs : (Sight.mk none here).Reads whole whole)
    (h : Standing False whole whole tree frames) (hgrown : Grown none tree frames)
    (hpoised : Poised frames)
    (hrefused : settle limit ⟨none, here⟩ tree frames = .rejected tree' cause) :
    cause.Ended whole ∨ cause.Spent limit whole ∧
      ∀ sight, settle limit sight tree frames = .rejected tree' cause := by
  cases frames with
  | nil => exact hpoised.elim
  | cons frame below =>
    cases frame with
    | product id lhs stage =>
      match stage, hpoised with
      | .body list (some closer), _ => exact Or.inr (spent_of_product h hrefused)
    | bracket b id stage =>
      match stage, hpoised with
      | .body (some closer), _ => exact ended_or_spent_of_bracket hs h hgrown hrefused
    | opener b parent opener => exact ended_or_spent_of_opener hs h hgrown hpoised hrefused
    | definitions id stage =>
      cases stage with
      | afterSlash => exact Or.inl (ended_of_settle_atEnd hs h hgrown trivial hrefused)
      | _ => exact hpoised.elim
    | literal id candidates read best =>
      exact Or.inl (ended_of_settle_atEnd hs h hgrown hpoised hrefused)
    | _ => exact Or.inl (ended_of_settle_atEnd hs h hgrown trivial hrefused)

end

/-- Where a run has got to, what is refused at the end of the input is refused because the text
ended, or whatever comes next. -/
theorem Reached.ended_or_spent {limit : Nat} {whole : List Char} {config : Config}
    {error : ParseError} (h : Reached limit whole config)
    (hrefuses : config.Refuses limit none error) :
    error.cause.Ended whole ∨ error.cause.Spent limit whole ∧ ∀ ahead,
      config.Refuses limit ahead { error with position := (config.sight ahead).here } := by
  have hstanding : Standing False whole whole config.tree config.frames :=
    h.between.standing.mono False.elim
  rcases LosslessEbnf.ended_or_spent h.between.reads_none hstanding (h.grown none) h.poised
    hrefuses.settle_eq with hended | ⟨hspent, hrejected⟩
  · exact Or.inl hended
  · exact Or.inr ⟨hspent, fun ahead => ⟨hrejected (config.sight ahead), rfl⟩⟩

/-- **Finality.** A failure that is not due to the end of the input is the failure of every longer
text: with the same cause and the same tree, and at the same position unless the machine refuses
characters that it took already. -/
theorem exists_error_append_of_final {text : String} {limit : Nat} {error : ParseError}
    (herror : parseText text limit = .error error) (hfinal : error.cause.Final) (more : String) :
    ∃ position, parseText (text ++ more) limit = .error { error with position } ∧
      (position = error.position ∨ error.cause.Spent limit text.toList ∧
        (places (text ++ more).toList)[text.toList.length]? = some position) := by
  obtain ⟨front, back, config, htext, hreached, hrefuses⟩ := exists_reached_of_error herror
  have hrun : parseText (text ++ more) limit = runText limit config (back ++ more.toList) := by
    rw [parseText_eq, String.toList_append, htext, List.append_assoc, hreached.runText_append]
  rw [hrun]
  cases back with
  | cons c back =>
    have hsame : config.Refuses limit (c :: back ++ more.toList).head? error := hrefuses
    exact ⟨error.position, hsame.runText_eq, Or.inl rfl⟩
  | nil =>
    rw [List.append_nil] at htext
    obtain rfl := htext
    rcases hreached.ended_or_spent hrefuses with hended | ⟨hspent, hany⟩
    · exact absurd hfinal hended.not_final
    · refine ⟨_, (hany more.toList.head?).runText_eq, ?_⟩
      cases hmore : more.toList with
      | nil => exact Or.inl hrefuses.position_eq.symm
      | cons c rest =>
        refine Or.inr ⟨hspent, ?_⟩
        have hplace := (hreached.between.reads_some c).place rfl
        rw [String.toList_append, hmore, ← List.singleton_append, ← List.append_assoc]
        exact places_append_of_eq_some hplace rest

/-- A closer that was taken already and a character that was not, with more text behind each: the
failures keep their causes and their trees, and at most their positions move. -/
theorem exists_error_append_of_final_closer :
    (∃ error, parseText "x=(a/)" 1 = .error error ∧
      error.cause = .unexpectedLiteral "/)" ⟨⟨1, 5⟩, ⟨1, 6⟩⟩ ∧
      ∃ position, parseText ("x=(a/)" ++ "\n;") 1 = .error { error with position } ∧
        (position = error.position ∨ error.cause.Spent 1 "x=(a/)".toList ∧
          (places ("x=(a/)" ++ "\n;").toList)["x=(a/)".toList.length]? = some position)) ∧
    ∃ error, parseText "x='a' 'b'" 0 = .error error ∧
      error.cause = .multiplePrimaries 6 7 ⟨1, 3⟩ ∧
      ∃ position, parseText ("x='a' 'b'" ++ ";") 0 = .error { error with position } ∧
        (position = error.position ∨ error.cause.Spent 0 "x='a' 'b'".toList ∧
          (places ("x='a' 'b'" ++ ";").toList)["x='a' 'b'".toList.length]? = some position) := by
  constructor
  · obtain ⟨error, herror, hcause⟩ := exists_error_of_failure?
      (show failure? (parseText "x=(a/)" 1) =
          some (.unexpectedLiteral "/)" ⟨⟨1, 5⟩, ⟨1, 6⟩⟩) by with_unfolding_all decide)
    have hfinal : error.cause.Final := by rw [hcause]; trivial
    exact ⟨error, herror, hcause, exists_error_append_of_final herror hfinal "\n;"⟩
  · obtain ⟨error, herror, hcause⟩ := exists_error_of_failure?
      (show failure? (parseText "x='a' 'b'" 0) = some (.multiplePrimaries 6 7 ⟨1, 3⟩) by
        with_unfolding_all decide)
    have hfinal : error.cause.Final := by rw [hcause]; trivial
    exact ⟨error, herror, hcause, exists_error_append_of_final herror hfinal ";"⟩

/-- **Texts that ended too early.** If more text mends a failure, then the failure reports the end
of the input, or that the star is missing behind the number at the end of the text. -/
theorem ended_of_isOk_append {text more : String} {limit : Nat} {error : ParseError}
    (herror : parseText text limit = .error error)
    (hmends : (parseText (text ++ more) limit).isOk = true) : error.cause.Ended text.toList := by
  obtain ⟨front, back, config, htext, hreached, hrefuses⟩ := exists_reached_of_error herror
  obtain ⟨tree, htree⟩ := exists_tree_of_isOk hmends
  rw [parseText_eq, String.toList_append, htext, List.append_assoc, hreached.runText_append]
    at htree
  cases back with
  | cons c back =>
    have hsame : config.Refuses limit (c :: back ++ more.toList).head? error := hrefuses
    rw [hsame.runText_eq] at htree
    cases htree
  | nil =>
    rw [List.append_nil] at htext
    obtain rfl := htext
    rcases hreached.ended_or_spent hrefuses with hended | ⟨-, hany⟩
    · exact hended
    · rw [List.nil_append, (hany more.toList.head?).runText_eq] at htree
      cases htree

/-- A name that may go on and a number with white space behind it: both are refused because the text
ended, and both are read with more text. -/
theorem ended_of_isOk_append_number :
    (∃ error, parseText "x" 0 = .error error ∧ (parseText ("x" ++ "=;") 0).isOk = true ∧
      error.cause.Ended "x".toList) ∧
    ∃ error, parseText "x=2 " 0 = .error error ∧ (parseText ("x=2 " ++ "*;") 0).isOk = true ∧
      error.cause.Ended "x=2 ".toList := by
  constructor
  · obtain ⟨error, herror, -⟩ := exists_error_of_failure?
      (show failure? (parseText "x" 0) = some (.endOfInput (.expecting .equalsSign)) by
        with_unfolding_all decide)
    have hmends : (parseText ("x" ++ "=;") 0).isOk = true := by with_unfolding_all decide
    exact ⟨error, herror, hmends, ended_of_isOk_append herror hmends⟩
  · obtain ⟨error, herror, -⟩ := exists_error_of_failure?
      (show failure? (parseText "x=2 " 0) = some (.noLiteral ["*"] "") by with_unfolding_all decide)
    have hmends : (parseText ("x=2 " ++ "*;") 0).isOk = true := by with_unfolding_all decide
    exact ⟨error, herror, hmends, ended_of_isOk_append herror hmends⟩

/-- A text that ended too early is not always reported as such: the star that is missing behind a
number is reported as a mark that does not match. -/
theorem not_endOfInput_of_isOk_append :
    ¬∀ (text more : String) (error : ParseError), parseText text = .error error →
      (parseText (text ++ more)).isOk = true → ∃ reading, error.cause = .endOfInput reading := by
  intro h
  obtain ⟨error, herror, hcause⟩ := exists_error_of_failure?
    (show failure? (parseText "x=2") = some (.noLiteral ["*"] "") by with_unfolding_all decide)
  have hmends : (parseText ("x=2" ++ "*;")).isOk = true := by with_unfolding_all decide
  obtain ⟨reading, hreading⟩ := h "x=2" "*;" error herror hmends
  rw [hcause] at hreading
  cases hreading

end LosslessEbnf
