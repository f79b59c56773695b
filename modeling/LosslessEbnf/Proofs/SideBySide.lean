import LosslessEbnf.Machine.Run
import LosslessEbnf.Proofs.Seams

/-!
# Steps side by side

Behind a seam the run on a part of a text and the run on the whole of it make the same steps.

## Main Definitions

* `Frame.Behind` — an open production that changes no node in front of a seam
* `Move.Alike`, `Outcome.Alike` — moves and outcomes that differ by the shift of a seam

## Main Statements

* `alike_step`, `alike_stepGrammar` — a step of either run comes to the same
* `alike_settle` — so do all steps for one character
* `alike_runText` — a run behind a seam accepts what the run on the part accepts, and the trees are
  alike

## Design Notes

Errors are not compared: it is enough that both runs fail. The positions of the open productions are
counted on from the seam, so a position in front of a character has to stand behind another one of
the part; for column 0 has nothing to its left.
-/

namespace LosslessEbnf

/-! ### Open productions -/

/-- How far a list of definitions has got, behind a character. -/
def ListStage.Passed : ListStage → Prop
  | .afterSlash slash => slash.Passed
  | _ => True

/-- An open production that changes nothing but nodes from `first` on. -/
def Frame.Behind (first : NodeId) : Frame → Prop
  | .grammar begun => begun = true
  | .comment node text _ => first ≤ node ∧ ∀ run, text = some run → first ≤ run
  | .product node _ _ => first ≤ node
  | .definitions node stage => first ≤ node ∧ stage.Passed
  | .definition node _ _ => first ≤ node
  | .term node _ _ => first ≤ node
  | .exception node _ _ => first ≤ node
  | .repetition node => first ≤ node
  | .paren parent _ => first ≤ parent
  | .opener _ parent _ => first ≤ parent
  | .bracket _ node _ => first ≤ node
  | .quoted _ node text => first ≤ node ∧ ∀ run, text = some run → first ≤ run
  | .identifier node parent _ => first ≤ node ∧ first ≤ parent
  | .run _ node => first ≤ node
  | .literal node _ _ _ => first ≤ node
  | .matched node _ _ => first ≤ node
  | .closing node => first ≤ node

/-- What the machine sees behind other text. -/
def Shift.sight (d : Shift) (sight : Sight) : Sight := ⟨sight.ahead, d.base.behind sight.here⟩

/-- Moves of the two runs that come to the same. -/
inductive Move.Alike (s : Seam) (items : List NodeId) : Move → Move → Prop
  /-- Both leave the character. -/
  | again {part whole : Tree} {frames : List Frame} (trees : s.Alike items part whole)
      (behind : ∀ frame ∈ frames, frame.Behind s.first) :
      Alike s items (.again part frames) (.again whole (frames.map s.shift.frame))
  /-- Both take it. -/
  | next {part whole : Tree} {frames : List Frame} (trees : s.Alike items part whole)
      (behind : ∀ frame ∈ frames, frame.Behind s.first) :
      Alike s items (.next part frames) (.next whole (frames.map s.shift.frame))
  /-- Both accept the text. -/
  | accept {part whole : Tree} (trees : s.Alike items part whole) :
      Alike s items (.accept part) (.accept whole)
  /-- Both refuse it. -/
  | reject {part whole : Tree} {cause cause' : Cause} :
      Alike s items (.reject part cause) (.reject whole cause')

namespace Move.Alike

variable {s : Seam} {items : List NodeId} {part : Tree} {frames : List Frame} {move : Move}

/-- If the run on the part leaves the character, so does the run on the whole text, with the same
productions open behind the seam. -/
theorem of_again (h : Move.Alike s items (.again part frames) move) :
    ∃ whole, move = .again whole (frames.map s.shift.frame) ∧ s.Alike items part whole ∧
      ∀ frame ∈ frames, frame.Behind s.first := by
  cases h with
  | again trees behind => exact ⟨_, rfl, trees, behind⟩

/-- If the run on the part takes the character, so does the run on the whole text, with the same
productions open behind the seam. -/
theorem of_next (h : Move.Alike s items (.next part frames) move) :
    ∃ whole, move = .next whole (frames.map s.shift.frame) ∧ s.Alike items part whole ∧
      ∀ frame ∈ frames, frame.Behind s.first := by
  cases h with
  | next trees behind => exact ⟨_, rfl, trees, behind⟩

end Move.Alike

/-- Both runs make the same choice, if what they ask comes to the same. -/
theorem Move.Alike.ite {s : Seam} {items : List NodeId} {p q : Prop} [Decidable p] [Decidable q]
    {yes no yes' no' : Move} (hiff : p ↔ q) (hyes : p → Move.Alike s items yes yes')
    (hno : ¬p → Move.Alike s items no no') :
    Move.Alike s items (if p then yes else no) (if q then yes' else no') := by
  by_cases h : p
  · rw [if_pos h, if_pos (hiff.mp h)]
    exact hyes h
  · rw [if_neg h, if_neg (mt hiff.mpr h)]
    exact hno h

section

variable {s : Seam} {items : List NodeId} {part whole : Tree} {limit : Nat} {sight : Sight}
  {frames below : List Frame} {node parent : NodeId}

theorem behind_cons (frame : Frame) (h : frame.Behind s.first)
    (hbelow : ∀ frame ∈ below, frame.Behind s.first) :
    ∀ frame' ∈ frame :: below, frame'.Behind s.first :=
  List.forall_mem_cons.mpr ⟨h, hbelow⟩

/-- A comment without text that can grow is behind the seam if its node is. -/
theorem behind_comment {stage : CommentStage} (h : s.first ≤ node) :
    (Frame.comment node none stage).Behind s.first :=
  ⟨h, fun _ heq => absurd heq (Option.some_ne_none _).symm⟩

/-- A text whose opening mark is still read is behind the seam if its node is. -/
theorem behind_quoted {form : Quoted} (h : s.first ≤ node) :
    (Frame.quoted form node none).Behind s.first :=
  ⟨h, fun _ heq => absurd heq (Option.some_ne_none _).symm⟩

/-- Both runs see the same character, so both refuse it, be it that the input has ended or not. -/
theorem alike_unexpected (expected : Expectation) :
    Move.Alike s items (sight.unexpected part expected)
      ((s.shift.sight sight).unexpected whole expected) := by
  obtain ⟨ahead, here⟩ := sight
  cases ahead <;> exact .reject

/-! ### Marks and runs -/

/-- Both runs have read the same text of a mark, and both keep the longest one that was found. Only
the place where it ends is counted from the seam. -/
theorem alike_settleLiteral (h : s.Alike items part whole)
    (hbelow : ∀ frame ∈ below, frame.Behind s.first) (hnode : s.first ≤ node)
    (best : Option (List Char × Position)) (cause cause' : Cause) :
    Move.Alike s items (settleLiteral part below node best cause)
      (settleLiteral whole (below.map s.shift.frame) (s.shift.number node)
        (best.map s.shift.best) cause') := by
  cases best with
  | none => exact .reject
  | some best => exact .again ((h.withData hnode _).withLast hnode _) hbelow

/-- Which marks are still to be had depends on what was read of them, and that is the same behind
the seam. -/
theorem alike_stepLiteral (h : s.Alike items part whole)
    (hbelow : ∀ frame ∈ below, frame.Behind s.first) (hnode : s.first ≤ node)
    (candidates : List String) (read : List Char) (best : Option (List Char × Position)) :
    Move.Alike s items (stepLiteral sight part below node candidates read best)
      (stepLiteral (s.shift.sight sight) whole (below.map s.shift.frame) (s.shift.number node)
        candidates read (best.map s.shift.best)) := by
  obtain ⟨ahead, here⟩ := sight
  unfold stepLiteral
  cases ahead with
  | none => exact alike_settleLiteral h hbelow hnode best _ _
  | some c =>
    dsimp only [Shift.sight]
    split
    · split
      · exact .next h (behind_cons _ hnode hbelow)
      · exact .next h (behind_cons _ hnode hbelow)
    · split
      · exact .next h (behind_cons _ hnode hbelow)
      · exact alike_settleLiteral h hbelow hnode best _ _

/-- A mark begins below a node behind the seam. -/
theorem alike_openLiteral (h : s.Alike items part whole)
    (hframes : ∀ frame ∈ frames, frame.Behind s.first) (hparent : s.first ≤ parent)
    (candidates : List String) :
    Move.Alike s items (openLiteral sight part frames parent candidates)
      (openLiteral (s.shift.sight sight) whole (frames.map s.shift.frame)
        (s.shift.number parent) candidates) := by
  unfold openLiteral
  rw [h.size_whole]
  exact alike_stepLiteral (h.push hparent .literal (.point sight.here) "") hframes h.first_le
    candidates [] none

/-- A number and white space grow in both runs, each at its own node and up to its own place. -/
theorem alike_stepRun (h : s.Alike items part whole)
    (hbelow : ∀ frame ∈ below, frame.Behind s.first) (hnode : s.first ≤ node) (run : Run) :
    Move.Alike s items (stepRun sight part below run node)
      (stepRun (s.shift.sight sight) whole (below.map s.shift.frame) run
        (s.shift.number node)) := by
  obtain ⟨ahead, here⟩ := sight
  unfold stepRun
  cases ahead with
  | none => exact .again h hbelow
  | some c =>
    dsimp only [Shift.sight]
    split
    · exact .next (h.extend hnode c here) (behind_cons _ hnode hbelow)
    · exact .again h hbelow

/-- The leaf for white space is the next node of either tree, and its number is counted on from the
seam. -/
theorem alike_openSpace (h : s.Alike items part whole)
    (hframes : ∀ frame ∈ frames, frame.Behind s.first) (hparent : s.first ≤ parent) :
    Move.Alike s items (openSpace sight part frames parent)
      (openSpace (s.shift.sight sight) whole (frames.map s.shift.frame)
        (s.shift.number parent)) := by
  obtain ⟨ahead, here⟩ := sight
  unfold openSpace
  cases ahead with
  | none => exact .reject
  | some c =>
    dsimp only [Shift.sight]
    split
    · rw [h.size_whole]
      exact .next (h.push hparent .space (.point here) (String.singleton c))
        (behind_cons _ h.first_le hframes)
    · exact .reject

/-! ### Comments -/

/-- Text of a comment goes into the leaf that both runs have for it, or into a new one, which both
of them note. -/
theorem alike_addText (h : s.Alike items part whole) (hnode : s.first ≤ node)
    {text : Option NodeId} (htext : ∀ run, text = some run → s.first ≤ run) (c : Char)
    (here : Position) :
    s.Alike items (addText part node text c here).1
        (addText whole (s.shift.number node) (text.map s.shift.number) c
          (s.shift.base.behind here)).1 ∧
      (addText whole (s.shift.number node) (text.map s.shift.number) c
        (s.shift.base.behind here)).2 = s.shift.number (addText part node text c here).2 ∧
      s.first ≤ (addText part node text c here).2 := by
  cases text with
  | none => exact ⟨h.push hnode .text (.point here) _, h.size_whole, h.first_le⟩
  | some run => exact ⟨h.extend (htext run rfl) c here, rfl, htext run rfl⟩

/-- Both runs make the same stage of a comment. The limit is compared with the open productions, and
these are as many behind the seam. -/
theorem alike_stepComment (h : s.Alike items part whole)
    (hbelow : ∀ frame ∈ below, frame.Behind s.first) (hnode : s.first ≤ node)
    {text : Option NodeId} (htext : ∀ run, text = some run → s.first ≤ run)
    (stage : CommentStage) :
    Move.Alike s items (stepComment limit sight part below node text stage)
      (stepComment limit (s.shift.sight sight) whole (below.map s.shift.frame)
        (s.shift.number node) (text.map s.shift.number) (s.shift.commentStage stage)) := by
  obtain ⟨ahead, here⟩ := sight
  have hrun : ∀ {run}, s.first ≤ run → ∀ run', some run = some run' → s.first ≤ run' :=
    fun hle _ heq => Option.some.inj heq ▸ hle
  cases ahead with
  | none => exact .reject
  | some c =>
    cases stage with
    | body =>
      obtain ⟨htrees, hnumber, hle⟩ := alike_addText h hnode htext c here
      unfold stepComment
      dsimp only [Shift.sight, Shift.commentStage]
      split
      · exact .next h (behind_cons _ ⟨hnode, htext⟩ hbelow)
      · rw [hnumber]
        exact .next htrees (behind_cons _ ⟨hnode, hrun hle⟩ hbelow)
    | mark first start =>
      obtain ⟨htrees, hnumber, hle⟩ := alike_addText h hnode htext first start
      unfold stepComment
      dsimp only [Shift.sight, Shift.commentStage]
      split
      · exact .next ((h.push hnode .literal ⟨start, here⟩ "*)").withLast hnode here) hbelow
      · split
        · exact .next h (behind_cons _ ⟨hnode, htext⟩ hbelow)
        · rw [hnumber]
          exact .again htrees (behind_cons _ ⟨hnode, hrun hle⟩ hbelow)
    | opened opener =>
      have hnesting := s.shift.nesting_map (.comment node text (.opened opener) :: below)
      show Move.Alike s items (if limit ≤ nesting _ then .reject part _ else .again _ _)
        (if limit ≤ nesting ((Frame.comment node text (.opened opener) :: below).map s.shift.frame)
          then .reject whole _ else .again _ _)
      rw [hnesting]
      split
      · exact .reject
      · rw [h.size_whole]
        exact .again ((h.push hnode .comment ⟨opener.first, here⟩ "").push h.first_le .literal
          opener "(*") (behind_cons _ (behind_comment h.first_le)
            (behind_cons _ (behind_comment hnode) hbelow))

/-- A comment that begins below the root is one more item, and both roots get it as their last
child. -/
theorem alike_openComment (h : s.Alike items part whole)
    (hframes : ∀ frame ∈ frames, frame.Behind s.first) :
    Move.Alike s (items ++ [part.size]) (openComment limit sight part frames Tree.root)
      (openComment limit (s.shift.sight sight) whole (frames.map s.shift.frame) Tree.root) := by
  unfold openComment
  rw [s.shift.nesting_map]
  split
  · exact .reject
  · rw [h.size_whole]
    exact alike_openLiteral (h.pushItem .comment (.point sight.here) "")
      (behind_cons _ (behind_comment h.first_le) hframes) h.first_le ["(*"]

/-! ### Primaries -/

/-- A name takes the same characters in both runs, and it leaves the same white space at its end, in
a leaf behind it. -/
theorem alike_stepIdentifier (h : s.Alike items part whole)
    (hbelow : ∀ frame ∈ below, frame.Behind s.first) (hnode : s.first ≤ node)
    (hparent : s.first ≤ parent) (trailing : Option Span) :
    Move.Alike s items (stepIdentifier sight part below node parent trailing)
      (stepIdentifier (s.shift.sight sight) whole (below.map s.shift.frame)
        (s.shift.number node) (s.shift.number parent) (trailing.map s.shift.span)) := by
  have hended : ∀ trailing : Option Span,
      Move.Alike s items (stepIdentifier ⟨none, sight.here⟩ part below node parent trailing)
        (stepIdentifier ⟨none, s.shift.base.behind sight.here⟩ whole (below.map s.shift.frame)
          (s.shift.number node) (s.shift.number parent) (trailing.map s.shift.span)) := by
    intro trailing
    unfold stepIdentifier
    cases trailing with
    | none => exact .again h hbelow
    | some span =>
      dsimp only [Option.map_some]
      rw [h.data_eq hnode]
      exact .again ((h.withData hnode _).push hparent .space span _) hbelow
  obtain ⟨ahead, here⟩ := sight
  cases ahead with
  | none => exact hended trailing
  | some c =>
    unfold stepIdentifier at hended ⊢
    dsimp only [Shift.sight]
    split
    · split
      · cases trailing with
        | none => exact .next (h.pushText hnode c) (behind_cons _ ⟨hnode, hparent⟩ hbelow)
        | some span => exact .next (h.pushText hnode c) (behind_cons _ ⟨hnode, hparent⟩ hbelow)
      · exact .next (h.extend hnode c here) (behind_cons _ ⟨hnode, hparent⟩ hbelow)
    · exact hended trailing

/-- The leaf for a name begins with the letter that both runs see. -/
theorem alike_openIdentifier (h : s.Alike items part whole)
    (hframes : ∀ frame ∈ frames, frame.Behind s.first) (hparent : s.first ≤ parent) (c : Char) :
    Move.Alike s items (openIdentifier sight part frames parent c)
      (openIdentifier (s.shift.sight sight) whole (frames.map s.shift.frame)
        (s.shift.number parent) c) := by
  unfold openIdentifier
  rw [h.size_whole]
  exact .next (h.push hparent (.primary .identifier) (.point sight.here) (String.singleton c))
    (behind_cons _ ⟨h.first_le, hparent⟩ hframes)

/-- The text between the quotes is the same. It ends to the left of the closing quote, and this is
behind the seam because a quote has been passed. -/
theorem alike_stepQuoted (h : s.Alike items part whole)
    (hbelow : ∀ frame ∈ below, frame.Behind s.first) (hhere : sight.here.Passed)
    (hnode : s.first ≤ node) (form : Quoted) {text : Option NodeId}
    (htext : ∀ run, text = some run → s.first ≤ run) :
    Move.Alike s items (stepQuoted sight part below form node text)
      (stepQuoted (s.shift.sight sight) whole (below.map s.shift.frame) form
        (s.shift.number node) (text.map s.shift.number)) := by
  unfold stepQuoted
  cases text with
  | none =>
    dsimp only [Option.map_none]
    rw [h.size_whole]
    exact .again (h.push hnode .text (.point sight.here) "")
      (behind_cons _ ⟨hnode, fun _ heq => Option.some.inj heq ▸ h.first_le⟩ hbelow)
  | some run =>
    have hrun := htext run rfl
    obtain ⟨ahead, here⟩ := sight
    cases ahead with
    | none => exact .reject
    | some c =>
      dsimp only [Option.map_some, Shift.sight]
      split
      · rw [← Position.left_behind hhere]
        exact alike_openLiteral (h.withLast hrun here.left)
          (behind_cons (.closing node) hnode hbelow) hnode _
      · exact .next (h.pushText hrun c) (behind_cons _ ⟨hnode, htext⟩ hbelow)

/-- Both runs open the node of a quoted text and look for the same quote. -/
theorem alike_openQuoted (h : s.Alike items part whole)
    (hframes : ∀ frame ∈ frames, frame.Behind s.first) (hparent : s.first ≤ parent)
    (form : Quoted) :
    Move.Alike s items (openQuoted sight part frames parent form)
      (openQuoted (s.shift.sight sight) whole (frames.map s.shift.frame)
        (s.shift.number parent) form) := by
  have hkind : s.shift.kind (.primary form.primary) = .primary form.primary := by
    cases form <;> rfl
  have htrees := h.push hparent (.primary form.primary) (.point sight.here) ""
  unfold openQuoted
  rw [hkind] at htrees
  rw [h.size_whole]
  exact alike_openLiteral htrees (behind_cons _ (behind_quoted h.first_le) hframes) h.first_le _

/-- A bracket is refused by both runs or by none, since equally many comments and brackets are
open. -/
theorem alike_openBracket (h : s.Alike items part whole)
    (hframes : ∀ frame ∈ frames, frame.Behind s.first) (hparent : s.first ≤ parent)
    (b : Bracket) :
    Move.Alike s items (openBracket limit sight part frames parent b)
      (openBracket limit (s.shift.sight sight) whole (frames.map s.shift.frame)
        (s.shift.number parent) b) := by
  unfold openBracket
  dsimp only
  rw [s.shift.nesting_map]
  split
  · exact .reject
  · rw [h.size_whole, ← Shift.number_succ (Seam.number_pos h.first_le)]
    exact alike_openLiteral
      (h.push hparent (.primary (.bracketed b none)) (.point sight.here) "")
      (behind_cons (.bracket b part.size (.opened (part.size + 1))) h.first_le hframes) h.first_le
      b.openers

/-- The opener that has been read becomes a leaf in both trees, with a span that is counted on from
the seam. -/
theorem alike_attachBracket (h : s.Alike items part whole)
    (hframes : ∀ frame ∈ frames, frame.Behind s.first) (hparent : s.first ≤ parent)
    (b : Bracket) (opener : Span) :
    Move.Alike s items (attachBracket limit sight part frames parent b opener)
      (attachBracket limit (s.shift.sight sight) whole (frames.map s.shift.frame)
        (s.shift.number parent) b (s.shift.span opener)) := by
  unfold attachBracket
  dsimp only
  rw [s.shift.nesting_map]
  split
  · exact .reject
  · rw [h.size_whole, ← Shift.number_succ (Seam.number_pos h.first_le)]
    exact .again ((h.push hparent (.primary (.bracketed b none)) ⟨opener.first, sight.here⟩ "").push
      h.first_le .literal opener b.roundOpener) (behind_cons _ h.first_le hframes)

/-- What follows a parenthesis is the same in both runs, and the parenthesis stands as far behind
the seam as in the part. -/
theorem alike_stepParen (h : s.Alike items part whole)
    (hbelow : ∀ frame ∈ below, frame.Behind s.first) (hparent : s.first ≤ parent)
    (start : Position) :
    Move.Alike s items (stepParen limit sight part below parent start)
      (stepParen limit (s.shift.sight sight) whole (below.map s.shift.frame)
        (s.shift.number parent) (s.shift.base.behind start)) := by
  obtain ⟨ahead, here⟩ := sight
  unfold stepParen
  cases ahead with
  | none => exact .reject
  | some c =>
    dsimp only [Shift.sight]
    split
    · exact .next h (behind_cons _ hparent hbelow)
    · split
      · exact .next h (behind_cons _ hparent hbelow)
      · exact alike_attachBracket h hbelow hparent .grouped (.point start)

/-- A bracket notes its opener as a component, and the numbers of both components differ by the
shift as all do. -/
theorem alike_stepBracket (h : s.Alike items part whole)
    (hbelow : ∀ frame ∈ below, frame.Behind s.first) (hnode : s.first ≤ node) (b : Bracket)
    (stage : BracketStage) :
    Move.Alike s items (stepBracket sight part below b node stage)
      (stepBracket (s.shift.sight sight) whole (below.map s.shift.frame) b
        (s.shift.number node) (s.shift.bracketStage stage)) := by
  unfold stepBracket
  cases stage with
  | opened opening =>
    have hkind : s.Alike items _ (whole.withKind (s.shift.number node)
        (.primary (.bracketed b (some (s.shift.number opening))))) :=
      h.withKind hnode (.primary (.bracketed b (some opening)))
    refine .ite Iff.rfl (fun _ => ?_) fun _ => ?_
    · exact alike_openSpace hkind (behind_cons (.bracket b node (.opened opening)) hnode hbelow)
        hnode
    · rw [hkind.size_whole]
      exact .again (hkind.push hnode .definitionList (.point sight.here) "")
        (behind_cons _ ⟨hkind.first_le, trivial⟩ (behind_cons _ hnode hbelow))
  | body closer =>
    cases closer with
    | none => exact alike_openLiteral h (behind_cons (.closing node) hnode hbelow) hnode b.closers
    | some closer =>
      dsimp only [Shift.bracketStage, Option.map_some]
      split
      · exact .again ((h.push hnode .literal closer "/)").withLast hnode closer.last) hbelow
      · exact .reject

/-- The character decides which primary begins, and it is the same in both runs. -/
theorem alike_openPrimary (h : s.Alike items part whole)
    (hframes : ∀ frame ∈ frames, frame.Behind s.first) (hparent : s.first ≤ parent) (c : Char) :
    Move.Alike s items (openPrimary limit sight part frames parent c)
      (openPrimary limit (s.shift.sight sight) whole (frames.map s.shift.frame)
        (s.shift.number parent) c) := by
  unfold openPrimary
  split
  · rw [expectIdentifier_of_isLetter ‹_›, expectIdentifier_of_isLetter ‹_›]
    exact alike_openIdentifier h hframes hparent c
  split
  · rw [expectTerminal_of_isQuote ‹_›, expectTerminal_of_isQuote ‹_›]
    exact alike_openQuoted h hframes hparent (.terminal c)
  split
  · exact alike_openBracket h hframes hparent .repeated
  split
  · exact alike_openBracket h hframes hparent .optional
  split
  · exact alike_openQuoted h hframes hparent .special
  split
  · exact .next h (behind_cons _ hparent hframes)
  · exact alike_unexpected .primaryStart

/-! ### Terms -/

/-- An empty span in front of a place that was reached by reading is moved as one. Only the columns
of the first line are moved, and there such a place has room to its left. -/
theorem Shift.span_gap {d : Shift} {here : Position} (h : here.Passed) :
    d.span (.gap here) = .gap (d.base.behind here) := by
  rw [Shift.span, Span.gap, Position.left_behind h]
  rfl

/-- The empty string lies in front of a character that has been passed, so its span is moved like
all others. -/
theorem alike_addEmptyString (h : s.Alike items part whole) (hparent : s.first ≤ parent)
    {here : Position} (hhere : here.Passed) :
    s.Alike items (addEmptyString part parent here)
      (addEmptyString whole (s.shift.number parent) (s.shift.base.behind here)) := by
  have htrees := h.push hparent (.primary .emptyString) (.gap here) ""
  rwa [Shift.span_gap hhere] at htrees

/-- An empty term is two nodes in both trees, and the outer one names the inner one as its
primary. -/
theorem alike_addEmptyTerm (h : s.Alike items part whole) (hparent : s.first ≤ parent)
    {here : Position} (hhere : here.Passed) :
    s.Alike items (addEmptyTerm part parent here)
      (addEmptyTerm whole (s.shift.number parent) (s.shift.base.behind here)) := by
  have hterm := h.push hparent (.term {}) (.gap here) ""
  rw [Shift.span_gap hhere] at hterm
  unfold addEmptyTerm
  dsimp only
  rw [h.size_whole, ← Shift.number_succ (Seam.number_pos h.first_le)]
  exact (alike_addEmptyString hterm h.first_le hhere).withKind h.first_le
    (.term ⟨none, some (part.size + 1), none⟩)

/-- A term without a primary gets an empty string in both runs, as neither tree holds one. -/
theorem alike_endTerm (h : s.Alike items part whole)
    (hbelow : ∀ frame ∈ below, frame.Behind s.first) (hhere : sight.here.Passed)
    (hnode : s.first ≤ node) (parts : TermParts) :
    Move.Alike s items (endTerm sight part below node parts)
      (endTerm (s.shift.sight sight) whole (below.map s.shift.frame) (s.shift.number node)
        (s.shift.parts parts)) := by
  obtain ⟨repetition, primary, exception⟩ := parts
  cases primary with
  | some primary => exact .again (h.closeAtLastChild hnode) hbelow
  | none =>
    unfold endTerm
    dsimp only [Shift.parts, Option.map_none]
    rw [h.size_whole]
    exact .again (((alike_addEmptyString h hnode hhere).withKind hnode
      (.term ⟨repetition, some part.size, exception⟩)).closeAtLastChild hnode) hbelow

/-- Both runs know the same parts of the term, so they let in the same ones, and both refuse a part
that is there already. -/
theorem alike_stepTerm (h : s.Alike items part whole)
    (hbelow : ∀ frame ∈ below, frame.Behind s.first) (hhere : sight.here.Passed)
    (hnode : s.first ≤ node) (parts : TermParts) (dash : Bool) :
    Move.Alike s items (stepTerm limit sight part below node parts dash)
      (stepTerm limit (s.shift.sight sight) whole (below.map s.shift.frame) (s.shift.number node)
        (s.shift.parts parts) dash) := by
  have hkind : s.Alike items (part.withKind node (.term parts))
      (whole.withKind (s.shift.number node) (.term (s.shift.parts parts))) :=
    h.withKind hnode (.term parts)
  unfold stepTerm
  dsimp only
  generalize part.withKind node (.term parts) = part at hkind ⊢
  generalize whole.withKind (s.shift.number node) (.term (s.shift.parts parts)) = whole at hkind ⊢
  have hframe : ∀ parts dash, (Frame.term node parts dash).Behind s.first := fun _ _ => hnode
  refine .ite Iff.rfl (fun _ => ?_) fun _ => ?_
  · rw [hkind.size_whole]
    exact .again (hkind.push hnode (.exception none) (.point sight.here) "")
      (behind_cons _ hkind.first_le (behind_cons _ (hframe ..) hbelow))
  obtain ⟨ahead, here⟩ := sight
  cases ahead with
  | none => exact alike_endTerm hkind hbelow hhere hnode parts
  | some c =>
    dsimp only [Shift.sight]
    refine .ite Iff.rfl (fun _ => ?_) fun _ => .ite Iff.rfl (fun digit => ?_) fun _ =>
      .ite Iff.rfl (fun _ => ?_) fun _ => .ite Iff.rfl (fun _ => ?_) fun _ => ?_
    · exact alike_openSpace hkind (behind_cons _ (hframe ..) hbelow) hnode
    · obtain ⟨repetition, primary, exception⟩ := parts
      cases repetition with
      | some held => exact .reject
      | none =>
        dsimp only [Shift.parts, Option.map_none]
        rw [openRepetition_of_isDigit digit, openRepetition_of_isDigit digit, hkind.size_whole,
          ← Shift.number_succ (Seam.number_pos hkind.first_le)]
        exact .next ((hkind.push hnode .repetition (.point here) "").push hkind.first_le .number
          (.point here) (String.singleton c)) (behind_cons _ (Nat.le_succ_of_le hkind.first_le)
            (behind_cons _ hkind.first_le (behind_cons _ (hframe ..) hbelow)))
    · obtain ⟨repetition, primary, exception⟩ := parts
      cases exception with
      | some held => exact .reject
      | none => exact alike_openLiteral hkind (behind_cons _ (hframe ..) hbelow) hnode ["-"]
    · obtain ⟨repetition, primary, exception⟩ := parts
      cases primary with
      | some held => exact .reject
      | none =>
        dsimp only [Shift.parts, Option.map_none]
        rw [hkind.size_whole]
        exact alike_openPrimary hkind (behind_cons _ (hframe ⟨repetition, some _, exception⟩ false)
          hbelow) hnode c
    · exact alike_endTerm hkind hbelow hhere hnode parts

/-- An exception without a primary gets an empty string in both runs. -/
theorem alike_endException (h : s.Alike items part whole)
    (hbelow : ∀ frame ∈ below, frame.Behind s.first) (hhere : sight.here.Passed)
    (hnode : s.first ≤ node) (primary : Option NodeId) :
    Move.Alike s items (endException sight part below node primary)
      (endException (s.shift.sight sight) whole (below.map s.shift.frame) (s.shift.number node)
        (primary.map s.shift.number)) := by
  cases primary with
  | some primary => exact .again (h.closeAtLastChild hnode) hbelow
  | none =>
    unfold endException
    dsimp only [Option.map_none]
    rw [h.size_whole]
    exact .again (((alike_addEmptyString h hnode hhere).withKind hnode
      (.exception (some part.size))).closeAtLastChild hnode) hbelow

/-- Both runs know whether the exception has its primary, and both refuse a second one. -/
theorem alike_stepException {term : NodeId} (h : s.Alike items part whole)
    (hbelow : ∀ frame ∈ below, frame.Behind s.first) (hhere : sight.here.Passed)
    (hnode : s.first ≤ node) (primary : Option NodeId) :
    Move.Alike s items (stepException limit sight part below node term primary)
      (stepException limit (s.shift.sight sight) whole (below.map s.shift.frame)
        (s.shift.number node) (s.shift.number term) (primary.map s.shift.number)) := by
  have hkind : s.Alike items (part.withKind node (.exception primary))
      (whole.withKind (s.shift.number node) (.exception (primary.map s.shift.number))) :=
    h.withKind hnode (.exception primary)
  have hframe : ∀ primary, (Frame.exception node term primary).Behind s.first := fun _ => hnode
  unfold stepException
  dsimp only
  generalize part.withKind node (.exception primary) = part at hkind ⊢
  generalize whole.withKind (s.shift.number node) (.exception (primary.map s.shift.number)) = whole
    at hkind ⊢
  obtain ⟨ahead, here⟩ := sight
  cases ahead with
  | none => exact alike_endException hkind hbelow hhere hnode primary
  | some c =>
    dsimp only [Shift.sight]
    refine .ite Iff.rfl (fun _ => ?_) fun _ => .ite Iff.rfl (fun _ => ?_) fun _ => ?_
    · exact alike_openSpace hkind (behind_cons _ (hframe _) hbelow) hnode
    · cases primary with
      | some held => exact .reject
      | none =>
        dsimp only [Option.map_none]
        rw [hkind.size_whole]
        exact alike_openPrimary hkind (behind_cons _ (hframe (some _)) hbelow) hnode c
    · exact alike_endException hkind hbelow hhere hnode primary

/-- White space in front of the star, and the star itself, are leaves at the same place of both
trees. -/
theorem alike_stepRepetition (h : s.Alike items part whole)
    (hbelow : ∀ frame ∈ below, frame.Behind s.first) (hnode : s.first ≤ node) :
    Move.Alike s items (stepRepetition sight part below node)
      (stepRepetition (s.shift.sight sight) whole (below.map s.shift.frame)
        (s.shift.number node)) :=
  .ite Iff.rfl (fun _ => alike_openSpace h (behind_cons (.repetition node) hnode hbelow) hnode)
    fun _ => alike_openLiteral h (behind_cons (.closing node) hnode hbelow) hnode ["*"]

/-! ### Definitions and products -/

/-- A definition lacks a term in both runs or in none. -/
theorem alike_addMissingTerm (h : s.Alike items part whole) (hnode : s.first ≤ node)
    (term : Option NodeId) {here : Position} (hhere : here.Passed) :
    s.Alike items (addMissingTerm part node term here)
      (addMissingTerm whole (s.shift.number node) (term.map s.shift.number)
        (s.shift.base.behind here)) := by
  cases term with
  | some _ => exact h
  | none => exact alike_addEmptyTerm h hnode hhere

/-- A definition notes its last term, and the numbers of both terms differ by the shift. So both
runs add an empty term, or none does. -/
theorem alike_stepDefinition (h : s.Alike items part whole)
    (hbelow : ∀ frame ∈ below, frame.Behind s.first) (hhere : sight.here.Passed)
    (hnode : s.first ≤ node) (start : Position) (term : Option NodeId) :
    Move.Alike s items (stepDefinition sight part below node start term)
      (stepDefinition (s.shift.sight sight) whole (below.map s.shift.frame) (s.shift.number node)
        (s.shift.base.behind start) (term.map s.shift.number)) := by
  have hframe : ∀ term, (Frame.definition node start term).Behind s.first := fun _ => hnode
  obtain ⟨ahead, here⟩ := sight
  unfold stepDefinition
  cases ahead with
  | none => exact .reject
  | some c =>
    dsimp only [Shift.sight]
    refine .ite Iff.rfl (fun _ => ?_) fun _ => .ite Iff.rfl (fun _ => ?_) fun _ =>
      .ite Iff.rfl (fun _ => ?_) fun _ => ?_
    · exact alike_openSpace h (behind_cons _ (hframe _) hbelow) hnode
    · cases term with
      | some previous => exact .reject
      | none =>
        dsimp only [Option.map_none]
        rw [h.size_whole]
        exact .again (h.push hnode (.term {}) (.point here) "")
          (behind_cons _ h.first_le (behind_cons _ (hframe (some _)) hbelow))
    · exact alike_openLiteral (alike_addMissingTerm h hnode term hhere)
        (behind_cons _ (hframe none) hbelow) hnode [","]
    · have hended := (alike_addMissingTerm h hnode term hhere).withLast hnode here.left
      rw [Position.left_behind hhere] at hended
      exact .again hended hbelow

/-- The closer that is handed over changes the stage of the production that gets it, but not the
node that it is about. -/
theorem behind_handOver (closer : Span) (hbelow : ∀ frame ∈ below, frame.Behind s.first) :
    ∀ frame ∈ handOver closer below, frame.Behind s.first := by
  cases below with
  | nil => exact hbelow
  | cons frame below =>
    obtain ⟨hframe, hbelow'⟩ := List.forall_mem_cons.mp hbelow
    cases frame with
    | product node lhs stage =>
      cases stage with
      | body list _ => exact behind_cons _ hframe hbelow'
      | _ => exact hbelow
    | bracket b node stage =>
      cases stage with
      | body _ => exact behind_cons _ hframe hbelow'
      | _ => exact hbelow
    | _ => exact hbelow

/-- A list goes on and ends at the same characters. It ends to the left of the slash of its closer,
which is behind the seam. -/
theorem alike_stepDefinitions (h : s.Alike items part whole)
    (hbelow : ∀ frame ∈ below, frame.Behind s.first) (hhere : sight.here.Passed)
    (hnode : s.first ≤ node) {stage : ListStage} (hstage : stage.Passed) :
    Move.Alike s items (stepDefinitions sight part below node stage)
      (stepDefinitions (s.shift.sight sight) whole (below.map s.shift.frame)
        (s.shift.number node) (s.shift.listStage stage)) := by
  have hstart : (Frame.definitions node .start).Behind s.first := ⟨hnode, trivial⟩
  unfold stepDefinitions
  cases stage with
  | start =>
    refine .ite Iff.rfl (fun _ => ?_) fun _ => ?_
    · exact alike_openSpace h (behind_cons _ hstart hbelow) hnode
    · rw [h.size_whole]
      exact .again (h.push hnode .definition (.point sight.here) "")
        (behind_cons _ h.first_le (behind_cons (.definitions node .afterDefinition)
          ⟨hnode, trivial⟩ hbelow))
  | afterDefinition =>
    have hended := h.withLast hnode sight.here.left
    rw [Position.left_behind hhere] at hended
    obtain ⟨ahead, here⟩ := sight
    cases ahead with
    | none => exact .again hended hbelow
    | some c =>
      dsimp only [Shift.sight, Shift.listStage]
      refine .ite Iff.rfl (fun _ => ?_) fun _ => .ite Iff.rfl (fun _ => ?_) fun _ => ?_
      · exact .next hended
          (behind_cons (.definitions node (.afterSlash here)) ⟨hnode, hhere⟩ hbelow)
      · exact alike_openLiteral hended (behind_cons _ hstart hbelow) hnode Marks.separators
      · exact .again hended hbelow
  | afterSlash slash =>
    have hended := h.withLast hnode slash.left
    rw [Position.left_behind hstage] at hended
    obtain ⟨ahead, here⟩ := sight
    cases ahead with
    | none => exact .reject
    | some c =>
      dsimp only [Shift.sight, Shift.listStage]
      refine .ite Iff.rfl (fun _ => ?_) fun _ => ?_
      · rw [show Span.mk (s.shift.base.behind slash) (s.shift.base.behind here) =
          s.shift.span ⟨slash, here⟩ from rfl, Shift.handOver_map]
        exact .next hended (behind_handOver ⟨slash, here⟩ hbelow)
      · exact .again (h.push hnode .literal (.point slash) "/") (behind_cons _ hstart hbelow)

/-- A product notes its name and its list as components, and both are counted on from the seam. -/
theorem alike_stepProduct {lhs : NodeId} (h : s.Alike items part whole)
    (hbelow : ∀ frame ∈ below, frame.Behind s.first) (hnode : s.first ≤ node)
    (stage : ProductStage) :
    Move.Alike s items (stepProduct sight part below node lhs stage)
      (stepProduct (s.shift.sight sight) whole (below.map s.shift.frame) (s.shift.number node)
        (s.shift.number lhs) (s.shift.productStage stage)) := by
  have hframe : ∀ stage, (Frame.product node lhs stage).Behind s.first := fun _ => hnode
  unfold stepProduct
  cases stage with
  | name =>
    have hkind := h.withKind hnode (.product (some lhs) none)
    exact .ite Iff.rfl
      (fun _ => alike_openLiteral hkind (behind_cons _ (hframe .equals) hbelow) hnode ["="])
      fun _ => alike_unexpected .equalsSign
  | equals =>
    refine .ite Iff.rfl (fun _ => ?_) fun _ => ?_
    · exact alike_openSpace h (behind_cons _ (hframe .equals) hbelow) hnode
    · rw [h.size_whole]
      exact .again (h.push hnode .definitionList (.point sight.here) "")
        (behind_cons _ ⟨h.first_le, trivial⟩ (behind_cons _ (hframe (.body _ none)) hbelow))
  | body list closer =>
    have hkind := h.withKind hnode (.product (some lhs) (some list))
    cases closer with
    | some _ => exact .reject
    | none =>
      exact alike_openLiteral hkind (behind_cons (.closing node) hnode hbelow) hnode
        Marks.terminators

/-- A product that begins below the root is one more item, and both roots get it as their last
child. -/
theorem alike_openProduct (h : s.Alike items part whole)
    (hframes : ∀ frame ∈ frames, frame.Behind s.first) (c : Char) :
    Move.Alike s (items ++ [part.size]) (openProduct sight part frames Tree.root c)
      (openProduct (s.shift.sight sight) whole (frames.map s.shift.frame) Tree.root c) := by
  refine .ite Iff.rfl (fun letter => ?_) fun _ => alike_unexpected .letter
  rw [expectIdentifier_of_isLetter letter, expectIdentifier_of_isLetter letter, h.size_whole,
    ← Shift.number_succ (Seam.number_pos h.first_le)]
  exact alike_openIdentifier (h.pushItem (.product none none) (.point sight.here) "")
    (behind_cons (.product part.size (part.size + 1) .name) h.first_le hframes) h.first_le c

/-! ### All steps -/

/-- **Step lemma.** A step inside an item of the text comes to the same in both runs. A step between
items may add one, see `alike_stepGrammar`. -/
theorem alike_step {frame : Frame} (h : s.Alike items part whole)
    (hframes : ∀ frame' ∈ frame :: below, frame'.Behind s.first) (hhere : sight.here.Passed)
    (hgrammar : ∀ begun, frame ≠ .grammar begun) :
    Move.Alike s items (step limit sight part (frame :: below))
      (step limit (s.shift.sight sight) whole ((frame :: below).map s.shift.frame)) := by
  obtain ⟨hframe, hbelow⟩ := List.forall_mem_cons.mp hframes
  cases frame with
  | grammar begun => exact absurd rfl (hgrammar begun)
  | comment node text stage => exact alike_stepComment h hbelow hframe.1 hframe.2 stage
  | product node lhs stage => exact alike_stepProduct h hbelow hframe stage
  | definitions node stage => exact alike_stepDefinitions h hbelow hhere hframe.1 hframe.2
  | definition node start term => exact alike_stepDefinition h hbelow hhere hframe start term
  | term node parts dash => exact alike_stepTerm h hbelow hhere hframe parts dash
  | exception node term primary => exact alike_stepException h hbelow hhere hframe primary
  | repetition node => exact alike_stepRepetition h hbelow hframe
  | paren parent start => exact alike_stepParen h hbelow hframe start
  | opener b parent span => exact alike_attachBracket h hbelow hframe b span
  | bracket b node stage => exact alike_stepBracket h hbelow hframe b stage
  | quoted form node text => exact alike_stepQuoted h hbelow hhere hframe.1 form hframe.2
  | identifier node parent trailing =>
    exact alike_stepIdentifier h hbelow hframe.1 hframe.2 trailing
  | run run node => exact alike_stepRun h hbelow hframe run
  | literal node candidates read best =>
    exact alike_stepLiteral h hbelow hframe candidates read best
  | matched node text last => exact .again ((h.withData hframe _).withLast hframe last) hbelow
  | closing node => exact .again (h.closeAtLastChild hframe) hbelow

/-- Between the items of the text an item begins for the same character in both runs, and its node
is the next child of either root. -/
theorem alike_stepGrammar_some (h : s.Alike items part whole)
    (hbelow : ∀ frame ∈ below, frame.Behind s.first) (c : Char) (here : Position) :
    Move.Alike s (items ++ [part.size]) (step limit ⟨some c, here⟩ part (.grammar true :: below))
      (step limit (s.shift.sight ⟨some c, here⟩) whole
        ((.grammar true :: below).map s.shift.frame)) := by
  have hframes : ∀ frame ∈ Frame.grammar true :: below, frame.Behind s.first :=
    behind_cons _ rfl hbelow
  refine .ite Iff.rfl (fun _ => ?_) fun _ => .ite Iff.rfl (fun _ => ?_)
    fun _ => .ite Iff.rfl (fun hspace => ?_) fun _ => alike_unexpected .item
  · exact alike_openComment h hframes
  · exact alike_openProduct h hframes c
  · unfold openSpace
    dsimp only [Shift.sight]
    rw [if_pos hspace, if_pos hspace, h.size_whole]
    exact .next (h.pushItem .space (.point here) (String.singleton c))
      (behind_cons _ h.first_le hframes)

/-- Between the items of the text the text ends or an item begins. -/
theorem alike_stepGrammar (h : s.Alike items part whole)
    (hbelow : ∀ frame ∈ below, frame.Behind s.first) :
    ∃ items', Move.Alike s items' (step limit sight part (.grammar true :: below))
      (step limit (s.shift.sight sight) whole ((.grammar true :: below).map s.shift.frame)) := by
  obtain ⟨ahead, here⟩ := sight
  cases ahead with
  | none => exact ⟨items, .accept (h.withLast_root here _)⟩
  | some c => exact ⟨items ++ [part.size], alike_stepGrammar_some h hbelow c here⟩

/-! ### Runs -/

/-- Outcomes of the two runs that come to the same. -/
inductive Outcome.Alike (s : Seam) : Outcome → Outcome → Prop
  /-- Both wait for the next character. -/
  | waiting {items : List NodeId} {part whole : Tree} {frames : List Frame}
      (trees : s.Alike items part whole) (behind : ∀ frame ∈ frames, frame.Behind s.first) :
      Alike s (.waiting part frames) (.waiting whole (frames.map s.shift.frame))
  /-- Both accept the text. -/
  | accepted {items : List NodeId} {part whole : Tree} (trees : s.Alike items part whole) :
      Alike s (.accepted part) (.accepted whole)
  /-- Both refuse it. -/
  | rejected {part whole : Tree} {cause cause' : Cause} :
      Alike s (.rejected part cause) (.rejected whole cause')

/-- All steps for one character come to the same in both runs, since each of them does and leaves
trees that are alike. -/
theorem alike_settle (h : s.Alike items part whole)
    (hframes : ∀ frame ∈ frames, frame.Behind s.first) (hhere : sight.here.Passed) :
    Outcome.Alike s (settle limit sight part frames)
      (settle limit (s.shift.sight sight) whole (frames.map s.shift.frame)) := by
  induction hweight : weight frames using Nat.strongRecOn generalizing items part whole frames with
  | ind n ih =>
    have hstep : ∃ items', Move.Alike s items' (step limit sight part frames)
        (step limit (s.shift.sight sight) whole (frames.map s.shift.frame)) := by
      cases frames with
      | nil => exact ⟨items, .accept h⟩
      | cons frame below =>
        obtain ⟨hframe, hbelow⟩ := List.forall_mem_cons.mp hframes
        by_cases hgrammar : frame = .grammar true
        · subst hgrammar
          exact alike_stepGrammar h hbelow
        · exact ⟨items, alike_step h hframes hhere fun begun hbegun => hgrammar <| by
            subst hbegun
            rw [show begun = true from hframe]⟩
    obtain ⟨items', hmoves⟩ := hstep
    have hlightens := lightens_step limit sight part frames
    rw [settle_eq, settle_eq]
    revert hmoves hlightens
    generalize step limit sight part frames = move
    generalize step limit (s.shift.sight sight) whole (frames.map s.shift.frame) = move'
    intro hmoves hlightens
    cases hmoves with
    | again trees behind => exact ih _ (hweight ▸ hlightens) trees behind rfl
    | next trees behind => exact .waiting trees behind
    | accept trees => exact .accepted trees
    | reject => exact .rejected

/-- What two runs come to: both accept the text, with trees that are alike, or both refuse it. -/
inductive Result.Alike (s : Seam) : Except ParseError Tree → Except ParseError Tree → Prop
  /-- Both accept the text. -/
  | ok {items : List NodeId} {part whole : Tree} (trees : s.Alike items part whole) :
      Alike s (.ok part) (.ok whole)
  /-- Both refuse it. -/
  | error {failure failure' : ParseError} : Alike s (.error failure) (.error failure')

/-- **Runs side by side.** Behind a seam a run accepts what the run on the part accepts. -/
theorem alike_runText (h : s.Alike items part whole)
    (hframes : ∀ frame ∈ frames, frame.Behind s.first) {position : Position} {text : List Char}
    (hline : 1 ≤ position.line) (hend : text = [] → position.Passed) :
    Result.Alike s (runText limit ⟨part, frames, position⟩ text)
      (runText limit ⟨whole, frames.map s.shift.frame, s.shift.base.behind position⟩ text) := by
  induction text generalizing items part whole frames position with
  | nil =>
    have hsettle : Outcome.Alike s (settle limit ⟨none, position⟩ part frames) _ :=
      alike_settle h hframes (hend rfl)
    rw [runText_nil, runText_nil]
    unfold finish
    revert hsettle
    dsimp only [Shift.sight]
    generalize settle limit _ part frames = outcome
    generalize settle limit _ whole (frames.map s.shift.frame) = outcome'
    intro hsettle
    cases hsettle with
    | waiting trees _ => exact .ok trees
    | accepted trees => exact .ok trees
    | rejected => exact .error
  | cons c text ih =>
    have hpassed := Position.passed_after hline c
    have hsettle : Outcome.Alike s (settle limit ⟨some c, position.after c⟩ part frames) _ :=
      alike_settle h hframes hpassed
    rw [runText_cons, runText_cons]
    dsimp only
    rw [← Position.after_behind hline]
    revert hsettle
    dsimp only [Shift.sight]
    generalize settle limit _ part frames = outcome
    generalize settle limit _ whole (frames.map s.shift.frame) = outcome'
    intro hsettle
    cases hsettle with
    | waiting trees behind => exact ih trees behind hpassed.line fun _ => hpassed
    | accepted trees => exact .ok trees
    | rejected => exact .error

end

end LosslessEbnf
