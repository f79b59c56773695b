import LosslessEbnf.Proofs.Causes
import LosslessEbnf.Proofs.Reaching

/-!
# Nodes that failures name

A failure may name nodes of the tree read so far: a term, and a component that the term has already.
Here it is shown that the tree bears out what the failure says of them.

## Main Definitions

* `Cause.nodes` — the nodes that a cause names
* `Tree.StartsAt` — where a node starts
* `Cause.Agrees` — the tree bears out what a cause says
* `Repeats` — a step that finds a component a second time

## Main Statements

* `repeats_of_reject` — a step names nodes only if it finds a component a second time
* `Standing.agrees_of_repeats` — what such a step says is so
* `agrees_of_parseText_error` — what the failure of a text says is so

## Design Notes

A production knows its components before its node does. The node records them when the production is
on top again, and so it does in the step that refuses the text. The term around an exception is not
on top, so the exception is not yet recorded there.
-/

namespace LosslessEbnf

/-! ### What causes say -/

/-- The nodes that a cause names. -/
def Cause.nodes : Cause → List NodeId
  | undelimitedTerm term _ => [term]
  | multipleRepetitions term held _ => [term, held]
  | multipleExceptions term held _ => [term, held]
  | multiplePrimaries term held _ => [term, held]
  | _ => []

/-- The span of the node starts at `first`, which is not behind `here`. The first character of the
text of the node stands there, or the next character if the node has no text. -/
structure Tree.StartsAt (whole : List Char) (here : Position) (tree : Tree) (id : NodeId)
    (first : Position) : Prop where
  /-- The span of the node starts there. -/
  span_eq : (tree.span id).first = first
  /-- The text of the node has `tree.offset id` characters in front. -/
  own : (tree.textAt id).toList <+: whole.drop (tree.offset id)
  /-- The character behind those in front stands there. -/
  place : (places whole)[tree.offset id]? = some first
  /-- It is not behind the place of the failure. -/
  not_behind : ¬here.Before first

/-- The tree bears out what a cause says of the nodes that it names. -/
def Cause.Agrees (whole : List Char) (here : Position) (tree : Tree) : Cause → Prop
  | multipleRepetitions term held previous =>
    tree.StartsAt whole here held previous ∧ held ∈ tree.children term ∧
      tree.kind held = .repetition ∧
      ∃ parts, tree.kind term = .term parts ∧ parts.repetition = some held
  | multipleExceptions term held previous =>
    tree.StartsAt whole here held previous ∧ held ∈ tree.children term ∧
      (∃ target, tree.kind held = .exception target) ∧
      ∃ parts, tree.kind term = .term parts ∧ parts.exception = some held
  | multiplePrimaries term held previous =>
    tree.StartsAt whole here held previous ∧ (∃ form, tree.kind held = .primary form) ∧
      ∃ parts, tree.kind term = .term parts ∧
        (parts.primary = some held ∧ held ∈ tree.children term ∨
          ∃ exception, (tree.children term).getLast? = some exception ∧
            tree.kind exception = .exception (some held) ∧ held ∈ tree.children exception ∧
            parts.exception = none)
  | _ => True

/-! ### Nodes below open nodes -/

namespace Tree.Shows

variable {tree : Tree} {node : OpenNode} {outer : Spine} {whole : List Char} {id : NodeId}

/-- The tree as it is can be looked at with only its root open, since everything else is below
that. -/
theorem exists_shows_root (h : tree.Shows (node :: outer)) : ∃ root, tree.Shows [root] := by
  induction outer generalizing node with
  | nil => exact ⟨node, h⟩
  | cons host outer ih => exact ih h.close

/-- In front of the innermost open node stands the text of the nodes around it. -/
theorem flatMap_data_front (h : tree.Shows (node :: outer)) :
    (List.range' 0 outer.size).flatMap (fun id => (tree.data id).toList) = outer.text := by
  induction outer generalizing node with
  | nil => rfl
  | cons host outer ih =>
    have hhost := h.close
    have hbelow := tree.flatMap_data_of_holds hhost.holds_below.of_append_left
    rw [Spine.size_cons, ← List.range'_append_1, ← List.range'_append_1, List.range'_one,
      Nat.zero_add, Nat.zero_add, List.flatMap_append, List.flatMap_append, ih hhost,
      List.flatMap_singleton, hhost.data_top, hbelow, Spine.text_cons, OpenNode.text,
      List.append_assoc]
    rfl

/-- A node below the innermost open one has the span of its text, at its place in the text. -/
theorem denotes_below (h : tree.Shows (node :: outer))
    (hbegun : node.Begun True whole outer.text.length)
    (htext : Spine.text (node :: outer) <+: whole) (hlt : outer.size < id) (hid : id < tree.size) :
    (tree.span id).Denotes whole (tree.offset id) (tree.textAt id).toList ∧
      (tree.textAt id).toList <+: whole.drop (tree.offset id) := by
  obtain ⟨root, hroot⟩ := h.exists_shows_root
  obtain ⟨more, rfl⟩ := Nat.exists_eq_add_of_le hlt
  have hbelow : node.below.text <+: whole.drop outer.text.length := by
    rw [Spine.text_cons, hbegun.text_eq] at htext
    rw [← Nat.zero_add outer.text.length]
    exact Forest.second_of_parts htext
  obtain ⟨top, hspan, htop⟩ := h.holds_below.exists_of_spread (Nat.le_of_eq h.size_eq.symm)
    ((hbegun.placed trivial).and (Forest.spread_of_text hbelow)) hlt
    (Nat.lt_of_lt_of_eq hid h.size_eq)
  -- in front of the node are the nodes around the open one, that node, and those below it
  have hfront : (List.range' 0 (outer.size + 1 + more)).flatMap (fun id => (tree.data id).toList) =
      outer.text ++ (List.range' (outer.size + 1) more).flatMap
        fun id => (tree.data id).toList := by
    rw [← List.range'_append_1, ← List.range'_append_1, Nat.zero_add, Nat.zero_add,
      List.range'_one, List.flatMap_append, List.flatMap_append, h.flatMap_data_front,
      List.flatMap_singleton, h.data_top, hbegun.data, String.toList_empty, List.append_nil]
  rw [Nat.add_sub_cancel_left] at htop
  rw [hspan, hroot.offset_eq hid, hfront, List.length_append]
  exact htop

end Tree.Shows

/-! ### Steps that name nodes -/

/-- The production on top has a component already that begins again, and the text is refused for
that. -/
inductive Repeats (tree : Tree) : List Frame → Tree → Cause → Prop
  /-- A term has a repetition. -/
  | repetition {node held : NodeId} {parts : TermParts} {below : List Frame}
      (known : parts.repetition = some held) :
      Repeats tree (.term node parts false :: below) (tree.withKind node (.term parts))
        (.multipleRepetitions node held ((tree.withKind node (.term parts)).span held).first)
  /-- A term has an exception. -/
  | exception {node held : NodeId} {parts : TermParts} {below : List Frame}
      (known : parts.exception = some held) :
      Repeats tree (.term node parts false :: below) (tree.withKind node (.term parts))
        (.multipleExceptions node held ((tree.withKind node (.term parts)).span held).first)
  /-- A term has a primary. -/
  | primary {node held : NodeId} {parts : TermParts} {below : List Frame}
      (known : parts.primary = some held) :
      Repeats tree (.term node parts false :: below) (tree.withKind node (.term parts))
        (.multiplePrimaries node held ((tree.withKind node (.term parts)).span held).first)
  /-- An exception has a primary. -/
  | inner {node term held : NodeId} {below : List Frame} :
      Repeats tree (.exception node term (some held) :: below)
        (tree.withKind node (.exception (some held)))
        (.multiplePrimaries term held
          ((tree.withKind node (.exception (some held))).span held).first)

/-- If the move refuses the text, the cause names no nodes. -/
def Move.Nameless : Move → Prop
  | reject _ cause => cause.nodes = []
  | _ => True

section

variable {limit : Nat} {sight : Sight} {tree tree' : Tree} {frames below : List Frame}
  {node : NodeId} {c : Char} {cause : Cause}

/-- A refusal by such a move names no nodes in its cause. -/
theorem Move.Nameless.nodes_eq {move : Move} (h : move.Nameless)
    (hmove : move = .reject tree cause) : cause.nodes = [] := by
  subst hmove
  exact h

theorem nameless_unexpected {expected : Expectation} :
    (sight.unexpected tree expected).Nameless := by
  unfold Sight.unexpected
  split <;> rfl

/-- A mark that fails names its candidates and what was read, but no node. -/
theorem nameless_stepLiteral {candidates : List String} {read : List Char}
    {best : Option (List Char × Position)} :
    (stepLiteral sight tree below node candidates read best).Nameless := by
  unfold stepLiteral settleLiteral
  dsimp only
  repeat' split
  all_goals trivial

theorem nameless_openLiteral {candidates : List String} :
    (openLiteral sight tree frames node candidates).Nameless := nameless_stepLiteral

theorem nameless_openSpace : (openSpace sight tree frames node).Nameless := by
  unfold openSpace
  repeat' split
  all_goals trivial

/-- A comment that lies too deep names the limit, but no node. -/
theorem nameless_openComment : (openComment limit sight tree frames node).Nameless := by
  unfold openComment
  split
  · rfl
  · exact nameless_openLiteral

theorem nameless_openBracket {b : Bracket} :
    (openBracket limit sight tree frames node b).Nameless := by
  unfold openBracket
  split
  · rfl
  · exact nameless_openLiteral

theorem nameless_attachBracket {b : Bracket} {opener : Span} :
    (attachBracket limit sight tree frames node b opener).Nameless := by
  unfold attachBracket
  split
  · rfl
  · trivial

/-- Whatever refuses the beginning of a primary, it names no node: that there is another primary was
looked up before. -/
theorem nameless_openPrimary : (openPrimary limit sight tree frames node c).Nameless := by
  unfold openPrimary expectIdentifier expectTerminal openQuoted
  repeat' split
  all_goals first
    | trivial
    | exact nameless_openBracket
    | exact nameless_openLiteral
    | exact nameless_unexpected

/-- Between two items a character is unexpected, or a comment fails, and neither names a node. -/
theorem nameless_stepGrammar {begun : Bool} :
    (stepGrammar limit sight tree below begun).Nameless := by
  unfold stepGrammar
  dsimp only
  repeat' split
  · trivial
  · exact nameless_openComment
  · rw [openProduct_of_isLetter ‹_›]
    trivial
  · exact nameless_openSpace
  · exact nameless_unexpected
  · trivial
  · trivial

/-- A comment that is not ended names no node, and neither does one that lies too deep. -/
theorem nameless_stepComment {text : Option NodeId} {stage : CommentStage} :
    (stepComment limit sight tree below node text stage).Nameless := by
  unfold stepComment
  cases sight.ahead with
  | none => rfl
  | some c =>
    cases stage <;> dsimp only <;> repeat' split
    all_goals trivial

/-- A product that lacks a mark names the mark and no node. -/
theorem nameless_stepProduct {lhs : NodeId} {stage : ProductStage} :
    (stepProduct sight tree below node lhs stage).Nameless := by
  unfold stepProduct
  dsimp only
  repeat' split
  · exact nameless_openLiteral
  · exact nameless_unexpected
  · exact nameless_openSpace
  · trivial
  · rfl
  · exact nameless_openLiteral

/-- A list fails only where the input ends, and names no node then. -/
theorem nameless_stepDefinitions {stage : ListStage} :
    (stepDefinitions sight tree below node stage).Nameless := by
  unfold stepDefinitions
  dsimp only
  repeat' split
  all_goals first
    | trivial
    | exact nameless_openSpace
    | exact nameless_openLiteral

theorem nameless_stepRepetition : (stepRepetition sight tree below node).Nameless := by
  unfold stepRepetition
  split
  · exact nameless_openSpace
  · exact nameless_openLiteral

theorem nameless_stepParen {start : Position} :
    (stepParen limit sight tree below node start).Nameless := by
  unfold stepParen
  repeat' split
  · rfl
  · trivial
  · trivial
  · exact nameless_attachBracket

/-- A bracket with the closer of another one names the closer and no node. -/
theorem nameless_stepBracket {b : Bracket} {stage : BracketStage} :
    (stepBracket sight tree below b node stage).Nameless := by
  unfold stepBracket
  dsimp only
  repeat' split
  · exact nameless_openSpace
  · trivial
  · exact nameless_openLiteral
  · trivial
  · rfl

/-- A quoted text that is not ended names its form, but not its node. -/
theorem nameless_stepQuoted {form : Quoted} {text : Option NodeId} :
    (stepQuoted sight tree below form node text).Nameless := by
  unfold stepQuoted
  repeat' split
  · trivial
  · rfl
  · exact nameless_openLiteral
  · trivial

theorem nameless_stepIdentifier {parent : NodeId} {trailing : Option Span} :
    (stepIdentifier sight tree below node parent trailing).Nameless := by
  unfold stepIdentifier
  dsimp only
  repeat' split
  all_goals trivial

theorem nameless_stepRun {run : Run} : (stepRun sight tree below run node).Nameless := by
  unfold stepRun
  repeat' split
  all_goals trivial

/-- Only terms, exceptions and definitions name nodes when they refuse the text: those of the
component that is there already. -/
theorem nameless_step {frame : Frame}
    (h : frame.component ∉ [.term, .exception, .definition]) :
    (step limit sight tree (frame :: below)).Nameless := by
  cases frame with
  | term | exception | definition => simp [Frame.component] at h
  | grammar begun => exact nameless_stepGrammar
  | comment id text stage => exact nameless_stepComment
  | product id lhs stage => exact nameless_stepProduct
  | definitions id stage => exact nameless_stepDefinitions
  | repetition id => exact nameless_stepRepetition
  | paren parent start => exact nameless_stepParen
  | opener => exact nameless_attachBracket
  | bracket b id stage => exact nameless_stepBracket
  | quoted form id text => exact nameless_stepQuoted
  | identifier id parent trailing => exact nameless_stepIdentifier
  | run run id => exact nameless_stepRun
  | literal => exact nameless_stepLiteral
  | matched | closing => trivial

/-- A term names nodes if it finds a component a second time, and only there: all other refusals of
a term name marks or productions. -/
theorem repeats_of_stepTerm {parts : TermParts} {dash : Bool}
    (h : stepTerm limit sight tree below node parts dash = .reject tree' cause)
    (hnodes : cause.nodes ≠ []) :
    sight.ahead.isSome ∧ Repeats tree (.term node parts dash :: below) tree' cause := by
  have hend : (endTerm sight (tree.withKind node (.term parts)) below node parts).Nameless := by
    unfold endTerm
    split <;> trivial
  cases dash with
  | true => cases h
  | false =>
    unfold stepTerm at h
    rw [if_neg Bool.false_ne_true] at h
    split at h
    · exact absurd (hend.nodes_eq h) hnodes
    · rename_i c hc
      refine ⟨by rw [hc]; rfl, ?_⟩
      repeat' split at h
      · exact absurd (nameless_openSpace.nodes_eq h) hnodes
      · cases h
        exact .repetition ‹_›
      · rw [openRepetition_of_isDigit ‹_›] at h
        cases h
      · cases h
        exact .exception ‹_›
      · exact absurd (nameless_openLiteral.nodes_eq h) hnodes
      · cases h
        exact .primary ‹_›
      · exact absurd (nameless_openPrimary.nodes_eq h) hnodes
      · exact absurd (hend.nodes_eq h) hnodes

/-- An exception names nodes if it finds a primary a second time. -/
theorem repeats_of_stepException {term : NodeId} {primary : Option NodeId}
    (h : stepException limit sight tree below node term primary = .reject tree' cause)
    (hnodes : cause.nodes ≠ []) :
    sight.ahead.isSome ∧ Repeats tree (.exception node term primary :: below) tree' cause := by
  have hend : (endException sight (tree.withKind node (.exception primary)) below node
      primary).Nameless := by
    unfold endException
    split <;> trivial
  unfold stepException at h
  dsimp only at h
  split at h
  · exact absurd (hend.nodes_eq h) hnodes
  · rename_i c hc
    refine ⟨by rw [hc]; rfl, ?_⟩
    repeat' split at h
    · exact absurd (nameless_openSpace.nodes_eq h) hnodes
    · cases h
      exact .inner
    · exact absurd (nameless_openPrimary.nodes_eq h) hnodes
    · exact absurd (hend.nodes_eq h) hnodes

/-- A definition names nodes only for a cause that does not occur. -/
theorem nameless_stepDefinition {start : Position} {term : Option NodeId}
    (h : stepDefinition sight tree below node start term = .reject tree' cause)
    (hlisted : cause.Listed) : cause.nodes = [] := by
  unfold stepDefinition at h
  repeat' split at h
  · cases h
    rfl
  · exact nameless_openSpace.nodes_eq h
  · cases h
    exact hlisted.elim
  · cases h
  · exact nameless_openLiteral.nodes_eq h
  · cases h

/-- A step that fails for a listed cause names nodes only if it finds a component a second time. -/
theorem repeats_of_reject (h : step limit sight tree frames = .reject tree' cause)
    (hlisted : cause.Listed) (hnodes : cause.nodes ≠ []) :
    sight.ahead.isSome ∧ Repeats tree frames tree' cause := by
  cases frames with
  | nil => cases h
  | cons frame below =>
    by_cases hframe : frame.component ∈ [.term, .exception, .definition]
    · cases frame with
      | term id parts dash => exact repeats_of_stepTerm h hnodes
      | exception id term primary => exact repeats_of_stepException h hnodes
      | definition id start term => exact absurd (nameless_stepDefinition h hlisted) hnodes
      | run run => cases run <;> simp [Frame.component] at hframe
      | _ => simp [Frame.component] at hframe
    · exact absurd ((nameless_step hframe).nodes_eq h) hnodes

end

/-! ### What the tree bears out -/

section

variable {whole done : List Char} {sight : Sight} {tree tree' : Tree} {frame : Frame}
  {frames below : List Frame} {node : OpenNode} {outer : Spine} {id number : NodeId}
  {parts : TermParts} {cause : Cause} {ahead : Option Char}

/-- A child of the production on top starts where its text does, and that is no later than the place
of the failure, which is the next character. -/
theorem Resting.startsAt (rest : Resting True whole tree (frame :: below) (node :: outer))
    (hs : sight.Reads done whole) (hsome : sight.ahead.isSome)
    (done_eq : Spine.text (node :: outer) = done) (hid : id ∈ tree.children outer.size) :
    id < tree.size ∧ tree.StartsAt whole sight.here id (tree.span id).first := by
  rw [rest.shows.children_top] at hid
  obtain ⟨hlt, hsize⟩ := Forest.bounds_of_mem_roots hid
  have hsize : id < tree.size := Nat.lt_of_lt_of_eq hsize rest.shows.size_eq.symm
  have htext : Spine.text (node :: outer) <+: whole := by
    rw [done_eq, hs.whole_eq]
    exact List.prefix_append ..
  obtain ⟨hdenotes, hown⟩ := rest.shows.denotes_below rest.waiting.begun_top htext hlt hsize
  refine ⟨hsize, rfl, hown, hdenotes.first, ?_⟩
  -- the place of the failure is that of the last character
  refine not_before_of_places hdenotes.first (hs.place hsome) (Nat.le_of_lt_succ ?_)
  have hplace := (List.getElem?_eq_some_iff.mp hdenotes.first).1
  obtain ⟨c, hc⟩ := Option.isSome_iff_exists.mp hsome
  rwa [length_places, hs.whole_of_some hc, List.length_append] at hplace

/-- A child of the production on top starts where its text does, also after the node of the
production has changed in kind. -/
theorem Standing.startsAt (h : Standing True whole done tree (frame :: below))
    (hs : sight.Reads done whole) (hsome : sight.ahead.isSome)
    (hframe : frame.component ∈ [.term, .exception]) (hnumber : frame.waiting? = some number)
    {kind : Kind} {fits : Kind → Prop}
    (hchild : HasChild fits ((tree.withKind number kind).row number) id) :
    id ∈ (tree.withKind number kind).children number ∧ fits ((tree.withKind number kind).kind id) ∧
      id < (tree.withKind number kind).size ∧
      (tree.withKind number kind).StartsAt whole sight.here id
        ((tree.withKind number kind).span id).first := by
  obtain ⟨hmem, hfits⟩ := Tree.mem_children_of_hasChild hchild
  cases h with
  | idle rest done_eq =>
    obtain rfl := Option.some.inj (hnumber.symm.trans rest.waiting.id_eq_size)
    exact ⟨hmem, hfits, (rest.withKind kind).startsAt hs hsome done_eq hmem⟩
  | @run run => cases run <;> simp [Frame.component] at hframe
  | _ => simp [Frame.component] at hframe

/-- A term that is on top records its components. -/
theorem Grown.among_of_term (h : Grown ahead tree (.term number parts false :: below)) :
    number < (tree.withKind number (.term parts)).size ∧
      (tree.withKind number (.term parts)).kind number = .term parts ∧
      parts.Among ((tree.withKind number (.term parts)).row number) := by
  cases h with
  | idle hidle =>
    have hterm := hidle.recordTerm
    obtain ⟨rfl, -, hrow⟩ := hterm.fits.shape
    have hshows := hterm.carries.shows
    rw [hshows.kind_top, hshows.row_top]
    exact ⟨hshows.size_lt, rfl, hrow.among⟩

/-- An exception that is on top records its primary. It is the last child of the term around it,
which has not recorded it. -/
theorem Grown.of_exception {term held : NodeId}
    (h : Grown ahead tree (.exception number term (some held) :: below))
    (htidy : Tidy (.exception number term (some held) :: below))
    (htree : tree' = tree.withKind number (.exception (some held))) :
    term < tree'.size ∧ tree'.kind number = .exception (some held) ∧
      HasChild (∃ form, · = .primary form) (tree'.row number) held ∧
      (tree'.children term).getLast? = some number ∧
      ∃ parts, tree'.kind term = .term parts ∧ parts.exception = none := by
  subst htree
  cases h with
  | idle hidle =>
    obtain ⟨⟨parts, rest, rfl, hparts⟩, -⟩ := htidy
    have hexception := hidle.recordException
    obtain ⟨rfl, -, hrow⟩ := hexception.fits.shape
    have hshows := hexception.carries.shows
    have hrest := hexception.rest
    cases hrest with
    | @cons _ _ _ host outer rest sound awaits =>
      have hfits := awaits none [⟨host.next outer.size, .exception none, ""⟩] ⟨nofun, _, rfl, rfl⟩
      obtain ⟨rfl, ⟨recorded, hkind, hlags⟩, -⟩ := hfits.shape
      have hhost := hshows.close
      refine ⟨hhost.size_lt, hshows.kind_top, ?_, ?_, recorded, ?_, ?_⟩
      · rw [hshows.row_top]
        obtain ⟨child, hchild, ⟨form, hform, -⟩, hid⟩ :=
          hrow.exists_of_mem (List.mem_cons_of_mem _ List.mem_cons_self)
        exact ⟨child, hchild, (Option.some.inj hid).symm, form, hform⟩
      · rw [hhost.children_top, OpenNode.add, Forest.roots_append]
        exact List.getLast?_concat
      · rw [hhost.kind_top]
        exact hkind
      · -- what the term has recorded is complete, and the exception is not
        cases hrecorded : recorded.exception with
        | none => rfl
        | some id =>
          obtain rfl : id = _ := Option.some.inj ((hlags id hrecorded).symm.trans hparts)
          have hmem := sound.linked _ (by
            rw [hkind, mem_components_term_iff]
            exact Or.inr (Or.inr hrecorded))
          exact absurd (Forest.bounds_of_mem_roots hmem).2 (Nat.lt_irrefl _)

/-- **Step lemma.** What a step says that finds a component a second time, the tree bears out. -/
theorem Standing.agrees_of_repeats (h : Standing True whole done tree frames)
    (hgrown : Grown ahead tree frames) (htidy : Tidy frames) (hs : sight.Reads done whole)
    (hsome : sight.ahead.isSome) (hrepeats : Repeats tree frames tree' cause) :
    (∀ id ∈ cause.nodes, id < tree'.size) ∧ cause.Agrees whole sight.here tree' := by
  have hnodes : ∀ {term held : NodeId}, term < tree'.size → held < tree'.size →
      ∀ id ∈ [term, held], id < tree'.size := by
    intro term held hterm hheld id hid
    rcases List.mem_cons.mp hid with rfl | hid
    · exact hterm
    · rwa [List.mem_singleton.mp hid]
  cases hrepeats with
  | repetition known =>
    obtain ⟨hterm, hkind, hamong⟩ := hgrown.among_of_term
    obtain ⟨hchild, hheld, hsize, hstarts⟩ :=
      h.startsAt hs hsome (by simp [Frame.component]) rfl (hamong.repetition _ known)
    exact ⟨hnodes hterm hsize, hstarts, hchild, hheld, _, hkind, known⟩
  | exception known =>
    obtain ⟨hterm, hkind, hamong⟩ := hgrown.among_of_term
    obtain ⟨hchild, hheld, hsize, hstarts⟩ :=
      h.startsAt hs hsome (by simp [Frame.component]) rfl (hamong.exception _ known)
    exact ⟨hnodes hterm hsize, hstarts, hchild, Kind.exists_of_bare_exception hheld, _, hkind,
      known⟩
  | primary known =>
    obtain ⟨hterm, hkind, hamong⟩ := hgrown.among_of_term
    obtain ⟨hchild, hheld, hsize, hstarts⟩ :=
      h.startsAt hs hsome (by simp [Frame.component]) rfl (hamong.primary _ known)
    exact ⟨hnodes hterm hsize, hstarts, hheld, _, hkind, Or.inl ⟨known, hchild⟩⟩
  | inner =>
    obtain ⟨hterm, hexception, hhas, hlast, parts, hkind, hnone⟩ := hgrown.of_exception htidy rfl
    obtain ⟨hchild, hheld, hsize, hstarts⟩ :=
      h.startsAt hs hsome (by simp [Frame.component]) rfl hhas
    exact ⟨hnodes hterm hsize, hstarts, hheld, parts, hkind,
      Or.inr ⟨_, hlast, hexception, hchild, hnone⟩⟩

/-- What all steps for one character say of the nodes that they name is so. -/
def Outcome.Agrees (whole : List Char) (here : Position) : Outcome → Prop
  | rejected tree cause => (∀ id ∈ cause.nodes, id < tree.size) ∧ cause.Agrees whole here tree
  | _ => True

/-- A cause that names no node has nothing to agree on with the tree. -/
theorem Cause.agrees_of_nodes (h : cause.nodes = []) {here : Position} :
    cause.Agrees whole here tree := by
  cases cause with
  | multipleRepetitions | multipleExceptions | multiplePrimaries => cases h
  | _ => trivial

/-- All that is known of the machine in front of a step. -/
structure Steady (sight : Sight) (done whole : List Char) (tree : Tree) (frames : List Frame) :
    Prop where
  /-- How the machine stands. -/
  standing : Standing sight.ahead.isSome whole done tree frames
  /-- How the tree has grown. -/
  grown : Grown sight.ahead tree frames
  /-- What the open productions know of each other. -/
  tidy : Tidy frames
  /-- Where a term has ended, none can go on. -/
  ends : topHoldsTerm frames = true → sight.ahead.any continuesTerm = false

/-- What the steps for one character say of nodes is so in the tree that they hand out. -/
theorem Steady.agrees_settle (h : Steady sight done whole tree frames)
    (hs : sight.Reads done whole) (limit : Nat) :
    (settle limit sight tree frames).Agrees whole sight.here := by
  refine settle_induction (fun tree frames h => ?_) h
  have hkeeps := keeps_step limit hs id h.standing
  have hgrows := grows_step limit h.grown
  have htidies : (step limit sight tree frames).Tidies sight.ahead := tidies_step h.tidy h.ends
  cases hstep : step limit sight tree frames with
  | again tree' frames' =>
    rw [hstep] at hkeeps hgrows htidies
    exact ⟨hkeeps, hgrows, htidies.1, htidies.2⟩
  | next tree' frames' | accept tree' => trivial
  | reject tree' cause =>
    rw [hstep] at htidies
    by_cases hnodes : cause.nodes = []
    · refine ⟨fun id hid => ?_, Cause.agrees_of_nodes hnodes⟩
      rw [hnodes] at hid
      cases hid
    · obtain ⟨hsome, hrepeats⟩ := repeats_of_reject hstep htidies hnodes
      exact (h.standing.mono fun _ => hsome).agrees_of_repeats h.grown h.tidy hs hsome hrepeats

end

/-! ### Failures of texts -/

/-- The open productions of a configuration that is reached are tidy. -/
theorem Reached.tidy {limit : Nat} {whole : List Char} {config : Config}
    (h : Reached limit whole config) :
    Tidy config.frames ∧ topHoldsTerm config.frames = false := by
  induction h with
  | initial => exact ⟨rfl, rfl⟩
  | @next _ config c _ _ _ taken ih =>
    have htidies : (settle limit ⟨some c, config.position.after c⟩ config.tree
        config.frames).Tidies :=
      tidies_settle ih.1 fun htop => absurd htop (ne_true_of_eq_false ih.2)
    rw [taken] at htidies
    exact htidies

/-- The machine stands steady in a configuration that is reached, whatever is next. -/
theorem Reached.steady {limit : Nat} {whole : List Char} {config : Config}
    (h : Reached limit whole config) (ahead : Option Char) :
    Steady (config.sight ahead) whole (whole ++ ahead.toList) config.tree config.frames where
  standing := h.between.standing.weaken (fun _ => trivial) ahead.toList
  grown := h.grown ahead
  tidy := h.tidy.1
  ends htop := by
    rw [h.tidy.2] at htop
    cases htop

theorem Reached.reads {limit : Nat} {whole : List Char} {config : Config}
    (h : Reached limit whole config) (ahead : Option Char) :
    (config.sight ahead).Reads whole (whole ++ ahead.toList) := by
  cases ahead with
  | none =>
    rw [Option.toList_none, List.append_nil]
    exact h.between.reads_none
  | some c => exact h.between.reads_some c

/-- What stands behind the place of a failure does not matter. -/
theorem Cause.Agrees.append {whole : List Char} {here : Position} {tree : Tree} {cause : Cause}
    (h : cause.Agrees whole here tree) (more : List Char) :
    cause.Agrees (whole ++ more) here tree := by
  have hstarts : ∀ {id : NodeId} {first : Position}, tree.StartsAt whole here id first →
      tree.StartsAt (whole ++ more) here id first := by
    rintro id first ⟨hspan, hown, hplace, hbehind⟩
    refine ⟨hspan, ?_, places_append_of_eq_some hplace more, hbehind⟩
    rw [List.drop_append]
    exact hown.trans (List.prefix_append ..)
  cases cause with
  | multipleRepetitions | multipleExceptions | multiplePrimaries => exact h.imp_left hstarts
  | _ => trivial

/-- **What failures say of nodes.** All nodes that the failure of a text names are in its tree. If
it says that a term has a component already, then the term records just this component, which is a
child of the kind that is said; only the primary of an exception is recorded by the exception, which
is the last child of the term and not recorded yet. The place that is given is where the span and
the text of the component start, and it is not behind the place of the failure. -/
theorem agrees_of_parseText_error {text : String} {maxNesting : Nat} {error : ParseError}
    (h : parseText text maxNesting = .error error) :
    (∀ id ∈ error.cause.nodes, id < error.tree.size) ∧
      error.cause.Agrees text.toList error.position error.tree := by
  obtain ⟨front, back, config, htext, hreached, hrefuses⟩ := exists_reached_of_error h
  have hagrees := (hreached.steady back.head?).agrees_settle (hreached.reads back.head?) maxNesting
  rw [hrefuses.settle_eq] at hagrees
  obtain ⟨hnodes, hagrees⟩ := hagrees
  have hback : text.toList = front ++ back.head?.toList ++ back.tail := by
    rw [htext, List.append_assoc]
    cases back <;> rfl
  rw [hback, hrefuses.position_eq]
  exact ⟨hnodes, hagrees.append _⟩

/-- Two repetitions, a second exception where the first one is empty, two primaries, and two in the
exception of a term in brackets. -/
theorem agrees_of_parseText_error_repeated :
    (∃ error, parseText "x=2*3*a" 0 = .error error ∧
      error.cause = .multipleRepetitions 6 7 ⟨1, 3⟩ ∧
      (∀ id ∈ error.cause.nodes, id < error.tree.size) ∧
      error.cause.Agrees "x=2*3*a".toList error.position error.tree) ∧
    (∃ error, parseText "x=b-1*-" 0 = .error error ∧
      error.cause = .multipleExceptions 6 9 ⟨1, 5⟩ ∧
      (∀ id ∈ error.cause.nodes, id < error.tree.size) ∧
      error.cause.Agrees "x=b-1*-".toList error.position error.tree) ∧
    (∃ error, parseText "x='a' 'b'" 0 = .error error ∧
      error.cause = .multiplePrimaries 6 7 ⟨1, 3⟩ ∧
      (∀ id ∈ error.cause.nodes, id < error.tree.size) ∧
      error.cause.Agrees "x='a' 'b'".toList error.position error.tree) ∧
    ∃ error, parseText "x=a-['b'-'c' 'd'" 1 = .error error ∧
      error.cause = .multiplePrimaries 14 21 ⟨1, 10⟩ ∧
      (∀ id ∈ error.cause.nodes, id < error.tree.size) ∧
      error.cause.Agrees "x=a-['b'-'c' 'd'".toList error.position error.tree := by
  refine ⟨?_, ?_, ?_, ?_⟩
  · obtain ⟨error, herror, hcause⟩ := exists_error_of_failure?
      (show failure? (parseText "x=2*3*a" 0) = some (.multipleRepetitions 6 7 ⟨1, 3⟩) by
        with_unfolding_all decide)
    exact ⟨error, herror, hcause, agrees_of_parseText_error herror⟩
  · obtain ⟨error, herror, hcause⟩ := exists_error_of_failure?
      (show failure? (parseText "x=b-1*-" 0) = some (.multipleExceptions 6 9 ⟨1, 5⟩) by
        with_unfolding_all decide)
    exact ⟨error, herror, hcause, agrees_of_parseText_error herror⟩
  · obtain ⟨error, herror, hcause⟩ := exists_error_of_failure?
      (show failure? (parseText "x='a' 'b'" 0) = some (.multiplePrimaries 6 7 ⟨1, 3⟩) by
        with_unfolding_all decide)
    exact ⟨error, herror, hcause, agrees_of_parseText_error herror⟩
  · obtain ⟨error, herror, hcause⟩ := exists_error_of_failure?
      (show failure? (parseText "x=a-['b'-'c' 'd'" 1) =
        some (.multiplePrimaries 14 21 ⟨1, 10⟩) by with_unfolding_all decide)
    exact ⟨error, herror, hcause, agrees_of_parseText_error herror⟩

end LosslessEbnf
