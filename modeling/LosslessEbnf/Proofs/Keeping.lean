import LosslessEbnf.Proofs.Standing

/-!
# What a move keeps

A move that goes on leaves the machine as it may stand, one that accepts leaves a finished tree, and
one that rejects says what is wrong with the characters that are not in the tree.

## Main Definitions

* `Sight.Reads` — what the machine sees is the next character of the text
* `Cause.Explains` — what a cause says about the characters that are not in the tree
* `Move.Keeps` — what a move comes to

## Main Statements

* `Waiting.leave` — a complete node becomes a child of the production around it, which goes on
* `Resting.leaveAt`, `Resting.leaveAtLastChild`, `Resting.leaveInFront` — the ways in which a
  production ends
* `refused_of_held` — a step may refuse the text at any time
-/

namespace LosslessEbnf

/-- The machine sees the character behind `done`, if there is one, and `whole` ends with it. -/
structure Sight.Reads (sight : Sight) (done whole : List Char) : Prop where
  /-- The text up to the next character. -/
  whole_eq : whole = done ++ sight.ahead.toList
  /-- The reader stands at its end. -/
  here_eq : sight.here = Position.start.afterAll whole

/-- What a cause says about the characters that are not in the tree, with `offset` characters of
`whole` in the tree. A step never blames the source. -/
def Cause.Explains (sight : Sight) (whole : List Char) (offset : Nat) (read : List Char) :
    Cause → Prop
  | endOfInput _ => sight.ahead = none ∧ read.length ≤ 2
  | unexpectedCharacter found _ => read = [found]
  | multipleRepetitions .. | multipleExceptions .. | multiplePrimaries .. => read.length = 1
  | noLiteral _ field => field.toList = read
  | unexpectedLiteral text span =>
    text = "/)" ∧ ['/', ')'] <+: read ∧ span.Denotes whole offset ['/', ')']
  | unreadable _ => False
  | missingSpace _ | undelimitedTerm .. | nestingTooDeep _ => True

/-- The tree holds the whole text, and its spans are right. -/
def Tree.Finished (sure : Prop) (whole : List Char) (tree : Tree) : Prop :=
  ∃ root, tree.Shows [root] ∧ root.text = whole ∧
    (sure →
      if whole = [] then root = .bare ⟨.root, .gap ⟨1, 1⟩, ""⟩ else root.Complete sure whole 0)

/-- The tree is a part of the text, and the cause says what is wrong behind it. -/
def Tree.Refused (sight : Sight) (whole : List Char) (tree : Tree) (cause : Cause) : Prop :=
  ∃ read, tree.text.toList ++ read = whole ∧ read.length ≤ 3 ∧
    cause.Explains sight whole tree.text.toList.length read

/-- What a move comes to after `done` was taken. -/
def Move.Keeps (sure : Prop) (sight : Sight) (done whole : List Char) : Move → Prop
  | again tree frames => Standing sure whole done tree frames
  | next tree frames => sight.ahead.isSome ∧ Standing sure whole whole tree frames
  | accept tree => sight.ahead = none ∧ tree.Finished sure whole
  | reject tree cause => tree.Refused sight whole cause

namespace Sight.Reads

variable {sight : Sight} {done whole : List Char} {c : Char}

theorem whole_of_some (h : sight.Reads done whole) (hc : sight.ahead = some c) :
    whole = done ++ [c] := by
  rw [h.whole_eq, hc]
  rfl

theorem whole_of_none (h : sight.Reads done whole) (hc : sight.ahead = none) : whole = done := by
  rw [h.whole_eq, hc]
  exact List.append_nil done

/-- The next character has its place where the reader stands, because the reader has counted all
characters in front of it. -/
theorem place (h : sight.Reads done whole) (hc : sight.ahead.isSome) :
    (places whole)[done.length]? = some sight.here := by
  obtain ⟨c, hc⟩ := Option.isSome_iff_exists.mp hc
  rw [h.here_eq, h.whole_of_some hc, places_append_singleton, Position.afterAll_append]
  rfl

theorem place_last (h : sight.Reads done whole) (hne : whole ≠ []) :
    (places whole)[whole.length - 1]? = some sight.here := by
  rw [h.here_eq, places_last hne]

/-- Only a line feed stands at the left end of a line. -/
theorem column (h : sight.Reads done whole) (hc : sight.ahead = some c) (hne : c ≠ '\n') :
    sight.here.column ≠ 0 := by
  rw [h.here_eq, h.whole_of_some hc, Position.afterAll_append]
  exact column_after_ne_zero hne

theorem length_ahead_le (sight : Sight) : sight.ahead.toList.length ≤ 1 := by
  cases sight.ahead <;> simp

end Sight.Reads

@[simp] theorem Spine.text_add (node child : OpenNode) (outer : Spine) :
    Spine.text (node.add child :: outer) = Spine.text (node :: outer) ++ child.text := by
  rw [Spine.text_cons, OpenNode.text_add, Spine.text_cons, List.append_assoc]

section

variable {sure : Prop} {done whole : List Char} {sight : Sight} {tree : Tree} {frame host : Frame}
  {below : List Frame} {leaf : Label} {node : OpenNode} {outer : Spine} {component : Component}

/-! ### Going on with the production around -/

theorem ready_add_of_admitted {offset : Nat} {child : OpenNode}
    (h : component ∈ host.components)
    (hcolumn : component = .definition → ColumnAt sure whole offset) :
    host.Ready sure whole offset (node.add child) := by
  refine Frame.ready_add fun hmem => hcolumn ?_
  rw [Frame.components_eq_of_definition hmem] at h
  exact List.mem_singleton.mp h

/-- A complete node becomes a child of the production around it, which goes on. -/
theorem Waiting.leave {node' : OpenNode}
    (h : Waiting sure whole (frame :: below) (node :: outer)) (hne : frame.component ≠ .text)
    (hshows : tree.Shows (node' :: outer)) (hcomplete : node'.Complete sure whole outer.text.length)
    (hdone : Spine.text (node' :: outer) = done)
    (hcolumn : frame.component = .definition → ColumnAt sure whole done.length) :
    Standing sure whole done tree below := by
  obtain ⟨host, below, around, outer, rfl, rfl, hadmitted, hwaiting⟩ := h.exists_host hne
  refine .idle ⟨hshows.close, hwaiting.add hcomplete⟩ ?_ (ready_add_of_admitted hadmitted hcolumn)
  rw [Spine.text_add, ← hdone]
  rfl

/-- A complete leaf becomes a child of the production around it. -/
theorem Waiting.fill (h : Waiting sure whole (frame :: below) (node :: outer))
    (hshows : tree.Shows (.bare leaf :: node :: outer))
    (hdenotes : sure →
      leaf.span.Denotes whole (Spine.text (node :: outer)).length leaf.data.toList) :
    Resting sure whole tree (frame :: below) (node.add (.bare leaf) :: outer) :=
  ⟨hshows.close, h.add (OpenNode.complete_bare hdenotes)⟩

/-- A complete leaf becomes a child of the production around it, which goes on. -/
theorem Waiting.leaveLeaf (h : Waiting sure whole (host :: below) (node :: outer))
    (hadmitted : component ∈ host.components) (hne : component ≠ .definition)
    (hshows : tree.Shows (.bare leaf :: node :: outer))
    (hdone : Spine.text (node :: outer) ++ leaf.data.toList = done)
    (hdenotes : sure →
      leaf.span.Denotes whole (Spine.text (node :: outer)).length leaf.data.toList) :
    Standing sure whole done tree (host :: below) := by
  refine .idle (h.fill hshows hdenotes) ?_ (ready_add_of_admitted hadmitted fun h => absurd h hne)
  rw [Spine.text_add, OpenNode.text_bare, hdone]

/-- A leaf that is complete from the start is a complete child at once, and its text is added to
what is shown. -/
theorem Resting.pushLeaf {data : String} {text : List Char}
    (h : Resting sure whole tree (frame :: below) (node :: outer)) (kind : Kind) (span : Span)
    (hdata : data.toList = text)
    (hdenotes : sure → span.Denotes whole (Spine.text (node :: outer)).length text) :
    Resting sure whole (tree.pushChild outer.size kind span data) (frame :: below)
        (node.add (.bare ⟨kind, span, data⟩) :: outer) ∧
      Spine.text (node.add (.bare ⟨kind, span, data⟩) :: outer) =
        Spine.text (node :: outer) ++ text := by
  subst hdata
  exact ⟨h.waiting.fill (h.shows.push ..) hdenotes, by rw [Spine.text_add, OpenNode.text_bare]⟩

/-- A production ends with the last character that was taken. -/
theorem Resting.leaveAt {last : Position}
    (h : Resting sure whole tree (frame :: below) (node :: outer))
    (hne : frame.component ≠ .text) (hdef : frame.component ≠ .definition)
    (hdone : Spine.text (node :: outer) = done)
    (htext : node.text ≠ []) (hlast : (places whole)[done.length - 1]? = some last) :
    Standing sure whole done (tree.withLast outer.size last) below := by
  refine h.waiting.leave hne (h.shows.withLast last) ?_ hdone fun h => absurd h hdef
  refine h.waiting.begun_top.complete fun hsure => ?_
  refine Span.denotes_of_ends htext (h.waiting.begun_top.first hsure) ?_
  rwa [← hdone, Spine.text_cons, List.length_append] at hlast

/-- A production ends where its last child ends, and its span denotes its text because those of its
children do. -/
theorem Resting.leaveAtLastChild
    (h : Resting sure whole tree (frame :: below) (node :: outer))
    (hne : frame.component ≠ .text) (hdef : frame.component ≠ .definition)
    (hdone : Spine.text (node :: outer) = done)
    (hbelow : node.below ≠ .nil) :
    Standing sure whole done (tree.closeAtLastChild outer.size) below := by
  obtain ⟨front, top, last, hlast⟩ := Forest.exists_last hbelow
  refine h.waiting.leave hne (h.shows.closeAtLastChild hlast) ?_ hdone fun h => absurd h hdef
  exact h.waiting.begun_top.complete (h.waiting.begun_top.denotes_last hlast)

/-- A production ends in front of the next character, unless that is a line feed. -/
theorem Resting.leaveInFront {here : Position}
    (h : Resting sure whole tree (frame :: below) (node :: outer))
    (hne : frame.component ≠ .text) (hdone : Spine.text (node :: outer) = done)
    (hhere : sure → (places whole)[done.length]? = some here ∧ here.column ≠ 0) :
    Standing sure whole done (tree.withLast outer.size here.left) below := by
  refine h.waiting.leave hne (h.shows.withLast _) ?_ hdone fun _ hsure => ⟨here, hhere hsure⟩
  refine h.waiting.begun_top.complete fun hsure => ?_
  refine Span.denotes_of_next (h.waiting.begun_top.first hsure) ?_ (hhere hsure).2
  rw [← List.length_append, ← Spine.text_cons, hdone]
  exact (hhere hsure).1

/-! ### Refusing -/

/-- A step refuses the text with characters held back and the next one not taken. -/
theorem refused_of_held {cause : Cause} {held : List Char} (hs : sight.Reads done whole)
    (hheld : tree.text.toList ++ held = done) (hlength : held.length ≤ 2)
    (hexplains : cause.Explains sight whole tree.text.toList.length (held ++ sight.ahead.toList)) :
    tree.Refused sight whole cause := by
  refine ⟨held ++ sight.ahead.toList, ?_, ?_, hexplains⟩
  · rw [← List.append_assoc, hheld, hs.whole_eq]
  · have := Sight.Reads.length_ahead_le sight
    rw [List.length_append]
    omega

/-- A step refuses the next character with all that was taken in the tree. -/
theorem refused_of_shows {cause : Cause} (hs : sight.Reads done whole)
    (hshows : tree.Shows (node :: outer)) (hdone : Spine.text (node :: outer) = done)
    (hexplains : ∀ offset, cause.Explains sight whole offset sight.ahead.toList) :
    tree.Refused sight whole cause := by
  have hheld : tree.text.toList ++ [] = done := by rw [hshows.text, List.append_nil, hdone]
  exact refused_of_held hs hheld (Nat.zero_le 2) (hexplains _)

theorem keeps_unexpected {expected : Expectation} (hs : sight.Reads done whole)
    (hshows : tree.Shows (node :: outer)) (hdone : Spine.text (node :: outer) = done) :
    (sight.unexpected tree expected).Keeps sure sight done whole := by
  unfold Sight.unexpected
  split
  · rename_i c hc
    refine refused_of_shows hs hshows hdone fun _ => ?_
    rw [Cause.Explains, hc]
    rfl
  · rename_i hc
    refine refused_of_shows hs hshows hdone fun _ => ⟨hc, ?_⟩
    rw [hc]
    exact Nat.zero_le 2

end

end LosslessEbnf
