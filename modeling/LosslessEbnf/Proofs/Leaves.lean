import LosslessEbnf.Proofs.Classes
import LosslessEbnf.Proofs.Keeping

/-!
# Leaves

What the steps that begin and fill a leaf of the tree come to.

## Main Statements

* `keeps_stepLiteral`, `keeps_openLiteral`, `keeps_stepMatched` — marks
* `keeps_stepRun`, `keeps_openSpace` — runs
* `keeps_stepIdentifier`, `keeps_openIdentifier` — names
-/

namespace LosslessEbnf

section

variable {sure : Prop} {done whole : List Char} {sight : Sight} {tree : Tree} {host : Frame}
  {below : List Frame} {leaf : Label} {node : OpenNode} {outer : Spine}

/-! ### Marks -/

/-- Of candidates without a choice none was read in full while another one goes on. -/
theorem Marks.Plain.not_isRead {candidates : List String} {read : List Char}
    (h : Plain candidates) (hgoes : candidates.any (goesOn read) = true) :
    candidates.any (isRead read) = false := by
  rw [Bool.eq_false_iff]
  intro hread
  obtain ⟨a, ha, hread⟩ := List.any_eq_true.mp hread
  obtain ⟨b, hb, hgoes⟩ := List.any_eq_true.mp hgoes
  rw [isRead, beq_iff_eq] at hread
  rw [goesOn, Bool.and_eq_true, decide_eq_true_eq, List.isPrefixOf_iff_prefix, ← hread] at hgoes
  have heq := (h a ha).2 b hb hgoes.2
  rw [heq] at hgoes
  exact Nat.lt_irrefl _ hgoes.1

theorem Marks.plain_singleton (c : Char) : Plain [String.singleton c] := by
  intro a ha
  rw [List.mem_singleton] at ha
  subst ha
  refine ⟨by rw [String.toList_singleton]; exact Nat.le_succ 1, fun b hb _ => ?_⟩
  exact (List.mem_singleton.mp hb).symm

theorem Bracket.plain_openers (b : Bracket) : Marks.Plain b.openers := by
  cases b <;> decide

theorem Bracket.plain_closers (b : Bracket) : Marks.Plain b.closers := by
  cases b <;> decide

/-- A mark goes on, ends, or cannot be read. If it ends, the characters that were read in advance
have to be those of the mark. -/
theorem keeps_stepLiteral {id : NodeId} {candidates : List String} {read : List Char}
    (hs : sight.Reads done whole)
    (fill : Filling sure whole tree (host :: below) leaf (node :: outer))
    (admitted : .mark ∈ host.components) (id_eq : id = Spine.size (node :: outer))
    (data : leaf.data = "") (plain : Marks.Plain candidates) (length : read.length < 2)
    (done_eq : Spine.text (node :: outer) ++ read = done)
    (first : sight.ahead.isSome →
      (places whole)[(Spine.text (node :: outer)).length]? = some leaf.span.first) :
    (stepLiteral sight tree (host :: below) id candidates read none).Keeps sure sight done
      whole := by
  have hheld : tree.text.toList ++ read = done := by
    rw [fill.text_eq, data, String.toList_empty, List.append_nil, done_eq]
  unfold stepLiteral
  cases hc : sight.ahead with
  | none =>
    have hnone : sight.ahead.toList = [] := by rw [hc]; rfl
    refine refused_of_held hs hheld (Nat.le_of_lt length) ?_
    rw [hnone, List.append_nil]
    cases read with
    | nil => rfl
    | cons c read => exact ⟨hc, Nat.le_of_lt length⟩
  | some c =>
    have hsome : sight.ahead.isSome := by rw [hc]; rfl
    have hwhole : Spine.text (node :: outer) ++ (read ++ [c]) = whole := by
      rw [← List.append_assoc, done_eq, hs.whole_of_some hc]
    dsimp only
    by_cases hgoes : candidates.any (goesOn (read ++ [c])) = true
    · rw [if_pos hgoes, plain.not_isRead hgoes]
      exact ⟨hsome, .literal fill admitted id_eq data plain hgoes hwhole (first hsome)⟩
    · rw [if_neg hgoes]
      by_cases hfull : candidates.any (isRead (read ++ [c])) = true
      · rw [if_pos hfull]
        refine ⟨hsome, .matched fill admitted id_eq data ?_ hwhole ?_⟩
        · rw [List.length_append]
          exact length
        · refine Span.denotes_snoc _ _ (first hsome) ?_
          rw [← List.length_append, done_eq]
          exact hs.place hsome
      · rw [if_neg hfull]
        refine refused_of_held hs hheld (Nat.le_of_lt length) ?_
        rw [Cause.Explains, String.toList_ofList, hc]
        rfl

/-- A mark begins as a child of the production that waits for it. -/
theorem keeps_openLiteral {parent : NodeId} {candidates : List String} (hs : sight.Reads done whole)
    (rest : Resting sure whole tree (host :: below) (node :: outer))
    (admitted : .mark ∈ host.components) (parent_eq : parent = outer.size)
    (plain : Marks.Plain candidates) (done_eq : Spine.text (node :: outer) = done) :
    (openLiteral sight tree (host :: below) parent candidates).Keeps sure sight done whole := by
  subst parent_eq
  refine keeps_stepLiteral hs ⟨rest.shows.push .., rest.waiting⟩ admitted rest.shows.size_eq rfl
    plain Nat.zero_lt_two (by rw [List.append_nil, done_eq]) fun hsome => ?_
  rw [done_eq]
  exact hs.place hsome

theorem keeps_stepMatched {id : NodeId} {text : List Char} {last : Position}
    (fill : Filling sure whole tree (host :: below) leaf (node :: outer))
    (admitted : .mark ∈ host.components) (id_eq : id = Spine.size (node :: outer))
    (done_eq : Spine.text (node :: outer) ++ text = done)
    (denotes : Span.Denotes whole (Spine.text (node :: outer)).length text
      ⟨leaf.span.first, last⟩) :
    (stepMatched tree (host :: below) id text last).Keeps sure sight done whole := by
  subst id_eq
  have hshows := (fill.shows.withData (String.ofList text)).withLast last
  refine fill.waiting.leaveLeaf admitted nofun hshows ?_ fun _ => ?_
  · rw [String.toList_ofList, done_eq]
  · rw [String.toList_ofList]
    exact denotes

/-! ### Runs -/

/-- A run takes one more character, which becomes the end of its span, or it ends with the one
before. -/
theorem keeps_stepRun {run : Run} {id : NodeId} (hs : sight.Reads done whole)
    (fill : Filling sure whole tree (host :: below) leaf (node :: outer))
    (admitted : (Frame.run run id).component ∈ host.components)
    (id_eq : id = Spine.size (node :: outer))
    (done_eq : Spine.text (node :: outer) ++ leaf.data.toList = done)
    (denotes : leaf.span.Denotes whole (Spine.text (node :: outer)).length leaf.data.toList) :
    (stepRun sight tree (host :: below) run id).Keeps sure sight done whole := by
  subst id_eq
  have hended : Standing sure whole done tree (host :: below) :=
    fill.waiting.leaveLeaf admitted (by cases run <;> nofun) fill.shows done_eq fun _ => denotes
  unfold stepRun
  split
  · rename_i c hc
    split
    · have hsome : sight.ahead.isSome := by rw [hc]; rfl
      refine ⟨hsome, .run ⟨fill.shows.extend c sight.here, fill.waiting⟩ admitted rfl ?_ ?_⟩
      · rw [String.toList_push, ← List.append_assoc, OpenNode.label_bare, done_eq,
          hs.whole_of_some hc]
      · rw [String.toList_push]
        refine Span.denotes_snoc _ _ denotes.first ?_
        rw [← List.length_append, OpenNode.label_bare, done_eq]
        exact hs.place hsome
    · exact hended
  · exact hended

/-- White space begins as a child of the production that waits for it, with the character that is
next. -/
theorem keeps_openSpace {parent : NodeId} (hs : sight.Reads done whole)
    (rest : Resting sure whole tree (host :: below) (node :: outer))
    (admitted : .space ∈ host.components) (parent_eq : parent = outer.size)
    (done_eq : Spine.text (node :: outer) = done) :
    (openSpace sight tree (host :: below) parent).Keeps sure sight done whole := by
  subst parent_eq
  unfold openSpace
  split
  · rename_i c hc
    have hsome : sight.ahead.isSome := by rw [hc]; rfl
    split
    · refine ⟨hsome, .run ⟨rest.shows.push .., rest.waiting⟩ admitted rest.shows.size_eq ?_ ?_⟩
      · rw [String.toList_singleton, done_eq, hs.whole_of_some hc]
      · rw [String.toList_singleton, done_eq]
        exact Span.denotes_point (hs.place hsome)
    · exact refused_of_shows hs rest.shows done_eq fun _ => trivial
  · exact refused_of_shows hs rest.shows done_eq fun _ => trivial

/-! ### Names -/

theorem splitTrailing_append {front blank : List Char} {c : Char} (hc : isSpace c = false)
    (hblank : ∀ c ∈ blank, isSpace c = true) :
    splitTrailing (front ++ [c] ++ blank) = (front ++ [c], blank) := by
  have hall : ∀ c ∈ blank.reverse, isSpace c = true := fun c h => hblank c (List.mem_reverse.mp h)
  rw [splitTrailing, List.reverse_append, List.reverse_append, List.dropWhile_append_of_pos hall,
    List.takeWhile_append_of_pos hall]
  simp [hc]

/-- Behind a name there is nothing that could belong to it, or nothing at all. -/
theorem stepIdentifier_eq_atEnd {id parent : NodeId} {trailing : Option Span}
    (h : ∀ c, sight.ahead = some c → isNamePart c = false) :
    stepIdentifier sight tree below id parent trailing =
      stepIdentifier ⟨none, sight.here⟩ tree below id parent trailing := by
  unfold stepIdentifier
  cases hc : sight.ahead with
  | none => rfl
  | some c =>
    dsimp only
    rw [if_neg (Bool.eq_false_iff.mp (h c hc))]

/-- A name ends, and the white space behind it gets a leaf of its own. Both spans are known, since
they were counted apart. -/
theorem keeps_stepIdentifier_atEnd {id parent : NodeId} {trailing : Option Span}
    {name blank : List Char} {here : Position}
    (fill : Filling sure whole tree (host :: below) leaf (node :: outer))
    (admitted : .name ∈ host.components) (id_eq : id = Spine.size (node :: outer))
    (parent_eq : parent = outer.size)
    (done_eq : Spine.text (node :: outer) ++ leaf.data.toList = done)
    (spelt : Spelt whole (Spine.text (node :: outer)).length leaf trailing name blank) :
    (stepIdentifier ⟨none, here⟩ tree (host :: below) id parent trailing).Keeps
      sure sight done whole := by
  subst id_eq parent_eq
  obtain ⟨front, d, hfront, hd⟩ := spelt.solid
  have hrest := spelt.trailing_eq
  cases trailing with
  | none =>
    refine fill.waiting.leaveLeaf admitted nofun fill.shows done_eq fun _ => ?_
    rw [spelt.data, hrest, List.append_nil]
    exact spelt.denotes
  | some span =>
    have hsplit : splitTrailing (tree.data (Spine.size (node :: outer))).toList =
        (name, blank) := by
      rw [fill.shows.data_top, OpenNode.label_bare, spelt.data, hfront]
      exact splitTrailing_append hd spelt.spaces
    have hname := fill.waiting.fill (fill.shows.withData (String.ofList name)) fun _ => by
      rw [String.toList_ofList]
      exact spelt.denotes
    unfold stepIdentifier
    dsimp only
    rw [hsplit]
    refine hname.waiting.leaveLeaf admitted nofun (hname.shows.push ..) ?_ fun _ => ?_
    · rw [Spine.text_add, OpenNode.text_bare, String.toList_ofList, String.toList_ofList,
        List.append_assoc, ← spelt.data, done_eq]
    · rw [Spine.text_add, OpenNode.text_bare, String.toList_ofList, String.toList_ofList,
        List.length_append]
      exact hrest.2

/-- A name takes one more character or ends. What it has read of white space at its end goes into a
leaf with a span of its own. -/
theorem keeps_stepIdentifier {id parent : NodeId} {trailing : Option Span} {name blank : List Char}
    (hs : sight.Reads done whole)
    (fill : Filling sure whole tree (host :: below) leaf (node :: outer))
    (admitted : .name ∈ host.components) (id_eq : id = Spine.size (node :: outer))
    (parent_eq : parent = outer.size)
    (done_eq : Spine.text (node :: outer) ++ leaf.data.toList = done)
    (spelt : Spelt whole (Spine.text (node :: outer)).length leaf trailing name blank) :
    (stepIdentifier sight tree (host :: below) id parent trailing).Keeps sure sight done whole := by
  by_cases hend : ∀ c, sight.ahead = some c → isNamePart c = false
  · rw [stepIdentifier_eq_atEnd hend]
    exact keeps_stepIdentifier_atEnd fill admitted id_eq parent_eq done_eq spelt
  · subst id_eq parent_eq
    obtain ⟨c, hend⟩ := Classical.not_forall.mp hend
    obtain ⟨hc, hpart⟩ := Classical.not_imp.mp hend
    have hsome : sight.ahead.isSome := by rw [hc]; rfl
    have hplace := hs.place hsome
    rw [← done_eq, spelt.data, ← List.append_assoc, List.length_append, List.length_append]
      at hplace
    have hdata : (leaf.data.push c).toList = name ++ (blank ++ [c]) := by
      rw [String.toList_push, spelt.data, List.append_assoc]
    have hnext : Spine.text (node :: outer) ++ (leaf.data.push c).toList = whole := by
      rw [String.toList_push, ← List.append_assoc, done_eq, hs.whole_of_some hc]
    unfold stepIdentifier
    rw [hc]
    dsimp only
    rw [if_pos (eq_true_of_ne_false hpart)]
    by_cases hspace : isSpace c = true
    · -- white space may end the name, so the span of the leaf stays as it is
      rw [if_pos hspace]
      refine ⟨hsome, .identifier ⟨fill.shows.pushText c, fill.waiting⟩ admitted rfl rfl hnext
        ⟨hdata, spelt.solid, ?_, spelt.denotes, by simp, ?_⟩⟩
      · intro d hmem
        rcases List.mem_append.mp hmem with hmem | hmem
        · exact spelt.spaces d hmem
        · rw [List.mem_singleton.mp hmem, hspace]
      · have hrest := spelt.trailing_eq
        cases trailing with
        | none =>
          rw [hrest] at hplace ⊢
          exact Span.denotes_point hplace
        | some span => exact Span.denotes_snoc _ _ hrest.2.first hplace
    · -- the white space in front of any other character belongs to the name
      rw [if_neg hspace]
      refine ⟨hsome, .identifier ⟨fill.shows.extend c sight.here, fill.waiting⟩ admitted rfl rfl
        hnext ⟨?_, ⟨name ++ blank, c, rfl, eq_false_of_ne_true hspace⟩, List.forall_mem_nil _, ?_,
          rfl⟩⟩
      · rw [List.append_nil, List.append_assoc]
        exact hdata
      · refine Span.denotes_snoc _ _ spelt.denotes.first ?_
        rw [List.length_append, ← Nat.add_assoc]
        exact hplace

/-- A name begins as a child of the production that waits for it, with the letter that is next. -/
theorem keeps_openIdentifier {parent : NodeId} {c : Char} (hs : sight.Reads done whole)
    (hc : sight.ahead = some c) (hletter : isLetter c = true)
    (rest : Resting sure whole tree (host :: below) (node :: outer))
    (admitted : .name ∈ host.components) (parent_eq : parent = outer.size)
    (done_eq : Spine.text (node :: outer) = done) :
    (openIdentifier sight tree (host :: below) parent c).Keeps sure sight done whole := by
  subst parent_eq
  have hsome : sight.ahead.isSome := by rw [hc]; rfl
  have hplace := hs.place hsome
  rw [← done_eq] at hplace
  refine ⟨hsome, .identifier ⟨rest.shows.push .., rest.waiting⟩ admitted rest.shows.size_eq rfl ?_
    ⟨?_, ⟨[], c, rfl, isSpace_eq_false_of_isLetter hletter⟩, List.forall_mem_nil _, ?_, rfl⟩⟩
  · rw [String.toList_singleton, done_eq, hs.whole_of_some hc]
  · rw [String.toList_singleton]
    exact (List.append_nil [c]).symm
  · exact Span.denotes_point hplace

end

end LosslessEbnf
