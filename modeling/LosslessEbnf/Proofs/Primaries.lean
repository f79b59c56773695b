import LosslessEbnf.Proofs.Leaves

/-!
# Comments and primaries

What the steps of comments, of quoted texts and of brackets come to.

## Main Statements

* `keeps_stepComment`, `keeps_openComment` — comments
* `keeps_stepQuoted`, `keeps_openQuoted` — texts between marks
* `keeps_attachBracket`, `keeps_stepParen`, `keeps_stepBracket`, `keeps_openBracket` — brackets
* `keeps_openPrimary` — what begins with a given character
-/

namespace LosslessEbnf

section

variable {sure : Prop} {done whole : List Char} {sight : Sight} {tree : Tree} {host : Frame}
  {below : List Frame} {leaf : Label} {node : OpenNode} {outer : Spine} {limit : Nat}

/-! ### Comments -/

/-- A character of a comment goes into its last text, whose span then ends with it. If the comment
has no text at its end, the character begins one. -/
theorem resting_addText {id : NodeId} {text : Option NodeId} {c : Char} {here : Position}
    (rest : Resting sure whole tree (.comment id none .body :: below) (node :: outer))
    (grows : ∀ run, text = some run → node.Grows outer run)
    (hhere : (places whole)[(Spine.text (node :: outer)).length]? = some here) :
    ∃ node', Resting sure whole (addText tree id text c here).1 (.comment id none .body :: below)
        (node' :: outer) ∧
      node'.Grows outer (addText tree id text c here).2 ∧
      Spine.text (node' :: outer) = Spine.text (node :: outer) ++ [c] := by
  have hid : id = outer.size := Option.some.inj rest.waiting.id_eq_size
  subst hid
  cases text with
  | none =>
    obtain ⟨hrest, htext⟩ := rest.pushLeaf .text (.point here) (String.toList_singleton c)
      fun _ => Span.denotes_point hhere
    exact ⟨_, hrest, ⟨node, _, rfl, rest.shows.size_eq, by simp⟩, htext⟩
  | some run =>
    obtain ⟨front, leaf, rfl, rfl, hne⟩ := grows run rfl
    obtain ⟨hwaiting, hleaf⟩ := rest.waiting.of_add
    rw [Spine.text_add, OpenNode.text_bare, List.length_append] at hhere
    refine ⟨front.add (.bare ⟨leaf.kind, ⟨leaf.span.first, here⟩, leaf.data.push c⟩), ?_, ?_, ?_⟩
    · refine hwaiting.fill (rest.shows.reopen.extend c here) fun hsure => ?_
      rw [String.toList_push]
      exact Span.denotes_snoc _ _ (hleaf hsure).1.first hhere
    · exact ⟨front, _, rfl, rfl, by simp⟩
    · simp only [Spine.text_add, OpenNode.text_bare, String.toList_push, List.append_assoc]

/-- The character behind a `*` or a `(` tells whether they end the comment or begin another one. -/
theorem keeps_stepComment_mark {id : NodeId} {text : Option NodeId} {first c : Char}
    {start : Position} (hs : sight.Reads done whole) (hc : sight.ahead = some c)
    (rest : Resting sure whole tree (.comment id none .body :: below) (node :: outer))
    (grows : ∀ run, text = some run → node.Grows outer run)
    (done_eq : Spine.text (node :: outer) ++ [first] = done)
    (placed : (Span.point start).Denotes whole (Spine.text (node :: outer)).length [first]) :
    (stepComment limit sight tree below id text (.mark first start)).Keeps sure sight done
      whole := by
  obtain rfl : id = outer.size := Option.some.inj rest.waiting.id_eq_size
  have hsome : sight.ahead.isSome := by rw [hc]; rfl
  have hplace := hs.place hsome
  have hwhole := hs.whole_of_some hc
  rw [← done_eq, List.length_append] at hplace
  rw [← done_eq] at hwhole
  unfold stepComment
  rw [hc]
  dsimp only
  by_cases hend : first = '*' ∧ c = ')'
  · rw [if_pos hend]
    obtain ⟨rfl, rfl⟩ := hend
    obtain ⟨hclosed, htext⟩ := rest.pushLeaf .literal ⟨start, sight.here⟩
      (show ("*)" : String).toList = ['*', ')'] by decide)
      fun _ => Span.denotes_snoc ['*'] ')' placed.first hplace
    have hdone := htext.trans (hwhole.trans (List.append_assoc ..)).symm
    refine ⟨hsome, hclosed.leaveAt nofun nofun hdone (by simp) (hs.place_last ?_)⟩
    simp [hwhole]
  · rw [if_neg hend]
    by_cases hopen : first = '(' ∧ c = '*'
    · rw [if_pos hopen]
      obtain ⟨rfl, rfl⟩ := hopen
      refine ⟨hsome, .comment rest grows ?_ (Span.denotes_snoc ['('] '*' placed.first hplace)⟩
      rw [hwhole, List.append_assoc]
      rfl
    · -- what was held back is text, and the character is left to the body of the comment
      rw [if_neg hopen]
      obtain ⟨node', hrest, hgrows, htext⟩ := resting_addText rest grows placed.first
      refine .comment hrest ?_ ?_ trivial
      · intro run hrun
        cases hrun
        exact hgrows
      · rw [htext, ← done_eq]
        exact List.append_nil _

/-- A comment goes on or ends, or another one begins in it. A character that may begin a mark is
held back until the next one tells. -/
theorem keeps_stepComment {id : NodeId} {text : Option NodeId} {stage : CommentStage}
    (hs : sight.Reads done whole)
    (rest : Resting sure whole tree (.comment id none .body :: below) (node :: outer))
    (grows : ∀ run, text = some run → node.Grows outer run)
    (done_eq : Spine.text (node :: outer) ++ stage.held = done)
    (placed : stage.Placed whole (Spine.text (node :: outer)).length) :
    (stepComment limit sight tree below id text stage).Keeps sure sight done whole := by
  have hheld : tree.text.toList ++ stage.held = done := by rw [rest.shows.text, done_eq]
  obtain rfl : id = outer.size := Option.some.inj rest.waiting.id_eq_size
  cases hc : sight.ahead with
  | none =>
    unfold stepComment
    rw [hc]
    refine refused_of_held hs hheld stage.length_held_le ⟨hc, ?_⟩
    rw [hc, Option.toList_none, List.append_nil]
    exact stage.length_held_le
  | some c =>
    cases stage with
    | body =>
      have hsome : sight.ahead.isSome := by rw [hc]; rfl
      have hplace := hs.place hsome
      have hwhole := hs.whole_of_some hc
      rw [CommentStage.held, List.append_nil] at done_eq
      rw [← done_eq] at hplace hwhole
      unfold stepComment
      rw [hc]
      dsimp only
      split
      · exact ⟨hsome, .comment rest grows hwhole.symm (Span.denotes_point hplace)⟩
      · obtain ⟨node', hrest, hgrows, htext⟩ := resting_addText rest grows hplace
        refine ⟨hsome, .comment hrest ?_ ?_ trivial⟩
        · intro run hrun
          cases hrun
          exact hgrows
        · rw [htext, ← hwhole]
          exact List.append_nil whole
    | mark first start => exact keeps_stepComment_mark hs hc rest grows done_eq placed
    | opened opener =>
      unfold stepComment
      rw [hc]
      dsimp only
      split
      · exact refused_of_held hs hheld (CommentStage.length_held_le _) trivial
      · have hinner := rest.push (.comment tree.size none .body) .comment ⟨opener.first, sight.here⟩
          List.mem_cons_self rfl fun _ => placed.first
        rw [rest.shows.size_eq] at hinner ⊢
        obtain ⟨hopened, htext⟩ := hinner.pushLeaf .literal opener
          (show ("(*" : String).toList = ['(', '*'] by decide) fun _ => by
            rw [Spine.text_bare_cons]
            exact placed
        refine .idle hopened ?_ trivial
        rw [htext, Spine.text_bare_cons]
        exact done_eq

/-- A comment begins as a child of the production that waits for it. -/
theorem keeps_openComment {parent : NodeId} (hs : sight.Reads done whole)
    (hsome : sight.ahead.isSome)
    (rest : Resting sure whole tree (host :: below) (node :: outer))
    (admitted : .comment ∈ host.components) (parent_eq : parent = outer.size)
    (done_eq : Spine.text (node :: outer) = done) :
    (openComment limit sight tree (host :: below) parent).Keeps sure sight done whole := by
  subst parent_eq done_eq
  unfold openComment
  split
  · exact refused_of_shows hs rest.shows rfl fun _ => trivial
  · have hcomment := rest.push (.comment tree.size none .body) .comment (.point sight.here)
      admitted rfl fun _ => hs.place hsome
    exact keeps_openLiteral hs hcomment (List.mem_cons_of_mem _ List.mem_cons_self)
      rest.shows.size_eq (by decide) (by simp)

/-! ### Texts between marks -/

/-- A text between marks goes on, or its second mark begins. -/
theorem keeps_stepQuoted {form : Quoted} {id run : NodeId} (hs : sight.Reads done whole)
    (fill : Filling sure whole tree (.quoted form id none :: below) leaf (node :: outer))
    (run_eq : run = Spine.size (node :: outer))
    (done_eq : Spine.text (node :: outer) ++ leaf.data.toList = done)
    (first : sure → (places whole)[(Spine.text (node :: outer)).length]? = some leaf.span.first) :
    (stepQuoted sight tree below form id (some run)).Keeps sure sight done whole := by
  subst run_eq
  have hid := fill.waiting.id_eq_size
  have hmark : form.mark ≠ '\n' := by
    intro hmark
    rw [Frame.waiting?, if_pos hmark] at hid
    cases hid
  rw [Frame.waiting?, if_neg hmark, Option.some.injEq] at hid
  have hnext : Spine.text (.bare leaf :: node :: outer) = done := by
    rw [Spine.text_cons, OpenNode.text_bare, done_eq]
  unfold stepQuoted
  cases hc : sight.ahead with
  | none =>
    refine refused_of_shows hs fill.shows hnext fun _ => ⟨hc, ?_⟩
    rw [hc]
    exact Nat.zero_le 2
  | some c =>
    have hsome : sight.ahead.isSome := by rw [hc]; rfl
    dsimp only
    split
    · rename_i hend
      have hplace := hs.place hsome
      rw [← done_eq, List.length_append] at hplace
      have hended := fill.waiting.fill (fill.shows.withLast sight.here.left) fun hsure =>
        Span.denotes_of_next (first hsure) hplace (hs.column hc (hend ▸ hmark))
      have hclosing : Resting sure whole _ (.closing id :: below) _ :=
        hended.closing List.mem_cons_self (by rw [Frame.waiting?, if_neg hmark])
      refine keeps_openLiteral hs hclosing (List.mem_singleton.mpr rfl) hid
        (Marks.plain_singleton _) ?_
      rw [Spine.text_add, OpenNode.text_bare]
      exact done_eq
    · refine ⟨hsome, .quoted ⟨fill.shows.pushText c, fill.waiting⟩ rfl ?_ first⟩
      rw [String.toList_push, ← List.append_assoc, OpenNode.label_bare, done_eq,
        hs.whole_of_some hc]

/-- The text between two marks begins. It gets its leaf before it has a character, at the place of
the next one. -/
theorem keeps_stepQuoted_begin {form : Quoted} {id : NodeId} (hs : sight.Reads done whole)
    (hsure : sure → sight.ahead.isSome)
    (rest : Resting sure whole tree (.quoted form id none :: below) (node :: outer))
    (done_eq : Spine.text (node :: outer) = done) :
    (stepQuoted sight tree below form id none).Keeps sure sight done whole := by
  have hid := rest.waiting.id_eq_size
  have hmark : form.mark ≠ '\n' := by
    intro hmark
    rw [Frame.waiting?, if_pos hmark] at hid
    cases hid
  rw [Frame.waiting?, if_neg hmark, Option.some.injEq] at hid
  subst hid
  refine .quoted ⟨rest.shows.push .text (.point sight.here) "", rest.waiting⟩ rest.shows.size_eq ?_
    fun h => done_eq ▸ hs.place (hsure h)
  rw [String.toList_empty, List.append_nil, done_eq]

/-- A text between marks begins as a child of the production that waits for it. -/
theorem keeps_openQuoted {form : Quoted} {parent : NodeId} (hs : sight.Reads done whole)
    (hsome : sight.ahead.isSome) (hmark : form.mark ≠ '\n')
    (rest : Resting sure whole tree (host :: below) (node :: outer))
    (admitted : .primary ∈ host.components) (parent_eq : parent = outer.size)
    (done_eq : Spine.text (node :: outer) = done) :
    (openQuoted sight tree (host :: below) parent form).Keeps sure sight done whole := by
  subst parent_eq done_eq
  have hquoted := rest.push (.quoted form tree.size none) (.primary form.primary)
    (.point sight.here) admitted (if_neg hmark) fun _ => hs.place hsome
  exact keeps_openLiteral hs hquoted List.mem_cons_self rest.shows.size_eq
    (Marks.plain_singleton _) (by simp)

/-! ### Brackets -/

/-- A bracket whose opener was held back begins where the opener does, and has it as its first
child. -/
theorem keeps_attachBracket {parent : NodeId} {b : Bracket} {opener : Span}
    (hs : sight.Reads done whole)
    (rest : Resting sure whole tree (host :: below) (node :: outer))
    (admitted : .primary ∈ host.components) (parent_eq : parent = outer.size)
    (done_eq : Spine.text (node :: outer) ++ b.roundOpener.toList = done)
    (denotes : opener.Denotes whole (Spine.text (node :: outer)).length b.roundOpener.toList) :
    (attachBracket limit sight tree (host :: below) parent b opener).Keeps sure sight done
      whole := by
  subst parent_eq
  unfold attachBracket
  split
  · exact refused_of_held hs (by rw [rest.shows.text, done_eq]) b.length_roundOpener_le trivial
  · have hbracket := rest.push (.bracket b tree.size (.opened (tree.size + 1)))
      (.primary (.bracketed b none)) ⟨opener.first, sight.here⟩ admitted rfl
      fun _ => denotes.first
    rw [rest.shows.size_eq] at hbracket ⊢
    obtain ⟨hopened, htext⟩ := hbracket.pushLeaf .literal opener
      (rfl : b.roundOpener.toList = _) fun _ => by
        rw [Spine.text_bare_cons]
        exact denotes
    refine .idle hopened ?_ trivial
    rw [htext, Spine.text_bare_cons, done_eq]

/-- A `(` turns out to be a part of an opener or the opener of a group. -/
theorem keeps_stepParen {parent : NodeId} {start : Position} (hs : sight.Reads done whole)
    (rest : Resting sure whole tree (host :: below) (node :: outer))
    (admitted : .primary ∈ host.components) (parent_eq : parent = outer.size)
    (done_eq : Spine.text (node :: outer) ++ ['('] = done)
    (denotes : (Span.point start).Denotes whole (Spine.text (node :: outer)).length ['(']) :
    (stepParen limit sight tree (host :: below) parent start).Keeps sure sight done whole := by
  unfold stepParen
  cases hc : sight.ahead with
  | none =>
    have hheld : tree.text.toList ++ ['('] = done := by rw [rest.shows.text, done_eq]
    refine refused_of_held hs hheld (Nat.le_succ 1) ⟨hc, ?_⟩
    rw [hc]
    exact Nat.le_succ 1
  | some c =>
    have hsome : sight.ahead.isSome := by rw [hc]; rfl
    have hplace := hs.place hsome
    have hwhole := hs.whole_of_some hc
    rw [← done_eq, List.length_append] at hplace
    rw [← done_eq, List.append_assoc] at hwhole
    dsimp only
    split
    · rename_i hslash
      subst hslash
      exact ⟨hsome, .opener rest admitted parent_eq hwhole.symm
        (Span.denotes_snoc ['('] '/' denotes.first hplace)⟩
    · split
      · rename_i hcolon
        subst hcolon
        exact ⟨hsome, .opener rest admitted parent_eq hwhole.symm
          (Span.denotes_snoc ['('] ':' denotes.first hplace)⟩
      · exact keeps_attachBracket hs rest admitted parent_eq done_eq denotes

/-- A bracket begins as a child of the production that waits for it. -/
theorem keeps_openBracket {parent : NodeId} {b : Bracket} (hs : sight.Reads done whole)
    (hsome : sight.ahead.isSome)
    (rest : Resting sure whole tree (host :: below) (node :: outer))
    (admitted : .primary ∈ host.components) (parent_eq : parent = outer.size)
    (done_eq : Spine.text (node :: outer) = done) :
    (openBracket limit sight tree (host :: below) parent b).Keeps sure sight done whole := by
  subst parent_eq done_eq
  unfold openBracket
  split
  · exact refused_of_shows hs rest.shows rfl fun _ => trivial
  · have hbracket := rest.push (.bracket b tree.size (.opened (tree.size + 1)))
      (.primary (.bracketed b none)) (.point sight.here) admitted rfl fun _ => hs.place hsome
    exact keeps_openLiteral hs hbracket List.mem_cons_self rest.shows.size_eq b.plain_openers
      (by simp)

/-- A bracket waits for its definitions or for its closer, and records its opener when it is
there. -/
theorem keeps_stepBracket {b : Bracket} {id : NodeId} {stage : BracketStage}
    (hs : sight.Reads done whole) (hsure : sure → sight.ahead.isSome)
    (rest : Resting sure whole tree (.bracket b id stage :: below) (node :: outer))
    (done_eq : Spine.text (node :: outer) = done) :
    (stepBracket sight tree below b id stage).Keeps sure sight done whole := by
  have hid := rest.waiting.id_eq_size
  unfold stepBracket
  match stage, hid with
  | .opened opening, hid =>
    obtain rfl : id = outer.size := Option.some.inj hid
    have hrest := rest.withKind (.primary (.bracketed b (some opening)))
    dsimp only
    split
    · exact keeps_openSpace hs hrest (List.mem_cons_of_mem _ List.mem_cons_self) rfl done_eq
    · have hbody := hrest.advance (.bracket b outer.size (.body none)) nofun rfl rfl
      have hlist := hbody.push (.definitions _ .start) .definitionList (.point sight.here)
        List.mem_cons_self rfl fun h => done_eq ▸ hs.place (hsure h)
      exact .idle hlist ((Spine.text_bare_cons ..).trans done_eq) trivial
  | .body none, hid =>
    obtain rfl : id = outer.size := Option.some.inj hid
    have hclosing := rest.closing List.mem_cons_self rfl
    exact keeps_openLiteral hs hclosing List.mem_cons_self rfl b.plain_closers done_eq

/-- A bracket whose definitions ended with the closer of a repeat. The closer was taken already, so
it becomes a child at once, or it is held where it does not fit. -/
theorem keeps_stepBracket_handed {b : Bracket} {id : NodeId} {closer : Span}
    (hs : sight.Reads done whole)
    (rest : Resting sure whole tree (.bracket b id (.body none) :: below) (node :: outer))
    (done_eq : Spine.text (node :: outer) ++ ['/', ')'] = done)
    (denotes : closer.Denotes whole (Spine.text (node :: outer)).length ['/', ')']) :
    (stepBracket sight tree below b id (.body (some closer))).Keeps sure sight done whole := by
  have hid : id = outer.size := Option.some.inj rest.waiting.id_eq_size
  subst hid
  unfold stepBracket
  dsimp only
  split
  · obtain ⟨hclosed, htext⟩ := rest.pushLeaf .literal closer
      (show ("/)" : String).toList = ['/', ')'] by decide) fun _ => denotes
    refine hclosed.leaveAt nofun nofun (htext.trans done_eq) (by simp) ?_
    rw [← done_eq, List.length_append]
    exact denotes.last nofun
  · have hheld : tree.text.toList ++ ['/', ')'] = done := by rw [rest.shows.text, done_eq]
    refine refused_of_held hs hheld (Nat.le_refl 2) ⟨rfl, List.prefix_append .., ?_⟩
    rw [rest.shows.text]
    exact denotes

/-- The primary begins that the next character starts, and with it the leaf for that character. -/
theorem keeps_openPrimary {parent : NodeId} {c : Char} (hs : sight.Reads done whole)
    (hc : sight.ahead = some c)
    (rest : Resting sure whole tree (host :: below) (node :: outer))
    (admitted : .primary ∈ host.components) (named : .name ∈ host.components)
    (parent_eq : parent = outer.size) (done_eq : Spine.text (node :: outer) = done) :
    (openPrimary limit sight tree (host :: below) parent c).Keeps sure sight done whole := by
  have hsome : sight.ahead.isSome := by rw [hc]; rfl
  unfold openPrimary
  split
  · rename_i hletter
    rw [expectIdentifier_of_isLetter hletter]
    exact keeps_openIdentifier hs hc hletter rest named parent_eq done_eq
  · split
    · rename_i hquote
      rw [expectTerminal_of_isQuote hquote]
      refine keeps_openQuoted hs hsome ?_ rest admitted parent_eq done_eq
      rintro rfl
      exact absurd hquote (by decide)
    · split
      · exact keeps_openBracket hs hsome rest admitted parent_eq done_eq
      · split
        · exact keeps_openBracket hs hsome rest admitted parent_eq done_eq
        · split
          · exact keeps_openQuoted hs hsome (by decide) rest admitted parent_eq done_eq
          · split
            · rename_i hparen
              subst hparen
              have hplace := hs.place hsome
              have hwhole := hs.whole_of_some hc
              rw [← done_eq] at hplace hwhole
              exact ⟨hsome, .paren rest admitted parent_eq hwhole.symm (Span.denotes_point hplace)⟩
            · exact keeps_unexpected hs rest.shows done_eq

end

end LosslessEbnf
