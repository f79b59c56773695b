import LosslessEbnf.Proofs.Exchange
import LosslessEbnf.Proofs.Levels

/-!
# Heights of trees

A tree has at most five levels for each comment or bracket that may be nested, and seven besides.

## Main Definitions

* `Frame.host?`, `Frame.level` — the node that a production puts its components below, and how far
  that node lies below the comment or bracket around it
* `Shallow` — all nodes are near enough to the root, and so are those of the open productions

## Main Statements

* `shallow_step` — a step leaves the tree shallow
* `height_parse_le` — the tree of a source

## Design Notes

From one bracket to the next there is a list, a definition, a term and an exception, which is the
longest way; so the node of a production lies at most five levels deeper for each bracket that is
open. In the innermost one there may be a text between marks, and the marks lie two levels below the
exception.

A bracket whose closer is being read does not count any more, although its node is as deep as it was
before. Nothing but the closer is put below it, so it has no host.
-/

namespace LosslessEbnf

variable {limit bound : Nat} {sight : Sight} {tree : Tree} {frame frame' : Frame}
  {frames below : List Frame} {id node parent : NodeId} {c : Char}

/-! ### Where components are put -/

/-- The node that the production puts its components below. A leaf has none, and a production that
ends puts nothing below its node. -/
def Frame.host? : Frame → Option NodeId
  | grammar _ => some Tree.root
  | comment node .. | product node .. | definitions node _ | definition node .. => some node
  | term node .. | exception node .. | repetition node => some node
  | bracket _ node _ | quoted _ node _ => some node
  | paren parent _ | opener _ parent _ | identifier _ parent _ => some parent
  | run .. | literal .. | matched .. | closing _ => none

/-- How many levels that node may lie below those that the open comments and brackets are given. -/
def Frame.level : Frame → Nat
  | comment .. | product .. | bracket .. => 1
  | definitions .. => 2
  | definition .. => 3
  | term .. => 4
  | exception .. | repetition _ | paren .. | opener .. | identifier .. => 5
  | quoted .. => 6
  | grammar _ | run .. | literal .. | matched .. | closing _ => 0

/-- The components of a text between marks lie deepest below the last bracket, six levels down. -/
theorem Frame.level_le (frame : Frame) : frame.level ≤ 6 := by
  cases frame <;> simp [level]

/-- Where the production puts its components, and whether it counts. -/
def Frame.place (frame : Frame) : Option NodeId × Nat × Bool :=
  (frame.host?, frame.level, frame.nests)

/-- The node is in the tree, and at most so many levels below the root. -/
structure Tree.Near (tree : Tree) (bound : Nat) (id : NodeId) : Prop where
  /-- It is in the tree. -/
  lt : id < tree.size
  /-- It is so near to the root. -/
  depth_le : tree.depth id ≤ bound

/-- The nodes that the open productions put components below are near enough to the root. -/
def Tree.Bears (tree : Tree) : List Frame → Prop
  | [] => True
  | frame :: below =>
    (∀ id, frame.host? = some id → tree.Near (5 * nesting (frame :: below) + frame.level) id) ∧
      tree.Bears below

/-- The tree is no higher than the limit allows, and it will not get any higher by what the open
productions put into it. -/
structure Shallow (limit : Nat) (tree : Tree) (frames : List Frame) : Prop where
  /-- The tree is as high as it may be at most. -/
  height_le : tree.height ≤ 5 * limit + 7
  /-- No more comments and brackets are open than may be nested. -/
  nesting_le : nesting frames ≤ limit
  /-- The productions go on near enough to the root. -/
  bears : tree.Bears frames

/-! ### Changed trees -/

namespace Tree

variable {kind : Kind} {span : Span} {data : String} {change : Node → Node} {other : NodeId}

/-- What lies near enough for one bound lies near enough for a greater one. -/
theorem Near.mono {bound' : Nat} (h : tree.Near bound id) (hle : bound ≤ bound') :
    tree.Near bound' id :=
  ⟨h.lt, Nat.le_trans h.depth_le hle⟩

/-- A node stays where it is when some node is changed, as long as the change leaves the depth
alone. -/
theorem Near.update (h : tree.Near bound id)
    (hchange : ∀ node, (change node).depth = node.depth) :
    (tree.update other change).Near bound id :=
  ⟨by rw [size_update]; exact h.lt, by rw [depth_update hchange]; exact h.depth_le⟩

/-- A node stays where it is when another one is added to the tree. -/
theorem Near.push (h : tree.Near bound id) : (tree.pushChild parent kind span data).Near bound id :=
  ⟨by rw [size_pushChild]; exact Nat.lt_succ_of_lt h.lt,
    by rw [depth_pushChild_of_ne (Nat.ne_of_lt h.lt)]; exact h.depth_le⟩

/-- A new child is one level below its parent. -/
theorem Near.child (h : tree.Near bound parent) :
    (tree.pushChild parent kind span data).Near (bound + 1) tree.size := by
  refine ⟨by rw [size_pushChild]; exact Nat.lt_succ_self _, ?_⟩
  rw [(hangs_pushChild h.lt).depth_eq, depth_pushChild_of_ne (Nat.ne_of_lt h.lt)]
  exact Nat.succ_le_succ h.depth_le

/-- What is known of the nodes that are near is known of those of the productions. -/
theorem Bears.mono {tree' : Tree} (h : tree.Bears frames)
    (hnear : ∀ bound id, tree.Near bound id → tree'.Near bound id) : tree'.Bears frames := by
  induction frames with
  | nil => trivial
  | cons frame below ih => exact ⟨fun id hhost => hnear _ _ (h.1 id hhost), ih h.2⟩

end Tree

/-! ### Shallow trees -/

namespace Shallow

/-- When a production ends, those around it go on as they did. None of them comes to lie deeper by
that. -/
theorem rest (h : Shallow limit tree (frame :: below)) : Shallow limit tree below :=
  ⟨h.height_le, Nat.le_trans (nesting_cons .. ▸ Nat.le_add_right ..) h.nesting_le, h.bears.2⟩

/-- The production on top puts its components below a node that is near enough. -/
theorem host (h : Shallow limit tree (frame :: below)) (hhost : frame.host? = some id) :
    tree.Near (5 * nesting (frame :: below) + frame.level) id :=
  h.bears.1 id hhost

/-- What is near enough for the open productions is near enough for the limit. -/
theorem within (h : Shallow limit tree frames) {level : Nat}
    (hid : tree.Near (5 * nesting frames + level) id) (hlevel : level ≤ 6) :
    tree.Near (5 * limit + 6) id :=
  hid.mono (Nat.add_le_add (Nat.mul_le_mul_left 5 h.nesting_le) hlevel)

/-- The node below which the production on top puts its components has room for one more level,
whatever the production is. -/
theorem near (h : Shallow limit tree (frame :: below)) (hhost : frame.host? = some id) :
    tree.Near (5 * limit + 6) id :=
  h.within (h.host hhost) frame.level_le

/-- A change of a node makes no tree higher, and moves no node, as long as it leaves the depth
alone. -/
theorem update (h : Shallow limit tree frames) {change : Node → Node}
    (hchange : ∀ node, (change node).depth = node.depth) :
    Shallow limit (tree.update id change) frames :=
  ⟨h.height_le, h.nesting_le, h.bears.mono fun _ _ hnear => hnear.update hchange⟩

/-- To record a component in its node moves no node. -/
theorem withKind (h : Shallow limit tree frames) (kind : Kind) :
    Shallow limit (tree.withKind id kind) frames :=
  h.update fun _ => rfl

/-- To say where a node begins moves no node. -/
theorem withFirst (h : Shallow limit tree frames) (first : Position) :
    Shallow limit (tree.withFirst id first) frames :=
  h.update fun _ => rfl

/-- To say where a node ends moves no node. -/
theorem withLast (h : Shallow limit tree frames) (last : Position) :
    Shallow limit (tree.withLast id last) frames :=
  h.update fun _ => rfl

/-- To fill in the text of a node moves no node. -/
theorem withData (h : Shallow limit tree frames) (data : String) :
    Shallow limit (tree.withData id data) frames :=
  h.update fun _ => rfl

/-- To add a character to the text of a node moves no node. -/
theorem pushText (h : Shallow limit tree frames) (c : Char) :
    Shallow limit (tree.pushText id c) frames :=
  h.update fun _ => rfl

/-- To let a leaf grow by a character moves no node. -/
theorem extend (h : Shallow limit tree frames) (c : Char) (here : Position) :
    Shallow limit (tree.extend id c here) frames :=
  (h.pushText c).withLast here

/-- To end a node with its last child moves no node. -/
theorem closeAtLastChild (h : Shallow limit tree frames) :
    Shallow limit (tree.closeAtLastChild id) frames := by
  unfold Tree.closeAtLastChild
  split
  · exact h.withLast _
  · exact h

/-- A new child of a node that is near enough. -/
theorem push (h : Shallow limit tree frames) (hparent : tree.Near (5 * limit + 6) parent)
    {kind : Kind} {span : Span} {data : String} :
    Shallow limit (tree.pushChild parent kind span data) frames :=
  ⟨Nat.max_le.mpr ⟨h.height_le, Nat.succ_le_succ hparent.depth_le⟩, h.nesting_le,
    h.bears.mono fun _ _ hnear => hnear.push⟩

/-- A leaf begins. Nothing will be added below it, so it asks for no room. -/
theorem leaf (h : Shallow limit tree below) (hhost : frame.host? = none)
    (hnests : frame.nests = false) : Shallow limit tree (frame :: below) := by
  refine ⟨h.height_le, ?_, fun id hid => ?_, h.bears⟩
  · rw [nesting_cons, hnests]
    exact h.nesting_le
  · rw [hhost] at hid
    cases hid

/-- A production begins that does not count. Its node lies as deep as its level allows above the
brackets and comments that are open. -/
theorem plain (h : Shallow limit tree below) (hhost : frame.host? = some id)
    (hnests : frame.nests = false) (hnear : tree.Near (5 * nesting below + frame.level) id) :
    Shallow limit tree (frame :: below) := by
  have hnesting : nesting (frame :: below) = nesting below := by
    rw [nesting_cons, hnests]
    rfl
  refine ⟨h.height_le, hnesting ▸ h.nesting_le, fun other hother => ?_, h.bears⟩
  obtain rfl := Option.some.inj (hhost.symm.trans hother)
  rwa [hnesting]

/-- A comment or a bracket begins where one more fits in. -/
theorem nested (h : Shallow limit tree below) (hhost : frame.host? = some id)
    (hnests : frame.nests = true) (hlimit : ¬ limit ≤ nesting below)
    (hnear : tree.Near (5 * nesting below + 5 + frame.level) id) :
    Shallow limit tree (frame :: below) := by
  have hnesting : nesting (frame :: below) = nesting below + 1 := by
    rw [nesting_cons, hnests]
    rfl
  refine ⟨h.height_le, hnesting ▸ Nat.lt_of_not_le hlimit, fun other hother => ?_, h.bears⟩
  obtain rfl := Option.some.inj (hhost.symm.trans hother)
  rwa [hnesting]

/-- A production whose closer is read puts nothing below its node. -/
theorem closing (h : Shallow limit tree below) (id : NodeId) :
    Shallow limit tree (.closing id :: below) :=
  h.leaf rfl rfl

/-- The production on top goes on with the same node. -/
theorem turn (h : Shallow limit tree (frame :: below)) (frame' : Frame)
    (hplace : frame'.place = frame.place) : Shallow limit tree (frame' :: below) := by
  obtain ⟨hhost, hcounts⟩ := Prod.mk.inj hplace
  obtain ⟨hlevel, hnests⟩ := Prod.mk.inj hcounts
  have hnesting : nesting (frame' :: below) = nesting (frame :: below) := by
    rw [nesting_cons, nesting_cons, hnests]
  refine ⟨h.height_le, hnesting ▸ h.nesting_le, fun id hid => ?_, h.bears.2⟩
  rw [hnesting, hlevel]
  exact h.host (hhost ▸ hid)

/-- A closer that is handed over leaves the productions where they are. -/
theorem handOver (h : Shallow limit tree frames) (closer : Span) :
    Shallow limit tree (handOver closer frames) := by
  unfold LosslessEbnf.handOver
  split
  · exact h.turn (.product _ _ _) rfl
  · exact h.turn (.bracket _ _ _) rfl
  · exact h

end Shallow

/-! ### Components that begin -/

/-- The tree that a move leaves is shallow. -/
def Move.Shallow (limit : Nat) : Move → Prop
  | again tree frames | next tree frames => LosslessEbnf.Shallow limit tree frames
  | accept tree | reject tree _ => tree.height ≤ 5 * limit + 7

/-- A character that is not expected leaves the tree as high as it was. -/
theorem shallow_unexpected (h : Shallow limit tree frames) (expected : Expectation) :
    (sight.unexpected tree expected).Shallow limit := by
  unfold Sight.unexpected
  split <;> exact h.height_le

/-- A mark that ends, with the longest candidate or with none, leaves the tree as high as it was. -/
theorem shallow_settleLiteral (h : Shallow limit tree below) (best : Option (List Char × Position))
    (cause : Cause) : (settleLiteral tree below node best cause).Shallow limit := by
  unfold settleLiteral
  split
  · exact (h.withData _).withLast _
  · exact h.height_le

/-- A mark is a leaf whose node is there from the beginning, so reading on adds no level. -/
theorem shallow_stepLiteral (h : Shallow limit tree below) (candidates : List String)
    (read : List Char) (best : Option (List Char × Position)) :
    (stepLiteral sight tree below node candidates read best).Shallow limit := by
  unfold stepLiteral
  split
  · dsimp only
    split
    · exact h.leaf rfl rfl
    split
    · exact h.leaf rfl rfl
    · exact shallow_settleLiteral h ..
  · exact shallow_settleLiteral h ..

/-- A mark that begins is one level below its parent, and nothing is ever put below a mark. -/
theorem shallow_openLiteral (h : Shallow limit tree frames)
    (hparent : tree.Near (5 * limit + 6) parent) (candidates : List String) :
    (openLiteral sight tree frames parent candidates).Shallow limit :=
  shallow_stepLiteral (h.push hparent) ..

/-- White space that begins is one level below its parent, and nothing is ever put below it. -/
theorem shallow_openSpace (h : Shallow limit tree frames)
    (hparent : tree.Near (5 * limit + 6) parent) :
    (openSpace sight tree frames parent).Shallow limit := by
  unfold openSpace
  split
  · split
    · exact (h.push hparent).leaf rfl rfl
    · exact h.height_le
  · exact h.height_le

/-- A name is a leaf, and the white space behind it is put beside it. So a name goes on with the
node of its parent. -/
theorem shallow_openIdentifier (h : Shallow limit tree frames)
    (hparent : tree.Near (5 * nesting frames + 5) parent) :
    (openIdentifier sight tree frames parent c).Shallow limit :=
  (h.push (h.within hparent (by decide))).plain rfl rfl hparent.push

/-- Where a name is expected it begins as a leaf, or the character is refused and nothing is
added. -/
theorem shallow_expectIdentifier (h : Shallow limit tree frames)
    (hparent : tree.Near (5 * nesting frames + 5) parent) :
    (expectIdentifier sight tree frames parent c).Shallow limit := by
  unfold expectIdentifier
  split
  · exact shallow_openIdentifier h hparent
  · exact shallow_unexpected h _

/-- A text between marks is one level below its parent, and its marks and its text are one level
further down, which is the deepest place there is. -/
theorem shallow_openQuoted (h : Shallow limit tree frames)
    (hparent : tree.Near (5 * nesting frames + 5) parent) (form : Quoted) :
    (openQuoted sight tree frames parent form).Shallow limit := by
  have hquoted : Shallow limit
      (tree.pushChild parent (.primary form.primary) (.point sight.here))
      (.quoted form tree.size none :: frames) :=
    (h.push (h.within hparent (by decide))).plain rfl rfl hparent.child
  exact shallow_openLiteral hquoted (hquoted.near rfl) _

/-- Where a terminal is expected it begins below its parent, or the character is refused and nothing
is added. -/
theorem shallow_expectTerminal (h : Shallow limit tree frames)
    (hparent : tree.Near (5 * nesting frames + 5) parent) :
    (expectTerminal sight tree frames parent c).Shallow limit := by
  unfold expectTerminal
  split
  · exact shallow_openQuoted h hparent _
  · exact shallow_unexpected h _

/-- A comment is one level below its parent, and has five levels more at its disposal. -/
theorem shallow_openComment (h : Shallow limit tree frames)
    (hparent : tree.Near (5 * nesting frames + 5) parent) :
    (openComment limit sight tree frames parent).Shallow limit := by
  unfold openComment
  split
  · exact h.height_le
  · rename_i hlimit
    have hcomment : Shallow limit (tree.pushChild parent .comment (.point sight.here))
        (.comment tree.size none .body :: frames) :=
      (h.push (h.within hparent (by decide))).nested rfl rfl hlimit hparent.child
    exact shallow_openLiteral hcomment (hcomment.near rfl) _

/-- A bracket is one level below its parent, and has five levels more at its disposal. -/
theorem Shallow.bracket (h : Shallow limit tree frames) (hlimit : ¬ limit ≤ nesting frames)
    (hparent : tree.Near (5 * nesting frames + 5) parent) (b : Bracket) (span : Span)
    (stage : BracketStage) :
    Shallow limit (tree.pushChild parent (.primary (.bracketed b none)) span)
      (.bracket b tree.size stage :: frames) :=
  (h.push (h.within hparent (by decide))).nested rfl rfl hlimit hparent.child

/-- A bracket is refused where no further one fits in. Where one does, its opener is a leaf below
it. -/
theorem shallow_openBracket (h : Shallow limit tree frames)
    (hparent : tree.Near (5 * nesting frames + 5) parent) (b : Bracket) :
    (openBracket limit sight tree frames parent b).Shallow limit := by
  unfold openBracket
  split
  · exact h.height_le
  · have hbracket := h.bracket ‹_› hparent b (.point sight.here) (.opened (tree.size + 1))
    exact shallow_openLiteral hbracket (hbracket.near rfl) _

/-- A bracket whose opener was held back is let in like one whose opener begins, and the opener is a
leaf below it. -/
theorem shallow_attachBracket (h : Shallow limit tree frames)
    (hparent : tree.Near (5 * nesting frames + 5) parent) (b : Bracket) (opener : Span) :
    (attachBracket limit sight tree frames parent b opener).Shallow limit := by
  unfold attachBracket
  split
  · exact h.height_le
  · have hbracket := h.bracket ‹_› hparent b ⟨opener.first, sight.here⟩ (.opened (tree.size + 1))
    exact hbracket.push (hbracket.near rfl)

/-- Every primary is one level below its parent, and only those between marks and those in brackets
have anything below them. -/
theorem shallow_openPrimary (h : Shallow limit tree frames)
    (hparent : tree.Near (5 * nesting frames + 5) parent) :
    (openPrimary limit sight tree frames parent c).Shallow limit := by
  unfold openPrimary
  split
  · exact shallow_expectIdentifier h hparent
  split
  · exact shallow_expectTerminal h hparent
  split
  · exact shallow_openBracket h hparent _
  split
  · exact shallow_openBracket h hparent _
  split
  · exact shallow_openQuoted h hparent _
  split
  · exact h.plain rfl rfl hparent
  · exact shallow_unexpected h _

/-- A repetition is one level below the term, and its number and its star are leaves below it. -/
theorem shallow_openRepetition (h : Shallow limit tree frames)
    (hparent : tree.Near (5 * nesting frames + 4) parent) :
    (openRepetition sight tree frames parent c).Shallow limit := by
  have hrepetition : Shallow limit (tree.pushChild parent .repetition (.point sight.here))
      (.repetition tree.size :: frames) :=
    (h.push (h.within hparent (by decide))).plain rfl rfl hparent.child
  unfold openRepetition expectNumber
  split
  · exact (hrepetition.push (hrepetition.near rfl)).leaf rfl rfl
  · exact shallow_unexpected hrepetition _

/-- A product is one level below the root, and its name is a leaf below it. -/
theorem shallow_openProduct (h : Shallow limit tree frames)
    (hparent : tree.Near (5 * nesting frames) parent) :
    (openProduct sight tree frames parent c).Shallow limit := by
  have hnear : tree.Near (5 * limit + 6) parent :=
    h.within (hparent.mono (Nat.le_add_right _ 6)) (Nat.le_refl 6)
  have hproduct : Shallow limit (tree.pushChild parent (.product none none) (.point sight.here))
      (.product tree.size (tree.size + 1) .name :: frames) :=
    (h.push hnear).plain rfl rfl hparent.child
  unfold openProduct
  split
  · exact shallow_expectIdentifier hproduct ((hproduct.host rfl).mono (by simp [Frame.level]))
  · exact shallow_unexpected h _

/-! ### Productions that go on -/

/-- A run grows inside its leaf, or it ends and leaves the tree as it is. -/
theorem shallow_stepRun (h : Shallow limit tree below) (run : Run) :
    (stepRun sight tree below run node).Shallow limit := by
  unfold stepRun
  split
  · split
    · exact (h.extend ..).leaf rfl rfl
    · exact h
  · exact h

/-- A text in a comment is a leaf below it, or it grows inside such a leaf. -/
theorem shallow_addText (h : Shallow limit tree frames) (hnode : tree.Near (5 * limit + 6) node)
    (text : Option NodeId) (here : Position) :
    Shallow limit (addText tree node text c here).1 frames := by
  unfold addText
  split
  · exact h.extend ..
  · exact h.push hnode

/-- A comment puts leaves below its node. A nested one is let in only where one more fits, and then
it has five levels more. -/
theorem shallow_stepComment {text : Option NodeId} {stage : CommentStage}
    (h : Shallow limit tree (.comment node text stage :: below)) :
    (stepComment limit sight tree below node text stage).Shallow limit := by
  have hnode := h.near rfl
  unfold stepComment
  split
  · exact h.height_le
  · cases stage with
    | body =>
      dsimp only
      split
      · exact h.turn (.comment node _ _) rfl
      · exact (shallow_addText h hnode ..).turn (.comment node _ _) rfl
    | mark first start =>
      dsimp only
      split
      · exact (h.rest.push hnode).withLast _
      split
      · exact h.turn (.comment node _ _) rfl
      · exact (shallow_addText h hnode ..).turn (.comment node _ _) rfl
    | opened opener =>
      dsimp only
      split
      · exact h.height_le
      · rename_i hlimit
        have hbody : Shallow limit tree (.comment node none .body :: below) :=
          h.turn (.comment node _ _) rfl
        have hparent : tree.Near (5 * nesting (.comment node none .body :: below) + 5) node :=
          (hbody.host rfl).mono (by simp [Frame.level])
        have hinner : Shallow limit (tree.pushChild node .comment ⟨opener.first, sight.here⟩)
            (.comment tree.size none .body :: .comment node none .body :: below) :=
          (hbody.push hnode).nested rfl rfl hlimit hparent.child
        exact hinner.push (hinner.near rfl)

/-- A name grows inside its leaf. When it ends, the white space behind it becomes a leaf below the
parent that both have. -/
theorem shallow_stepIdentifier {trailing : Option Span}
    (h : Shallow limit tree (.identifier node parent trailing :: below)) :
    (stepIdentifier sight tree below node parent trailing).Shallow limit := by
  have hspace : ∀ name span blank,
      Shallow limit ((tree.withData node name).pushChild parent .space span blank) below :=
    fun _ _ _ => (h.rest.withData _).push ((h.near rfl).update fun _ => rfl)
  unfold stepIdentifier
  dsimp only
  split
  · split
    · split
      · exact (h.pushText _).turn (.identifier node parent _) rfl
      · exact (h.extend ..).turn (.identifier node parent _) rfl
    split
    · exact h.rest
    · exact hspace ..
  split
  · exact h.rest
  · exact hspace ..

/-- A text between marks puts two kinds of leaves below its node: the text itself and the marks
around it. -/
theorem shallow_stepQuoted {form : Quoted} {text : Option NodeId}
    (h : Shallow limit tree (.quoted form node text :: below)) :
    (stepQuoted sight tree below form node text).Shallow limit := by
  have hnode := h.near rfl
  cases text with
  | none => exact (h.push hnode).turn (.quoted form node _) rfl
  | some run =>
    unfold stepQuoted
    dsimp only
    split
    · exact h.height_le
    · split
      · exact shallow_openLiteral ((h.rest.withLast _).closing node) (hnode.update fun _ => rfl) _
      · exact h.pushText _

/-- A parenthesis has not added anything yet, so what it turns out to open is put below the node
that the parenthesis waits in. -/
theorem shallow_stepParen {start : Position}
    (h : Shallow limit tree (.paren parent start :: below)) :
    (stepParen limit sight tree below parent start).Shallow limit := by
  unfold stepParen
  split
  · exact h.height_le
  split
  · exact h.turn (.opener _ parent _) rfl
  split
  · exact h.turn (.opener _ parent _) rfl
  · exact shallow_attachBracket h.rest (h.host rfl) ..

/-- A bracket puts leaves and a list below its node. When its closer begins, the bracket does not
count any more. -/
theorem shallow_stepBracket {b : Bracket} {stage : BracketStage}
    (h : Shallow limit tree (.bracket b node stage :: below)) :
    (stepBracket sight tree below b node stage).Shallow limit := by
  match stage with
  | .opened opening =>
    have hopening : Shallow limit (tree.withKind node (.primary (.bracketed b (some opening))))
        (.bracket b node (.opened opening) :: below) := h.withKind _
    show Move.Shallow limit (if sight.ahead.any isSpace then _ else _)
    split
    · exact shallow_openSpace hopening (hopening.near rfl)
    · have hbody : Shallow limit _ (.bracket b node (.body none) :: below) :=
        hopening.turn (.bracket b node _) rfl
      exact (hbody.push (hbody.near rfl)).plain rfl rfl (hbody.host rfl).child
  | .body none => exact shallow_openLiteral (h.rest.closing node) (h.near rfl) _
  | .body (some closer) =>
    show Move.Shallow limit (if b = .repeated then _ else _)
    split
    · exact (h.rest.push (h.near rfl)).withLast _
    · exact h.height_le

/-! ### Terms -/

/-- A term that ends may get an empty string, which is a leaf one level below it. -/
theorem shallow_endTerm {parts : TermParts}
    (h : Shallow limit tree (.term node parts false :: below)) :
    (endTerm sight tree below node parts).Shallow limit := by
  unfold endTerm
  split
  · exact h.rest.closeAtLastChild
  · exact ((h.rest.push (h.near rfl)).withKind _).closeAtLastChild

/-- The components of a term are one level below it. An exception begins there, so that its primary
is two levels below the term. -/
theorem shallow_stepTerm {parts : TermParts} {dash : Bool}
    (h : Shallow limit tree (.term node parts dash :: below)) :
    (stepTerm limit sight tree below node parts dash).Shallow limit := by
  have hterm : Shallow limit (tree.withKind node (.term parts)) (.term node parts dash :: below) :=
    h.withKind _
  have hnode := hterm.near rfl
  unfold stepTerm
  generalize tree.withKind node (.term parts) = changed at *
  dsimp only
  cases dash with
  | true =>
    have hdone : Shallow limit changed
        (.term node { parts with exception := some changed.size } false :: below) :=
      hterm.turn (.term node _ _) rfl
    exact (hdone.push hnode).plain rfl rfl (hdone.host rfl).child
  | false =>
    rw [if_neg Bool.false_ne_true]
    split
    · exact shallow_endTerm hterm
    split
    · exact shallow_openSpace hterm hnode
    split
    · split
      · exact hterm.height_le
      · exact shallow_openRepetition (hterm.turn (.term node _ _) rfl) (hterm.host rfl)
    split
    · split
      · exact hterm.height_le
      · exact shallow_openLiteral (hterm.turn (.term node parts true) rfl) hnode _
    split
    · split
      · exact hterm.height_le
      · exact shallow_openPrimary (hterm.turn (.term node _ _) rfl)
          ((hterm.host rfl).mono (Nat.le_succ _))
    · exact shallow_endTerm hterm

/-- An exception that ends may get an empty string, which is a leaf one level below it. -/
theorem shallow_endException {term : NodeId} {primary : Option NodeId}
    (h : Shallow limit tree (.exception node term primary :: below)) :
    (endException sight tree below node primary).Shallow limit := by
  unfold endException
  split
  · exact h.rest.closeAtLastChild
  · exact ((h.rest.push (h.near rfl)).withKind _).closeAtLastChild

/-- The primary of an exception is one level below it, and that is as deep as a primary gets below
the last bracket. -/
theorem shallow_stepException {term : NodeId} {primary : Option NodeId}
    (h : Shallow limit tree (.exception node term primary :: below)) :
    (stepException limit sight tree below node term primary).Shallow limit := by
  have hexception : Shallow limit (tree.withKind node (.exception primary))
      (.exception node term primary :: below) := h.withKind _
  unfold stepException
  generalize tree.withKind node (.exception primary) = changed at *
  dsimp only
  split
  · exact shallow_endException hexception
  split
  · exact shallow_openSpace hexception (hexception.near rfl)
  split
  · split
    · exact hexception.height_le
    · exact shallow_openPrimary (hexception.turn (.exception node term _) rfl) (hexception.host rfl)
  · exact shallow_endException hexception

/-- The number of a repetition is read already; its star and white space in front of it are leaves
below it. -/
theorem shallow_stepRepetition (h : Shallow limit tree (.repetition node :: below)) :
    (stepRepetition sight tree below node).Shallow limit := by
  unfold stepRepetition
  split
  · exact shallow_openSpace h (h.near rfl)
  · exact shallow_openLiteral (h.rest.closing node) (h.near rfl) _

/-! ### Definitions and products -/

/-- The term of a definition without a term is one level below the definition, and its empty string
two. -/
theorem shallow_addMissingTerm {start : Position} {term : Option NodeId}
    (h : Shallow limit tree (.definition node start term :: below)) (here : Position) :
    Shallow limit (addMissingTerm tree node term here) (.definition node start term :: below) := by
  cases term with
  | some previous => exact h
  | none =>
    have hpushed : Shallow limit (tree.pushChild node (.term {}) (.gap here))
        (.definition node start none :: below) := h.push (h.near rfl)
    have hterm : (tree.pushChild node (.term {}) (.gap here)).Near
        (5 * nesting (.definition node start none :: below) + 4) tree.size := (h.host rfl).child
    exact (hpushed.push (hpushed.within hterm (by decide))).withKind _

/-- A term and the commas around it are one level below the definition, and the term of a missing
one is there, too. -/
theorem shallow_stepDefinition {start : Position} {term : Option NodeId}
    (h : Shallow limit tree (.definition node start term :: below)) :
    (stepDefinition sight tree below node start term).Shallow limit := by
  have hmissing := shallow_addMissingTerm h sight.here
  unfold stepDefinition
  split
  · exact h.height_le
  split
  · exact shallow_openSpace h (h.near rfl)
  split
  · split
    · exact h.height_le
    · have hdone : Shallow limit tree (.definition node start (some tree.size) :: below) :=
        h.turn (.definition node start _) rfl
      exact (hdone.push (h.near rfl)).plain rfl rfl (hdone.host rfl).child
  split
  · exact shallow_openLiteral (hmissing.turn (.definition node start none) rfl)
      (hmissing.near rfl) _
  · exact hmissing.rest.withLast _

/-- Definitions and the separators between them are one level below their list, and a closer that is
handed over adds nothing. -/
theorem shallow_stepDefinitions {stage : ListStage}
    (h : Shallow limit tree (.definitions node stage :: below)) :
    (stepDefinitions sight tree below node stage).Shallow limit := by
  cases stage with
  | start =>
    show Move.Shallow limit (if sight.ahead.any isSpace then _ else _)
    split
    · exact shallow_openSpace h (h.near rfl)
    · have hdone : Shallow limit tree (.definitions node .afterDefinition :: below) :=
        h.turn (.definitions node _) rfl
      exact (hdone.push (h.near rfl)).plain rfl rfl (hdone.host rfl).child
  | afterDefinition =>
    have hended : Shallow limit (tree.withLast node sight.here.left)
        (.definitions node .afterDefinition :: below) := h.withLast _
    unfold stepDefinitions
    dsimp only
    split
    · exact hended.rest
    split
    · exact hended.turn (.definitions node _) rfl
    split
    · exact shallow_openLiteral (hended.turn (.definitions node .start) rfl) (hended.near rfl) _
    · exact hended.rest
  | afterSlash slash =>
    unfold stepDefinitions
    dsimp only
    split
    · exact h.height_le
    split
    · exact (h.rest.withLast _).handOver _
    · exact (h.push (h.near rfl)).turn (.definitions node _) rfl

/-- The definitions of a product are a list one level below it, and all of its marks are leaves
there. -/
theorem shallow_stepProduct {lhs : NodeId} {stage : ProductStage}
    (h : Shallow limit tree (.product node lhs stage :: below)) :
    (stepProduct sight tree below node lhs stage).Shallow limit := by
  have hproduct : ∀ rhs, Shallow limit (tree.withKind node (.product (some lhs) rhs))
      (.product node lhs stage :: below) := fun _ => h.withKind _
  cases stage with
  | name =>
    show Move.Shallow limit (if sight.ahead = some '=' then _ else _)
    split
    · exact shallow_openLiteral ((hproduct _).turn (.product node lhs .equals) rfl)
        ((hproduct _).near rfl) _
    · exact shallow_unexpected (hproduct _) _
  | equals =>
    show Move.Shallow limit (if sight.ahead.any isSpace then _ else _)
    split
    · exact shallow_openSpace h (h.near rfl)
    · have hbody : Shallow limit tree (.product node lhs (.body tree.size none) :: below) :=
        h.turn (.product node lhs _) rfl
      exact (hbody.push (h.near rfl)).plain rfl rfl (hbody.host rfl).child
  | body list closer =>
    cases closer with
    | some closer => exact (hproduct _).height_le
    | none =>
      exact shallow_openLiteral ((hproduct _).rest.closing node) ((hproduct _).near rfl) _

/-- Comments and products are one level below the root, and white space between them is made of
leaves. -/
theorem shallow_stepGrammar {begun : Bool} (h : Shallow limit tree (.grammar begun :: below)) :
    (stepGrammar limit sight tree below begun).Shallow limit := by
  have hitems : Shallow limit tree (.grammar true :: below) :=
    h.turn (.grammar true) rfl
  unfold stepGrammar
  dsimp only
  split
  · split
    · exact h.height_le
    split
    · exact shallow_openComment hitems ((hitems.host rfl).mono (by simp [Frame.level]))
    split
    · exact shallow_openProduct hitems (hitems.host rfl)
    split
    · exact shallow_openSpace hitems (hitems.near rfl)
    · exact shallow_unexpected hitems _
  · split
    · exact h.height_le
    · exact hitems.withFirst _

/-! ### Runs -/

/-- **A step leaves the tree shallow.** There is one case for each production, and each adds what
its own level has room for. -/
theorem shallow_step (h : Shallow limit tree frames) :
    (step limit sight tree frames).Shallow limit := by
  cases frames with
  | nil => exact h.height_le
  | cons frame below =>
    cases frame with
    | grammar => exact shallow_stepGrammar h
    | comment => exact shallow_stepComment h
    | product => exact shallow_stepProduct h
    | definitions => exact shallow_stepDefinitions h
    | definition => exact shallow_stepDefinition h
    | term => exact shallow_stepTerm h
    | exception => exact shallow_stepException h
    | repetition => exact shallow_stepRepetition h
    | paren => exact shallow_stepParen h
    | opener => exact shallow_attachBracket h.rest (h.host rfl) ..
    | bracket => exact shallow_stepBracket h
    | quoted => exact shallow_stepQuoted h
    | identifier => exact shallow_stepIdentifier h
    | run => exact shallow_stepRun h.rest _
    | literal => exact shallow_stepLiteral h.rest ..
    | matched => exact (h.rest.withData _).withLast _
    | closing => exact h.rest.closeAtLastChild

/-- What all steps for one character leave is shallow. -/
def Outcome.Shallow (limit : Nat) : Outcome → Prop
  | waiting tree frames => LosslessEbnf.Shallow limit tree frames
  | accepted tree | rejected tree _ => tree.height ≤ 5 * limit + 7

/-- All steps for one character leave the tree shallow, since each of them does. -/
theorem shallow_settle (h : Shallow limit tree frames) :
    (settle limit sight tree frames).Shallow limit := by
  refine settle_induction (fun tree frames h => ?_) h
  have hmove : (step limit sight tree frames).Shallow limit := shallow_step h
  cases hstep : step limit sight tree frames with
  | again tree' frames' | next tree' frames' | accept tree' | reject tree' cause =>
    rw [hstep] at hmove
    exact hmove

/-- The tree of the root alone is shallow for every limit, also for the limit zero. -/
theorem shallow_initial (limit : Nat) :
    Shallow limit Config.initial.tree Config.initial.frames := by
  refine ⟨Nat.zero_le _, Nat.zero_le _, fun id hid => ?_, trivial⟩
  cases hid
  exact ⟨Nat.zero_lt_one, Nat.zero_le _⟩

/-- The tree of a source is no higher than the limit allows, and its nodes lie within the limit. -/
theorem height_drive_le {σ : Type} [Source σ] (source : σ) :
    (handedOut (drive limit .initial source).1).height ≤ 5 * limit + 7 ∧
      (handedOut (drive limit .initial source).1).Bounded limit := by
  refine drive_induction
    (P := fun tree frames => (∀ ahead, Grown ahead tree frames) ∧ tree.Bounded limit ∧
      Shallow limit tree frames)
    (Q := fun result => (handedOut result).height ≤ 5 * limit + 7 ∧
      (handedOut result).Bounded limit)
    (fun config fault ⟨_, hbounded, hshallow⟩ => ⟨hshallow.height_le, hbounded⟩)
    (fun sight tree frames ⟨hgrown, hbounded, hshallow⟩ => ?_) source
    ⟨Config.grown_initial, Tree.bounded_empty limit, shallow_initial limit⟩
  have hgrows := grows_settle limit (hgrown sight.ahead)
  have hbounded' := (bounded_settle (hgrown sight.ahead) hbounded).2
  have hshallow' : (settle limit sight tree frames).Shallow limit := shallow_settle hshallow
  cases hsettle : settle limit sight tree frames with
  | waiting tree' frames' =>
    rw [hsettle] at hgrows hbounded' hshallow'
    exact ⟨hgrows, hbounded', hshallow'⟩
  | accepted tree' | rejected tree' cause =>
    rw [hsettle] at hbounded' hshallow'
    exact ⟨hshallow', hbounded'⟩

/-- **Height.** The tree of a source, be it accepted or not, has at most five levels for each
comment or bracket that may be nested, and seven besides; and no node lies in more comments and
brackets than may be nested. The same is true of a run that ends, though its source may be
endless. -/
theorem height_parse_le :
    (∀ {σ : Type} [Source σ] (source : σ) (maxNesting : Nat),
      (handedOut (parse source maxNesting)).height ≤ 5 * maxNesting + 7 ∧
        ∀ id, id < (handedOut (parse source maxNesting)).size →
          (handedOut (parse source maxNesting)).nestingAt id ≤ maxNesting) ∧
    ∀ {σ : Type} (read : Nat → σ → Except Fault String × σ) (source rest : σ)
      (maxNesting fuel : Nat) (result : Except ParseError Tree),
      (Phase.start source).run read maxNesting fuel = .finished result rest →
        (handedOut result).height ≤ 5 * maxNesting + 7 ∧
          ∀ id, id < (handedOut result).size → (handedOut result).nestingAt id ≤ maxNesting := by
  have hsource : ∀ {σ : Type} [Source σ] (source : σ) (maxNesting : Nat),
      (handedOut (parse source maxNesting)).height ≤ 5 * maxNesting + 7 ∧
        ∀ id, id < (handedOut (parse source maxNesting)).size →
          (handedOut (parse source maxNesting)).nestingAt id ≤ maxNesting :=
    fun source _ => ⟨(height_drive_le source).1, (height_drive_le source).2.nestingAt_le⟩
  refine ⟨hsource, fun read source rest maxNesting fuel result hrun => ?_⟩
  obtain ⟨script, rfl⟩ := parse_of_run hrun
  exact hsource script maxNesting

/-- Two comments are let in from an endless source. -/
theorem height_parse_le_comments :
    ∃ error rest, (Phase.start 0).run openingComments 2 20 = .finished (.error error) rest ∧
      (handedOut (.error error)).height = 3 ∧ (handedOut (.error error)).height ≤ 17 ∧
      ∀ id, id < (handedOut (.error error)).size → (handedOut (.error error)).nestingAt id ≤ 2 :=
  ⟨_, _, rfl, by decide +kernel, height_parse_le.2 openingComments 0 _ 2 20 _ rfl⟩

/-- A text between marks in an exception makes a tree as high as it may be. -/
example : (handedOut (parseText "a=b-'c';" 0)).height = 7 := by with_unfolding_all decide

end LosslessEbnf
