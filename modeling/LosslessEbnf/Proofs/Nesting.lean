import LosslessEbnf.Machine.Step
import LosslessEbnf.Proofs.Shape

/-!
# The nesting of nodes

How many comments and brackets a node lies in, and what the steps of the machine do to that.

## Main Definitions

* `Tree.path`, `Tree.nestingAt` — the way from a node to the root, and the comments and brackets on
  it
* `Tree.Bounded` — no node lies deeper than the limit
* `Tree.Keeps`, `Tree.Extends`, `Tree.Deepens` — what becomes of a tree if its nodes stay where they
  are, if no comment or bracket is added, and if at most one is

## Main Statements

* `Tree.Keeps.nestingAt_eq` — the nodes of a tree that is kept lie where they lay before
* `Tree.Deepens.bounded` — a comment or bracket is let in only where one more fits in
* `deepens_stepComment`, `deepens_stepTerm` and so on — what the steps of each production do

## Design Notes

A step adds at most one comment or bracket, and adds it in front of whatever else it adds. So it is
enough to know how deep the node lies that the step begins with.
-/

namespace LosslessEbnf

/-- Whether a node of the kind counts for the nesting. -/
def Kind.nests : Kind → Bool
  | comment => true
  | primary (.bracketed _ _) => true
  | _ => false

namespace Tree

/-- The node above a node. -/
def parent? (tree : Tree) (id : NodeId) : Option NodeId := (tree.get? id).bind Node.parent

/-- The way from a node to the one that is the given number of steps above it. -/
def path (tree : Tree) : Nat → NodeId → List NodeId
  | 0, id => [id]
  | steps + 1, id =>
    match tree.parent? id with
    | some parent => id :: tree.path steps parent
    | none => [id]

/-- How many comments and brackets there are on the way from a node to the root, both included. -/
def nestingAt (tree : Tree) (id : NodeId) : Nat :=
  (tree.path (tree.depth id) id).countP fun above => (tree.kind above).nests

/-- The node hangs below an earlier one. -/
structure Hangs (tree : Tree) (id parent : NodeId) : Prop where
  /-- That one is its parent. -/
  parent_eq : tree.parent? id = some parent
  /-- It was there before. -/
  lt : parent < id
  /-- The node is one step further down. -/
  depth_eq : tree.depth id = tree.depth parent + 1

/-- Every node hangs below an earlier one, but for the root. -/
def Rooted (tree : Tree) : Prop :=
  ∀ id, id < tree.size → tree.parent? id = none ∧ tree.depth id = 0 ∨ ∃ parent, tree.Hangs id parent

/-! ### Changed trees -/

section

variable {tree : Tree} {id other parent : NodeId} {change : Node → Node} {kind : Kind} {span : Span}
  {data : String}

theorem parent?_update (hchange : ∀ node, (change node).parent = node.parent) :
    (tree.update id change).parent? other = tree.parent? other := by
  rw [parent?, parent?, get?_update]
  split
  · cases tree.get? other with
    | none => rfl
    | some node => exact hchange node
  · rfl

theorem depth_update (hchange : ∀ node, (change node).depth = node.depth) :
    (tree.update id change).depth other = tree.depth other := by
  rw [depth, depth, get?_update]
  split
  · cases tree.get? other with
    | none => rfl
    | some node => exact hchange node
  · rfl

theorem kind_update (hchange : ∀ node, (change node).kind = node.kind) :
    (tree.update id change).kind other = tree.kind other := by
  rw [Tree.kind, Tree.kind, get?_update]
  split
  · cases tree.get? other with
    | none => rfl
    | some node => exact hchange node
  · rfl

theorem parent?_pushChild_of_ne (h : id ≠ tree.size) :
    (tree.pushChild parent kind span data).parent? id = tree.parent? id := by
  rw [parent?, parent?, get?_pushChild_of_ne h]
  split
  · cases tree.get? id <;> rfl
  · rfl

theorem depth_pushChild_of_ne (h : id ≠ tree.size) :
    (tree.pushChild parent kind span data).depth id = tree.depth id := by
  rw [depth, depth, get?_pushChild_of_ne h]
  split
  · cases tree.get? id <;> rfl
  · rfl

theorem kind_pushChild_of_ne (h : id ≠ tree.size) :
    (tree.pushChild parent kind span data).kind id = tree.kind id := by
  rw [Tree.kind, Tree.kind, get?_pushChild_of_ne h]
  split
  · cases tree.get? id <;> rfl
  · rfl

theorem kind_pushChild_size :
    (tree.pushChild parent kind span data).kind tree.size = kind := by
  rw [Tree.kind, get?_pushChild_size]
  rfl

/-- The new child hangs below its parent, one deeper than that. -/
theorem hangs_pushChild (h : parent < tree.size) :
    (tree.pushChild parent kind span data).Hangs tree.size parent where
  parent_eq := by rw [parent?, get?_pushChild_size]; rfl
  lt := h
  depth_eq := by
    rw [depth_pushChild_of_ne (Nat.ne_of_lt h), depth, get?_pushChild_size]
    rfl

end

/-! ### Trees that keep their nodes -/

/-- The nodes of the tree are where they were. -/
structure Keeps (tree tree' : Tree) : Prop where
  /-- No node is taken away. -/
  size_le : tree.size ≤ tree'.size
  /-- The nodes have the parents that they had. -/
  parent?_eq : ∀ id, id < tree.size → tree'.parent? id = tree.parent? id
  /-- They are as far down as they were. -/
  depth_eq : ∀ id, id < tree.size → tree'.depth id = tree.depth id
  /-- They count as they did. -/
  nests_eq : ∀ id, id < tree.size → (tree'.kind id).nests = (tree.kind id).nests

namespace Keeps

variable {first second third : Tree}

theorem refl (tree : Tree) : tree.Keeps tree :=
  ⟨Nat.le_refl _, fun _ _ => rfl, fun _ _ => rfl, fun _ _ => rfl⟩

theorem trans (h : first.Keeps second) (h' : second.Keeps third) : first.Keeps third where
  size_le := Nat.le_trans h.size_le h'.size_le
  parent?_eq id hlt :=
    (h'.parent?_eq id (Nat.lt_of_lt_of_le hlt h.size_le)).trans (h.parent?_eq id hlt)
  depth_eq id hlt := (h'.depth_eq id (Nat.lt_of_lt_of_le hlt h.size_le)).trans (h.depth_eq id hlt)
  nests_eq id hlt := (h'.nests_eq id (Nat.lt_of_lt_of_le hlt h.size_le)).trans (h.nests_eq id hlt)

/-- A change of one node that leaves its place alone, and whether it counts. -/
theorem of_update {tree : Tree} (id : NodeId) {change : Node → Node}
    (hparent : ∀ node, (change node).parent = node.parent)
    (hdepth : ∀ node, (change node).depth = node.depth)
    (hnests : ∀ node, tree.get? id = some node →
      (change node).kind.nests = node.kind.nests) : tree.Keeps (tree.update id change) where
  size_le := Nat.le_of_eq (size_update ..).symm
  parent?_eq _ _ := parent?_update hparent
  depth_eq _ _ := depth_update hdepth
  nests_eq other _ := by
    rw [Tree.kind, Tree.kind, get?_update]
    split
    · rename_i heq
      subst heq
      cases hget : tree.get? id with
      | none => rfl
      | some node => exact hnests node hget
    · rfl

theorem of_push (tree : Tree) (parent : NodeId) (kind : Kind) (span : Span) (data : String) :
    tree.Keeps (tree.pushChild parent kind span data) where
  size_le := by rw [size_pushChild]; exact Nat.le_succ _
  parent?_eq _ hlt := parent?_pushChild_of_ne (Nat.ne_of_lt hlt)
  depth_eq _ hlt := depth_pushChild_of_ne (Nat.ne_of_lt hlt)
  nests_eq _ hlt := by rw [kind_pushChild_of_ne (Nat.ne_of_lt hlt)]

/-- What hangs below a node still does, as long as the tree keeps what its nodes say. -/
theorem hangs {id parent : NodeId} (h : first.Keeps second) (hlt : id < first.size)
    (hangs : first.Hangs id parent) : second.Hangs id parent where
  parent_eq := (h.parent?_eq id hlt).trans hangs.parent_eq
  lt := hangs.lt
  depth_eq := by
    rw [h.depth_eq id hlt, h.depth_eq parent (Nat.lt_trans hangs.lt hlt), hangs.depth_eq]

end Keeps

/-! ### How deep the nodes lie -/

section

variable {tree tree' : Tree} {id parent : NodeId}

/-- A node lies as deep in comments and brackets as its parent does, and one deeper if it is a
comment or a bracket itself. -/
theorem Hangs.nestingAt_eq (h : tree.Hangs id parent) :
    tree.nestingAt id = tree.nestingAt parent + (tree.kind id).nests.toNat := by
  rw [nestingAt, h.depth_eq, path, h.parent_eq, List.countP_cons, nestingAt]
  cases (tree.kind id).nests <;> rfl

/-- The way from a node to the root leads over earlier nodes only. -/
theorem le_of_mem_path (h : tree.Rooted) {steps : Nat} (hid : id < tree.size) {above : NodeId}
    (habove : above ∈ tree.path steps id) : above ≤ id := by
  induction steps generalizing id with
  | zero => exact Nat.le_of_eq (List.mem_singleton.mp habove)
  | succ steps ih =>
    rcases h id hid with ⟨hnone, -⟩ | ⟨parent, hangs⟩
    · rw [path, hnone] at habove
      exact Nat.le_of_eq (List.mem_singleton.mp habove)
    · rw [path, hangs.parent_eq] at habove
      rcases List.mem_cons.mp habove with rfl | habove
      · exact Nat.le_refl _
      · have hle := ih (Nat.lt_trans hangs.lt hid) habove
        exact Nat.le_of_lt (Nat.lt_of_le_of_lt hle hangs.lt)

/-- The way up from an old node goes through old nodes only, because a parent is older than its
children. So new nodes do not change it. -/
theorem Keeps.path_eq (h : tree.Keeps tree') (hroot : tree.Rooted) (steps : Nat)
    (hid : id < tree.size) : tree'.path steps id = tree.path steps id := by
  induction steps generalizing id with
  | zero => rfl
  | succ steps ih =>
    rw [path, path, h.parent?_eq id hid]
    rcases hroot id hid with ⟨hnone, -⟩ | ⟨parent, hangs⟩
    · rw [hnone]
    · simp only [hangs.parent_eq, ih (Nat.lt_trans hangs.lt hid)]

/-- The nodes lie as deep as they lay before, since their way up is the same. -/
theorem Keeps.nestingAt_eq (h : tree.Keeps tree') (hroot : tree.Rooted) (hid : id < tree.size) :
    tree'.nestingAt id = tree.nestingAt id := by
  rw [nestingAt, nestingAt, h.depth_eq id hid, h.path_eq hroot _ hid]
  refine List.countP_congr fun above habove => ?_
  rw [h.nests_eq above (Nat.lt_of_le_of_lt (le_of_mem_path hroot hid habove) hid)]

end

/-- No node lies deeper than the limit. -/
structure Bounded (limit : Nat) (tree : Tree) : Prop where
  /-- Every node hangs below an earlier one. -/
  rooted : tree.Rooted
  /-- It lies within the limit. -/
  nestingAt_le : ∀ id, id < tree.size → tree.nestingAt id ≤ limit

/-- The new nodes hang below earlier ones and lie within the limit if these do, so the whole tree
lies within it. -/
theorem Bounded.of_keeps {limit : Nat} {tree tree' : Tree} (h : tree.Bounded limit)
    (hkeeps : tree.Keeps tree') (hadded : ∀ id, tree.size ≤ id → id < tree'.size →
      ∃ parent, tree'.Hangs id parent ∧
        (tree'.nestingAt parent ≤ limit → tree'.nestingAt id ≤ limit)) : tree'.Bounded limit := by
  have hnode : ∀ id, id < tree'.size → tree'.nestingAt id ≤ limit ∧
      (tree'.parent? id = none ∧ tree'.depth id = 0 ∨ ∃ parent, tree'.Hangs id parent) := by
    intro id
    -- a new node hangs below an earlier one, so the induction is on the number of the node
    induction id using Nat.strongRecOn with
    | ind id ih =>
      intro hid
      by_cases hold : id < tree.size
      · refine ⟨?_, ?_⟩
        · rw [hkeeps.nestingAt_eq h.rooted hold]
          exact h.nestingAt_le id hold
        · rcases h.rooted id hold with ⟨hnone, hzero⟩ | ⟨parent, hangs⟩
          · exact Or.inl ⟨(hkeeps.parent?_eq id hold).trans hnone,
              (hkeeps.depth_eq id hold).trans hzero⟩
          · exact Or.inr ⟨parent, hkeeps.hangs hold hangs⟩
      · obtain ⟨parent, hangs, hwithin⟩ := hadded id (Nat.le_of_not_lt hold) hid
        exact ⟨hwithin (ih parent hangs.lt (Nat.lt_trans hangs.lt hid)).1, Or.inr ⟨parent, hangs⟩⟩
  exact ⟨fun id hid => (hnode id hid).2, fun id hid => (hnode id hid).1⟩

/-! ### Trees without a new comment or bracket -/

/-- The nodes of the tree are where they were, and the new ones are neither comments nor brackets.
-/
structure Extends (tree tree' : Tree) : Prop extends Keeps tree tree' where
  /-- A new node hangs below an earlier one and does not count. -/
  added : ∀ id, tree.size ≤ id → id < tree'.size →
    (tree'.kind id).nests = false ∧ ∃ parent, tree'.Hangs id parent

namespace Extends

variable {start tree : Tree} {id parent : NodeId} {kind : Kind}

theorem refl (tree : Tree) : tree.Extends tree :=
  ⟨.refl tree, fun _ hle hlt => absurd hlt (Nat.not_lt_of_le hle)⟩

/-- A change that adds no node extends the tree as far as it was extended before. -/
theorem of_keeps {tree' : Tree} (h : start.Extends tree) (hkeeps : tree.Keeps tree')
    (hsize : tree'.size = tree.size) : start.Extends tree' := by
  refine ⟨h.toKeeps.trans hkeeps, fun id hle hlt => ?_⟩
  rw [hsize] at hlt
  obtain ⟨hfalse, above, hangs⟩ := h.added id hle hlt
  exact ⟨(hkeeps.nests_eq id hlt).trans hfalse, above, hkeeps.hangs hlt hangs⟩

theorem withLast (h : start.Extends tree) (id : NodeId) (last : Position) :
    start.Extends (tree.withLast id last) :=
  h.of_keeps (.of_update id (fun _ => rfl) (fun _ => rfl) fun _ _ => rfl) (size_update ..)

theorem withFirst (h : start.Extends tree) (id : NodeId) (first : Position) :
    start.Extends (tree.withFirst id first) :=
  h.of_keeps (.of_update id (fun _ => rfl) (fun _ => rfl) fun _ _ => rfl) (size_update ..)

theorem withSpan (h : start.Extends tree) (id : NodeId) (span : Span) :
    start.Extends (tree.withSpan id span) :=
  h.of_keeps (.of_update id (fun _ => rfl) (fun _ => rfl) fun _ _ => rfl) (size_update ..)

theorem withData (h : start.Extends tree) (id : NodeId) (data : String) :
    start.Extends (tree.withData id data) :=
  h.of_keeps (.of_update id (fun _ => rfl) (fun _ => rfl) fun _ _ => rfl) (size_update ..)

theorem pushText (h : start.Extends tree) (id : NodeId) (c : Char) :
    start.Extends (tree.pushText id c) :=
  h.of_keeps (.of_update id (fun _ => rfl) (fun _ => rfl) fun _ _ => rfl) (size_update ..)

theorem extend (h : start.Extends tree) (id : NodeId) (c : Char) (here : Position) :
    start.Extends (tree.extend id c here) :=
  (h.pushText id c).withLast id here

theorem closeAtLastChild (h : start.Extends tree) (id : NodeId) :
    start.Extends (tree.closeAtLastChild id) := by
  unfold Tree.closeAtLastChild
  split
  · exact h.withLast ..
  · exact h

/-- A node may change its kind as long as it counts as before. -/
theorem withKind (h : start.Extends tree) (hkind : (tree.kind id).nests = kind.nests) :
    start.Extends (tree.withKind id kind) := by
  refine h.of_keeps (.of_update id (fun _ => rfl) (fun _ => rfl) fun node hget => ?_)
    (size_update ..)
  rw [Tree.kind, hget] at hkind
  exact hkind.symm

/-- A new node that does not count extends the tree, wherever below an old or a new node it
hangs. -/
theorem push (h : start.Extends tree) (hparent : parent < tree.size) (hkind : kind.nests = false)
    (span : Span) (data : String) : start.Extends (tree.pushChild parent kind span data) := by
  have hkeeps := Keeps.of_push tree parent kind span data
  refine ⟨h.toKeeps.trans hkeeps, fun id hle hlt => ?_⟩
  rw [size_pushChild] at hlt
  rcases Nat.lt_succ_iff_lt_or_eq.mp hlt with hlt | rfl
  · obtain ⟨hfalse, above, hangs⟩ := h.added id hle hlt
    exact ⟨(hkeeps.nests_eq id hlt).trans hfalse, above, hkeeps.hangs hlt hangs⟩
  · exact ⟨by rw [kind_pushChild_size, hkind], parent, hangs_pushChild hparent⟩

/-- A tree that was extended stays within the limit. A new node is no comment and no bracket, so it
lies no deeper than the old node above it. -/
theorem bounded {limit : Nat} (h : start.Extends tree) (hbounded : start.Bounded limit) :
    tree.Bounded limit := by
  refine hbounded.of_keeps h.toKeeps fun id hle hlt => ?_
  obtain ⟨hfalse, above, hangs⟩ := h.added id hle hlt
  refine ⟨above, hangs, fun hwithin => ?_⟩
  rw [hangs.nestingAt_eq, hfalse]
  exact hwithin

end Extends

/-! ### Trees with a new comment or bracket -/

/-- The nodes of the tree are where they were, and of the new ones the first one at most is a
comment or a bracket. It is let in below `host`, which lies at the given depth. -/
inductive Deepens (limit depth : Nat) (host : NodeId) (tree tree' : Tree) : Prop
  /-- There is no new comment or bracket. -/
  | plain (extension : tree.Extends tree')
  /-- There is one. -/
  | deeper {middle : Tree} {kind : Kind} {span : Span} (front : tree.Extends middle)
      (within : depth < limit) (back : (middle.pushChild host kind span).Extends tree')

namespace Deepens

variable {limit depth : Nat} {host : NodeId} {tree tree' : Tree}

/-- Whether a step lets in a comment or a bracket or not, what the old nodes say about their place
in the tree stays. -/
theorem keeps (h : tree.Deepens limit depth host tree') : tree.Keeps tree' := by
  cases h with
  | plain h => exact h.toKeeps
  | deeper front _ back => exact (front.toKeeps.trans (.of_push ..)).trans back.toKeeps

/-- Within the limit, a comment or bracket is let in only where one more fits in. -/
theorem bounded (h : tree.Deepens limit depth host tree') (hbounded : tree.Bounded limit)
    (hhost : host < tree.size) (hdepth : tree.nestingAt host ≤ depth) : tree'.Bounded limit := by
  cases h with
  | plain h => exact h.bounded hbounded
  | @deeper middle kind span front within back =>
    have hmiddle := front.bounded hbounded
    have hin : host < middle.size := Nat.lt_of_lt_of_le hhost front.size_le
    refine back.bounded (hmiddle.of_keeps (.of_push ..) fun id hle hlt => ?_)
    rw [size_pushChild] at hlt
    obtain rfl : id = middle.size := by omega
    refine ⟨host, hangs_pushChild hin, fun _ => ?_⟩
    have hlevel : (middle.pushChild host kind span).nestingAt host = tree.nestingAt host := by
      rw [(Keeps.of_push ..).nestingAt_eq hmiddle.rooted hin,
        front.nestingAt_eq hbounded.rooted hhost]
    rw [(hangs_pushChild hin).nestingAt_eq, hlevel]
    have hone := Bool.toNat_le ((middle.pushChild host kind span).kind middle.size).nests
    omega

end Deepens

end Tree

/-! ### Moves -/

/-- The tree that a move leaves. -/
def Move.tree : Move → Tree
  | again tree _ | next tree _ | accept tree | reject tree _ => tree

namespace Tree.Extends

variable {start tree : Tree} {sight : Sight} {frames below : List Frame} {id parent : NodeId}

theorem unexpected (h : start.Extends tree) (expected : Expectation) :
    start.Extends (sight.unexpected tree expected).tree := by
  unfold Sight.unexpected
  split <;> exact h

/-- Looking for one of several texts only writes into the leaf that holds what was found, and it
adds no node. -/
theorem stepLiteral (h : start.Extends tree) (candidates : List String) (read : List Char)
    (best : Option (List Char × Position)) :
    start.Extends (stepLiteral sight tree below id candidates read best).tree := by
  unfold LosslessEbnf.stepLiteral settleLiteral
  dsimp only
  repeat' split
  all_goals first | exact h | exact (h.withData ..).withLast ..

/-- The leaf that is going to hold a fixed text is no comment and no bracket, so the tree is only
extended by it. -/
theorem openLiteral (h : start.Extends tree) (hparent : parent < tree.size)
    (candidates : List String) :
    start.Extends (openLiteral sight tree frames parent candidates).tree :=
  (h.push hparent rfl ..).stepLiteral ..

theorem stepRun (h : start.Extends tree) (run : Run) :
    start.Extends (stepRun sight tree below run id).tree := by
  unfold LosslessEbnf.stepRun
  repeat' split
  all_goals first | exact h | exact h.extend ..

theorem openSpace (h : start.Extends tree) (hparent : parent < tree.size) :
    start.Extends (openSpace sight tree frames parent).tree := by
  unfold LosslessEbnf.openSpace
  repeat' split
  all_goals first | exact h | exact h.push hparent rfl ..

theorem addText (h : start.Extends tree) (hid : id < tree.size) (text : Option NodeId) (c : Char)
    (here : Position) : start.Extends (addText tree id text c here).1 := by
  unfold LosslessEbnf.addText
  split
  · exact h.extend ..
  · exact h.push hid rfl ..

/-- A name grows by a character, or its white space does. What ends the name may make a leaf of the
white space, and that lies below the parent of the name. -/
theorem stepIdentifier (h : start.Extends tree) (hparent : parent < tree.size)
    (trailing : Option Span) :
    start.Extends (stepIdentifier sight tree below id parent trailing).tree := by
  unfold LosslessEbnf.stepIdentifier
  dsimp only
  repeat' split
  any_goals first | exact h | exact h.pushText .. | exact h.extend ..
  all_goals exact (h.withData ..).push (by rwa [Tree.withData, size_update]) rfl ..

theorem openIdentifier (h : start.Extends tree) (hparent : parent < tree.size) (c : Char) :
    start.Extends (openIdentifier sight tree frames parent c).tree :=
  h.push hparent rfl ..

/-- A text between marks, and the mark at its end, are no comments and no brackets. -/
theorem stepQuoted (h : start.Extends tree) (hid : id < tree.size) (form : Quoted)
    (text : Option NodeId) : start.Extends (stepQuoted sight tree below form id text).tree := by
  unfold LosslessEbnf.stepQuoted
  dsimp only
  repeat' split
  · exact h.push hid rfl ..
  · exact h
  · exact (h.withLast ..).openLiteral (by rwa [Tree.withLast, size_update]) _
  · exact h.pushText ..

/-- A quoted text is opened with the node of the text and a leaf for the quote. Neither of them is a
comment or a bracket. -/
theorem openQuoted (h : start.Extends tree) (hparent : parent < tree.size) (form : Quoted) :
    start.Extends (openQuoted sight tree frames parent form).tree := by
  have hkind : (Kind.primary form.primary).nests = false := by cases form <;> rfl
  refine (h.push hparent hkind ..).openLiteral ?_ _
  rw [size_pushChild]
  exact Nat.lt_succ_self _

theorem addEmptyString (h : start.Extends tree) (hparent : parent < tree.size) (here : Position) :
    start.Extends (addEmptyString tree parent here) :=
  h.push hparent rfl ..

/-- A definition without a term gets an empty one, a term with an empty string below it. Neither of
them is a comment or a bracket. -/
theorem addEmptyTerm (h : start.Extends tree) (hparent : parent < tree.size) (here : Position) :
    start.Extends (addEmptyTerm tree parent here) := by
  have hterm : start.Extends (tree.pushChild parent (.term {}) (.gap here)) := h.push hparent rfl ..
  have hin : tree.size < (tree.pushChild parent (.term {}) (.gap here)).size := by
    rw [size_pushChild]
    exact Nat.lt_succ_self _
  refine (hterm.addEmptyString hin here).withKind ?_
  rw [LosslessEbnf.addEmptyString, kind_pushChild_of_ne (Nat.ne_of_lt hin), kind_pushChild_size]
  rfl

/-- The end of a term sets its span. A term without a primary gets an empty string, which is neither
a comment nor a bracket. -/
theorem endTerm (h : start.Extends tree) (hid : id < tree.size)
    (hkind : (tree.kind id).nests = false) (parts : TermParts) :
    start.Extends (endTerm sight tree below id parts).tree := by
  unfold LosslessEbnf.endTerm
  split
  · exact h.closeAtLastChild id
  · refine ((h.addEmptyString hid sight.here).withKind ?_).closeAtLastChild id
    rw [LosslessEbnf.addEmptyString, kind_pushChild_of_ne (Nat.ne_of_lt hid), hkind]
    rfl

/-- The end of an exception sets its span, and an exception without a primary gets an empty string
in its place. -/
theorem endException (h : start.Extends tree) (hid : id < tree.size)
    (hkind : (tree.kind id).nests = false) (primary : Option NodeId) :
    start.Extends (endException sight tree below id primary).tree := by
  unfold LosslessEbnf.endException
  split
  · exact h.closeAtLastChild id
  · refine ((h.addEmptyString hid sight.here).withKind ?_).closeAtLastChild id
    rw [LosslessEbnf.addEmptyString, kind_pushChild_of_ne (Nat.ne_of_lt hid), hkind]
    rfl

end Tree.Extends

section

variable {limit : Nat} {start tree : Tree} {sight : Sight} {frames below : List Frame}
  {node parent : NodeId}

/-! ### Components that may be let in -/

/-- A comment is let in if the open productions leave room for one more within the limit, and then
it is the only node that lies deeper. -/
theorem deepens_openComment (h : start.Extends tree) :
    start.Deepens limit (nesting frames) parent
      (openComment limit sight tree frames parent).tree := by
  unfold openComment
  split
  · exact .plain h
  · rename_i hlimit
    refine .deeper h (Nat.lt_of_not_le hlimit) ((Tree.Extends.refl _).openLiteral ?_ _)
    rw [Tree.size_pushChild]
    exact Nat.lt_succ_self _

/-- A bracket whose first character tells what it is, is let in under the same condition as a
comment is. Its opener is a leaf below it. -/
theorem deepens_openBracket (h : start.Extends tree) (b : Bracket) :
    start.Deepens limit (nesting frames) parent
      (openBracket limit sight tree frames parent b).tree := by
  unfold openBracket
  split
  · exact .plain h
  · rename_i hlimit
    refine .deeper h (Nat.lt_of_not_le hlimit) ((Tree.Extends.refl _).openLiteral ?_ _)
    rw [Tree.size_pushChild]
    exact Nat.lt_succ_self _

/-- A bracket whose opener has been read before it was known what it opens is let in under the same
condition, and gets the opener as its first child. -/
theorem deepens_attachBracket (h : start.Extends tree) (b : Bracket) (opener : Span) :
    start.Deepens limit (nesting frames) parent
      (attachBracket limit sight tree frames parent b opener).tree := by
  unfold attachBracket
  split
  · exact .plain h
  · rename_i hlimit
    refine .deeper h (Nat.lt_of_not_le hlimit) ((Tree.Extends.refl _).push ?_ rfl ..)
    rw [Tree.size_pushChild]
    exact Nat.lt_succ_self _

/-- Of all the primaries only the brackets lie deeper, and a name and a quoted text extend the
tree. -/
theorem deepens_openPrimary (h : start.Extends tree) (hparent : parent < tree.size) (c : Char) :
    start.Deepens limit (nesting frames) parent
      (openPrimary limit sight tree frames parent c).tree := by
  unfold openPrimary
  repeat' split
  · rw [expectIdentifier_of_isLetter ‹_›]
    exact .plain (h.openIdentifier hparent c)
  · rw [expectTerminal_of_isQuote ‹_›]
    exact .plain (h.openQuoted hparent _)
  · exact deepens_openBracket h .repeated
  · exact deepens_openBracket h .optional
  · exact .plain (h.openQuoted hparent .special)
  · exact .plain h
  · exact .plain (h.unexpected .primaryStart)

/-! ### Productions -/

/-- A comment grows by characters and ends with its closing mark. What lies deeper is a comment in
it, which is let in when its opening mark is complete. -/
theorem deepens_stepComment (hnode : node < tree.size) (text : Option NodeId)
    (stage : CommentStage) :
    tree.Deepens limit (nesting (.comment node text stage :: below)) node
      (stepComment limit sight tree below node text stage).tree := by
  have h := Tree.Extends.refl tree
  unfold stepComment
  cases sight.ahead with
  | none => exact .plain h
  | some c =>
    cases stage with
    | body =>
      dsimp only
      split
      · exact .plain h
      · exact .plain (h.addText hnode ..)
    | mark first start =>
      dsimp only
      repeat' split
      · exact .plain ((h.push hnode rfl ..).withLast ..)
      · exact .plain h
      · exact .plain (h.addText hnode ..)
    | opened opener =>
      dsimp only
      split
      · exact .plain h
      · rename_i hlimit
        refine .deeper h (Nat.lt_of_not_le hlimit) ((Tree.Extends.refl _).push ?_ rfl ..)
        rw [Tree.size_pushChild]
        exact Nat.lt_succ_self _

/-- What follows an opening parenthesis tells a comment from a bracket. So it is here that the
bracket is let in, the parenthesis being read already. -/
theorem deepens_stepParen (start : Position) :
    tree.Deepens limit (nesting below) parent
      (stepParen limit sight tree below parent start).tree := by
  have h := Tree.Extends.refl tree
  unfold stepParen
  repeat' split
  · exact .plain h
  · exact .plain h
  · exact .plain h
  · exact deepens_attachBracket h ..

/-- A bracket that has its opener gets its list and its closer. The closer that the list hands over
has been read already and is added as a leaf. -/
theorem extends_stepBracket (hnode : node < tree.size) (hkind : (tree.kind node).nests = true)
    (b : Bracket) (stage : BracketStage) :
    tree.Extends (stepBracket sight tree below b node stage).tree := by
  have h := Tree.Extends.refl tree
  match stage with
  | .opened opening =>
    have hopening : tree.Extends (tree.withKind node (.primary (.bracketed b (some opening)))) :=
      h.withKind hkind
    have hin : node < (tree.withKind node (.primary (.bracketed b (some opening)))).size := by
      rwa [Tree.withKind, Tree.size_update]
    show tree.Extends (if sight.ahead.any isSpace then _ else _ : Move).tree
    split
    · exact hopening.openSpace hin
    · exact hopening.push hin rfl ..
  | .body none => exact h.openLiteral hnode _
  | .body (some closer) =>
    show tree.Extends (if b = .repeated then _ else _ : Move).tree
    split
    · exact (h.push hnode rfl ..).withLast ..
    · exact h

/-- A term gets its parts one after the other, and only the primary among them may be a bracket. Its
end adds nothing that lies deeper. -/
theorem deepens_stepTerm (hnode : node < tree.size) (hkind : (tree.kind node).nests = false)
    (parts : TermParts) (dash : Bool) :
    tree.Deepens limit (nesting (.term node parts dash :: below)) node
      (stepTerm limit sight tree below node parts dash).tree := by
  have h : tree.Extends (tree.withKind node (.term parts)) :=
    (Tree.Extends.refl tree).withKind hkind
  have hin : node < (tree.withKind node (.term parts)).size := by
    rwa [Tree.withKind, Tree.size_update]
  have hterm : ((tree.withKind node (.term parts)).kind node).nests = false := by
    rw [h.nests_eq node hnode, hkind]
  unfold stepTerm
  generalize tree.withKind node (.term parts) = changed at *
  dsimp only
  split
  · exact .plain (h.push hin rfl ..)
  · split
    · exact .plain (h.endTerm hin hterm parts)
    · repeat' split
      · exact .plain (h.openSpace hin)
      · exact .plain h
      · rw [openRepetition_of_isDigit ‹_›]
        refine .plain ((h.push hin rfl ..).push ?_ rfl ..)
        rw [Tree.size_pushChild]
        exact Nat.lt_succ_self _
      · exact .plain h
      · exact .plain (h.openLiteral hin _)
      · exact .plain h
      · exact (deepens_openPrimary h hin _ :
          tree.Deepens limit (nesting (.term node _ false :: below)) node _)
      · exact .plain (h.endTerm hin hterm parts)

/-- An exception gets white space and a primary, and the primary may be a bracket, as the one of a
term may. -/
theorem deepens_stepException (hnode : node < tree.size) (hkind : (tree.kind node).nests = false)
    (term : NodeId) (primary : Option NodeId) :
    tree.Deepens limit (nesting (.exception node term primary :: below)) node
      (stepException limit sight tree below node term primary).tree := by
  have h : tree.Extends (tree.withKind node (.exception primary)) :=
    (Tree.Extends.refl tree).withKind hkind
  have hin : node < (tree.withKind node (.exception primary)).size := by
    rwa [Tree.withKind, Tree.size_update]
  have hexception : ((tree.withKind node (.exception primary)).kind node).nests = false := by
    rw [h.nests_eq node hnode, hkind]
  unfold stepException
  generalize tree.withKind node (.exception primary) = changed at *
  dsimp only
  split
  · exact .plain (h.endException hin hexception primary)
  · repeat' split
    · exact .plain (h.openSpace hin)
    · exact .plain h
    · exact (deepens_openPrimary h hin _ :
        tree.Deepens limit (nesting (.exception node term (some _) :: below)) node _)
    · exact .plain (h.endException hin hexception primary)

/-- Behind the number of a repetition there are white space and a star, and both are leaves. -/
theorem extends_stepRepetition (hnode : node < tree.size) :
    tree.Extends (stepRepetition sight tree below node).tree := by
  unfold stepRepetition
  split
  · exact (Tree.Extends.refl tree).openSpace hnode
  · exact (Tree.Extends.refl tree).openLiteral hnode _

/-- A definition gets terms, commas and white space. A comma or an end where a term is missing puts
an empty term in front of it. -/
theorem extends_stepDefinition (hnode : node < tree.size) (start : Position)
    (term : Option NodeId) :
    tree.Extends (stepDefinition sight tree below node start term).tree := by
  have h := Tree.Extends.refl tree
  have hmissing : tree.Extends (addMissingTerm tree node term sight.here) := by
    cases term with
    | none => exact h.addEmptyTerm hnode sight.here
    | some term => exact h
  unfold stepDefinition
  split
  · exact h
  · repeat' split
    · exact h.openSpace hnode
    · exact h
    · exact h.push hnode rfl ..
    · exact hmissing.openLiteral (Nat.lt_of_lt_of_le hnode hmissing.size_le) _
    · exact hmissing.withLast ..

/-- A list gets definitions with bars between them, and a slash may be a bar. None of it is a
comment or a bracket. -/
theorem extends_stepDefinitions (hnode : node < tree.size) (stage : ListStage) :
    tree.Extends (stepDefinitions sight tree below node stage).tree := by
  have h := Tree.Extends.refl tree
  cases stage with
  | start =>
    show tree.Extends (if sight.ahead.any isSpace then _ else _ : Move).tree
    split
    · exact h.openSpace hnode
    · exact h.push hnode rfl ..
  | afterDefinition =>
    have hlast := h.withLast node sight.here.left
    have hin : node < (tree.withLast node sight.here.left).size := by
      rwa [Tree.withLast, Tree.size_update]
    unfold stepDefinitions
    dsimp only
    repeat' split
    all_goals first | exact hlast | exact hlast.openLiteral hin _
  | afterSlash slash =>
    unfold stepDefinitions
    dsimp only
    repeat' split
    · exact h
    · exact h.withLast ..
    · exact h.push hnode rfl ..

/-- A product gets its equals sign, its list and its closer, and it is told its parts when they are
there. -/
theorem extends_stepProduct (hnode : node < tree.size) (hkind : (tree.kind node).nests = false)
    (lhs : NodeId) (stage : ProductStage) :
    tree.Extends (stepProduct sight tree below node lhs stage).tree := by
  have h := Tree.Extends.refl tree
  have hproduct : ∀ rhs, tree.Extends (tree.withKind node (.product (some lhs) rhs)) :=
    fun _ => h.withKind hkind
  have hin : ∀ rhs, node < (tree.withKind node (.product (some lhs) rhs)).size := by
    intro rhs
    rwa [Tree.withKind, Tree.size_update]
  cases stage with
  | name =>
    show tree.Extends (if sight.ahead = some '=' then _ else _ : Move).tree
    split
    · exact (hproduct _).openLiteral (hin _) _
    · exact (hproduct _).unexpected _
  | equals =>
    show tree.Extends (if sight.ahead.any isSpace then _ else _ : Move).tree
    split
    · exact h.openSpace hnode
    · exact h.push hnode rfl ..
  | body list closer =>
    cases closer with
    | none => exact (hproduct _).openLiteral (hin _) _
    | some closer => exact hproduct _

/-- Between the items of a text a comment may begin, and it lies deeper than the root. A product and
white space do not. -/
theorem deepens_stepGrammar (hroot : Tree.root < tree.size) (begun : Bool) :
    tree.Deepens limit (nesting (.grammar true :: below)) Tree.root
      (stepGrammar limit sight tree below begun).tree := by
  have h := Tree.Extends.refl tree
  unfold stepGrammar
  dsimp only
  repeat' split
  · exact .plain (h.withLast ..)
  · exact deepens_openComment h
  · rw [openProduct_of_isLetter ‹_›]
    refine .plain (Tree.Extends.openIdentifier (h.push hroot rfl ..) ?_ _)
    rw [Tree.size_pushChild]
    exact Nat.lt_succ_self _
  · exact .plain (h.openSpace hroot)
  · exact .plain (h.unexpected .item)
  · exact .plain (h.withSpan ..)
  · exact .plain (h.withFirst ..)

end

end LosslessEbnf
