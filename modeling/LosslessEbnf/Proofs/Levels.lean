import LosslessEbnf.Proofs.Nesting
import LosslessEbnf.Proofs.Reaching

/-!
# The nesting of open productions

The machine asks how deep its open productions are nested, and a node lies in comments and brackets
of the tree. Here the two are compared.

## Main Definitions

* `Spine.level` — how many comments and brackets are open in the tree
* `tally` — how many are open for the productions

## Main Statements

* `Idle.tally_eq` — the productions count as many as the node on top lies in
* `Stacked.tally_eq_nesting` — the machine counts the same around a node that is no mark
* `bounded_step`, `bounded_of_parseText` — all nodes lie within the limit
* `Grown.exists_nestingAt` — some node lies in all comments and brackets that are open

## Design Notes

A bracket whose closer is being read is still open in the tree, but the machine does not count it
any more. Until it ends nothing can be let in, so this is never seen. The tally counts it.
-/

namespace LosslessEbnf

/-! ### Open nodes -/

/-- How many comments and brackets are open. -/
def Spine.level (spine : Spine) : Nat := spine.countP fun node => node.label.kind.nests

theorem Spine.level_cons (node : OpenNode) (outer : Spine) :
    level (node :: outer) = level outer + node.label.kind.nests.toNat := by
  rw [level, level, List.countP_cons]
  cases node.label.kind.nests <;> rfl

/-- The open nodes stand in the tree with the kinds that they have on the spine. -/
def Spine.Kinds (tree : Tree) : Spine → Prop
  | [] => True
  | node :: outer => tree.kind (size outer) = node.label.kind ∧ Kinds tree outer

namespace Tree.Shows

variable {tree : Tree} {node : OpenNode} {outer : Spine}

theorem kinds (h : tree.Shows (node :: outer)) : Spine.Kinds tree (node :: outer) := by
  induction outer generalizing node with
  | nil => exact ⟨h.kind_top, trivial⟩
  | cons host outer ih => exact ⟨h.kind_top, (ih h.close).1, (ih h.close).2⟩

/-- The innermost open node lies in the comments and brackets that are open, and in no others. -/
theorem nestingAt_top (h : tree.Shows (node :: outer)) :
    tree.nestingAt outer.size = Spine.level (node :: outer) := by
  induction outer generalizing node with
  | nil =>
    have hdepth : tree.depth 0 = 0 := by
      rw [Tree.depth, show tree.get? 0 = _ from h.get?_top]
      rfl
    have hkind : tree.kind 0 = node.label.kind := h.kind_top
    show (tree.path (tree.depth 0) 0).countP _ = _
    rw [hdepth, Tree.path, Spine.level, List.countP_singleton, List.countP_singleton, hkind]
  | cons host outer ih =>
    have hhost := h.close
    have hangs : tree.Hangs (Spine.size (host :: outer)) (Spine.size outer) := by
      refine ⟨?_, ?_, ?_⟩
      · rw [Tree.parent?, h.get?_top]
        rfl
      · exact Nat.lt_of_lt_of_le (Nat.lt_succ_self _) (Nat.le_add_right ..)
      · rw [Tree.depth, Tree.depth, h.get?_top, hhost.get?_top]
        rfl
    rw [hangs.nestingAt_eq, ih hhost, h.kind_top, Spine.level_cons, Spine.level_cons,
      Spine.level_cons, OpenNode.label_add]

end Tree.Shows

/-! ### Open productions -/

/-- Whether a comment or bracket is open for the production. One whose closer was read is still open
until it ends. -/
def Frame.counts (tree : Tree) : Frame → Bool
  | closing node => (tree.kind node).nests
  | frame => frame.nests

/-- How many comments and brackets are open for the productions. -/
def tally (tree : Tree) (frames : List Frame) : Nat := frames.countP (Frame.counts tree)

theorem tally_cons (tree : Tree) (frame : Frame) (below : List Frame) :
    tally tree (frame :: below) = tally tree below + (frame.counts tree).toNat := by
  rw [tally, tally, List.countP_cons]
  cases frame.counts tree <;> rfl

theorem nesting_cons (frame : Frame) (below : List Frame) :
    nesting (frame :: below) = nesting below + frame.nests.toNat := by
  rw [nesting, nesting, List.countP_cons]
  cases frame.nests <;> rfl

theorem Frame.counts_of_ne_closing {frame : Frame} (h : frame.component ≠ .closing) (tree : Tree) :
    frame.counts tree = frame.nests := by
  cases frame with
  | closing => exact absurd rfl h
  | _ => rfl

/-- The node of an open production counts if the production does, whatever is still missing of
it. -/
theorem Frame.Shape.counts_eq {id : NodeId} {kind : Kind} {row : List Child} {frame : Frame}
    (h : frame.Shape id kind row) {tree : Tree} (hkind : tree.kind id = kind) :
    frame.counts tree = kind.nests := by
  subst hkind
  cases frame with
  | closing node =>
    obtain ⟨rfl, -⟩ := h
    rfl
  | quoted form node text =>
    cases text with
    | none =>
      obtain ⟨-, hkind, -⟩ := h
      rw [hkind]
      cases form <;> rfl
    | some run => exact h.elim
  | _ =>
    unfold Frame.Shape at h
    split at h <;> grind [Frame.counts, Frame.nests, Kind.nests]

/-- What waits for a component that is no mark is still read. -/
theorem ne_closing_of_admitted {frame host : Frame} (hmark : frame.component ≠ .mark)
    (waits : host.waiting?.isSome) (admitted : frame.component ∈ host.components) :
    host.component ≠ .mark ∧ host.component ≠ .closing := by
  cases host with
  | literal | matched => cases waits
  | closing node => exact absurd (List.mem_singleton.mp admitted) hmark
  | run run node => cases run <;> cases waits
  | _ => exact ⟨nofun, nofun⟩

/-- Around a component that is no mark, what counts is what the machine counts. -/
theorem Nested.tally_below {frame : Frame} {below : List Frame} (h : Nested (frame :: below))
    (hmark : frame.component ≠ .mark) (tree : Tree) : tally tree below = nesting below := by
  induction below generalizing frame with
  | nil => rfl
  | cons host below ih =>
    cases h with
    | cons rest waits admitted =>
      obtain ⟨hhost, hclosing⟩ := ne_closing_of_admitted hmark waits admitted
      rw [tally_cons, nesting_cons, ih rest hhost, Frame.counts_of_ne_closing hclosing]

/-- A component that gives something. -/
def Yield.Possible : Yield → Prop
  | mark spellings => spellings ≠ []
  | node bare => ∃ kind : Kind, kind.bare = bare
  | _ => True

theorem Yield.Possible.exists_gives {yield : Yield} (h : yield.Possible) (first : NodeId) :
    ∃ more, yield.Gives none first more := by
  cases yield with
  | mark spellings =>
    obtain ⟨data, hdata⟩ := List.exists_mem_of_ne_nil spellings h
    exact ⟨_, data, rfl, hdata⟩
  | space => exact ⟨_, rfl, "", rfl⟩
  | number => exact ⟨_, "", rfl⟩
  | name => exact ⟨_, rfl, "", [], rfl, Slot.gap_nil⟩
  | text quote => exact ⟨_, "", rfl, nofun⟩
  | node bare =>
    obtain ⟨kind, hkind⟩ := h
    exact ⟨_, fun _ => rfl, kind, rfl, hkind⟩

theorem Kind.possible_of_yield? {kind : Kind} {yield : Yield} (h : kind.yield? = some yield) :
    yield.Possible := by
  cases kind with
  | root => cases h
  | _ =>
    cases h
    exact ⟨_, rfl⟩

/-- The open productions count as their nodes do: each one that is a comment or a bracket has a node
of such a kind. -/
theorem Stacked.tally_eq {yield? : Option Yield} {frames : List Frame} {spine : Spine}
    (h : Stacked yield? frames spine) {tree : Tree} (hkinds : spine.Kinds tree)
    (hpossible : ∀ yield, yield? = some yield → yield.Possible) :
    tally tree frames = spine.level := by
  induction h with
  | nil => rfl
  | @cons yield host below node outer _ _ awaits ih =>
    obtain ⟨more, hmore⟩ := (hpossible yield rfl).exists_gives (node.next outer.size)
    have hhost : host.counts tree = node.label.kind.nests :=
      (awaits none more hmore).shape.counts_eq hkinds.1
    rw [tally_cons, Spine.level_cons, hhost, ih hkinds.2 fun _ => Kind.possible_of_yield?]

/-- The open productions count as the open nodes do, and so the tally is how deep the innermost one
lies. -/
theorem Idle.tally_eq {ahead : Option Char} {tree : Tree} {frame : Frame} {below : List Frame}
    {node : OpenNode} {outer : Spine} (h : Idle ahead tree frame below node outer) :
    tally tree (frame :: below) = tree.nestingAt outer.size := by
  have hkinds := h.carries.shows.kinds
  rw [h.carries.shows.nestingAt_top, tally_cons, Spine.level_cons,
    h.fits.shape.counts_eq hkinds.1, h.rest.tally_eq hkinds.2 fun _ => Kind.possible_of_yield?]

/-- The node of an open production that is in the tree. -/
def Frame.node? : Frame → Option NodeId
  | comment node .. | product node .. | definitions node _ | definition node .. => some node
  | term node .. | exception node .. | repetition node => some node
  | bracket _ node _ | quoted _ node _ | closing node => some node
  | _ => none

theorem Frame.Shape.node_eq {id node : NodeId} {kind : Kind} {row : List Child} {frame : Frame}
    (h : frame.Shape id kind row) (hnode : frame.node? = some node) : node = id := by
  unfold Frame.Shape at h
  split at h <;> simp_all [Frame.node?]

/-- A mark has no children, so no production is read into one but for one that is ending. -/
theorem Frame.Shape.ne_literal {id : NodeId} {kind : Kind} {row : List Child} {frame : Frame}
    (h : frame.Shape id kind row) (hopen : frame.component ≠ .closing ∨ row ≠ []) :
    kind ≠ .literal := by
  rintro rfl
  cases frame with
  | closing node =>
    rcases hopen with hopen | hrow
    · exact hopen rfl
    · exact hrow h.2.builds
  | _ =>
    unfold Frame.Shape at h
    split at h <;> simp_all

/-- What something other than a mark ends is neither a comment nor a bracket, for these end with
their closers. -/
theorem Kind.Closed.nests_eq_false_of_ne_literal {kind : Kind} {row : List Child} {child : Child}
    (h : kind.Closed (row ++ [child])) (hchild : child.kind ≠ .literal) : kind.nests = false := by
  cases kind with
  | comment =>
    have hbuilds : Matches (commentRule.take 2 ++ [.one (·.IsMark ["*)"])]) (row ++ [child]) :=
      h.builds
    exact absurd hbuilds.unsnoc.2.1 hchild
  | primary form =>
    cases form with
    | bracketed b opening =>
      have hbuilds : Matches ((bracketRule b opening).take 3 ++ [.one (·.IsMark b.allClosers)])
          (row ++ [child]) := h.builds
      exact absurd hbuilds.unsnoc.2.1 hchild
    | _ => rfl
  | _ => rfl

/-- Around a node that is no mark, what counts is what the machine counts: a bracket whose closer is
read is still open as a node, but not on the stack. -/
theorem Stacked.tally_eq_nesting {kind : Kind} {frames : List Frame} {spine : Spine}
    (h : Stacked kind.yield? frames spine) (hkind : kind ≠ .literal) {tree : Tree}
    (hkinds : spine.Kinds tree) : tally tree frames = nesting frames := by
  generalize hyield : kind.yield? = yield? at h
  induction h generalizing kind with
  | nil => rfl
  | @cons yield host below node outer rest _ awaits ih =>
    have hgiven : yield = .node kind.bare :=
      Option.some.inj (hyield.symm.trans (Kind.yield?_eq_some (by rintro rfl; cases hyield)))
    subst hgiven
    have hshape := (awaits none [⟨node.next outer.size, kind, ""⟩]
      ⟨fun _ => rfl, kind, rfl, rfl⟩).shape
    have hhost : host.counts tree = host.nests := by
      by_cases hclosing : host.component = .closing
      · rw [hshape.counts_eq hkinds.1]
        cases host with
        | closing id => exact hshape.2.nests_eq_false_of_ne_literal hkind
        | run => exact hshape.elim
        | _ => cases hclosing
      · exact Frame.counts_of_ne_closing hclosing tree
    rw [tally_cons, nesting_cons, hhost,
      ih (hshape.ne_literal (Or.inr (List.append_ne_nil_of_right_ne_nil _ nofun))) hkinds.2 rfl]

/-! ### The step of the machine -/

/-- A production on top makes a step: its tree keeps its nodes, and they lie within the limit. -/
theorem Idle.bounded_step {limit : Nat} {sight : Sight} {tree : Tree} {frame : Frame}
    {below : List Frame} {node : OpenNode} {outer : Spine}
    (h : Idle sight.ahead tree frame below node outer) (hbounded : tree.Bounded limit) :
    tree.Keeps (step limit sight tree (frame :: below)).tree ∧
      (step limit sight tree (frame :: below)).tree.Bounded limit := by
  have hin : outer.size < tree.size := h.carries.shows.size_lt
  have hcounts := h.fits.shape.counts_eq h.carries.shows.kind_top
  have hid : ∀ {id}, frame.node? = some id → id = outer.size := h.fits.shape.node_eq
  have hplain : ∀ {tree' : Tree}, tree.Extends tree' → tree.Keeps tree' ∧ tree'.Bounded limit :=
    fun h => ⟨h.toKeeps, h.bounded hbounded⟩
  -- what may let in a comment or a bracket has nothing that ends on top
  have hdeeper : ∀ {tree' : Tree}, frame.component ≠ .closing →
      tree.Deepens limit (nesting (frame :: below)) outer.size tree' →
      tree.Keeps tree' ∧ tree'.Bounded limit := by
    intro tree' hclosing hdeepens
    refine ⟨hdeepens.keeps, hdeepens.bounded hbounded hin (Nat.le_of_eq ?_)⟩
    have hbelow : tally tree below = nesting below :=
      h.rest.tally_eq_nesting (h.fits.shape.ne_literal (Or.inl hclosing)) h.carries.shows.kinds.2
    rw [← h.tally_eq, tally_cons, nesting_cons, hbelow, Frame.counts_of_ne_closing hclosing]
  cases frame with
  | grammar begun =>
    obtain ⟨hroot, -⟩ := h.fits.shape
    have houter : outer = [] := by
      have hrest := h.rest
      rw [hroot] at hrest
      cases hrest
      rfl
    subst houter
    exact hdeeper nofun (deepens_stepGrammar hin begun)
  | comment id text stage =>
    obtain rfl := hid rfl
    exact hdeeper nofun (deepens_stepComment hin text stage)
  | product id lhs stage =>
    obtain rfl := hid rfl
    exact hplain (extends_stepProduct hin (h.carries.shows.kind_top ▸ hcounts.symm) lhs stage)
  | definitions id stage =>
    obtain rfl := hid rfl
    exact hplain (extends_stepDefinitions hin stage)
  | definition id start term =>
    obtain rfl := hid rfl
    exact hplain (extends_stepDefinition hin start term)
  | term id parts dash =>
    obtain rfl := hid rfl
    exact hdeeper nofun
      (deepens_stepTerm hin (h.carries.shows.kind_top ▸ hcounts.symm) parts dash)
  | exception id term primary =>
    obtain rfl := hid rfl
    exact hdeeper nofun
      (deepens_stepException hin (h.carries.shows.kind_top ▸ hcounts.symm) term primary)
  | repetition id =>
    obtain rfl := hid rfl
    exact hplain (extends_stepRepetition hin)
  | bracket b id stage =>
    obtain rfl := hid rfl
    exact hplain (extends_stepBracket hin (h.carries.shows.kind_top ▸ hcounts.symm) b stage)
  | quoted form id text =>
    obtain rfl := hid rfl
    exact hplain ((Tree.Extends.refl tree).stepQuoted hin form text)
  | closing id => exact hplain ((Tree.Extends.refl tree).closeAtLastChild id)
  | paren | opener | identifier | run | literal | matched => exact h.fits.shape.elim

/-- A bracket whose opener is held back is let in below the production that waits for it. -/
theorem Tree.Deepens.bounded_of_stacked {limit : Nat} {tree tree' : Tree} {below : List Frame}
    {spine : Spine} {parent : NodeId} {b : Bracket}
    (h : tree.Deepens limit (nesting below) parent tree') (hcarries : tree.Carries spine)
    (hparent : spine.top? = some parent)
    (hrest : Stacked (some (.node (.primary (.bracketed b none)))) below spine)
    (hbounded : tree.Bounded limit) : tree.Keeps tree' ∧ tree'.Bounded limit := by
  obtain ⟨node, outer, rfl, rfl⟩ := Spine.exists_of_top? hparent
  refine ⟨h.keeps, h.bounded hbounded hcarries.shows.size_lt (Nat.le_of_eq ?_)⟩
  have hyield : Stacked (Kind.primary (.bracketed b none)).yield? below (node :: outer) := hrest
  rw [hcarries.shows.nestingAt_top, ← hyield.tally_eq_nesting nofun hcarries.shows.kinds]
  exact (hyield.tally_eq hcarries.shows.kinds fun _ => Kind.possible_of_yield?).symm

/-- **Step lemma.** A step keeps the nodes of the tree, and they lie within the limit. Only what was
compared with the limit lies deeper than what is around it. -/
theorem bounded_step {limit : Nat} {sight : Sight} {tree : Tree} {frames : List Frame}
    (h : Grown sight.ahead tree frames) (hbounded : tree.Bounded limit) :
    tree.Keeps (step limit sight tree frames).tree ∧
      (step limit sight tree frames).tree.Bounded limit := by
  have hrefl := Tree.Extends.refl tree
  have hplain : ∀ {tree' : Tree}, tree.Extends tree' → tree.Keeps tree' ∧ tree'.Bounded limit :=
    fun h => ⟨h.toKeeps, h.bounded hbounded⟩
  cases h with
  | idle h => exact h.bounded_step hbounded
  | @paren parent start below spine carries parent_eq rest =>
    exact (deepens_stepParen start).bounded_of_stacked carries parent_eq (rest .grouped) hbounded
  | @opener b parent opener below spine carries parent_eq rest =>
    exact (deepens_attachBracket hrefl b opener).bounded_of_stacked carries parent_eq rest hbounded
  | @quoted form id run below leaf spine fill run_eq top_eq =>
    obtain ⟨node, outer, rfl, rfl⟩ := Spine.exists_of_top? top_eq
    exact hplain (hrefl.stepQuoted fill.carries.shows.close.size_lt form (some run))
  | run fill => exact hplain (hrefl.stepRun _)
  | @identifier id parent trailing below leaf spine fill id_eq parent_eq =>
    obtain ⟨node, outer, rfl, rfl⟩ := Spine.exists_of_top? parent_eq
    exact hplain (hrefl.stepIdentifier fill.carries.shows.close.size_lt trailing)
  | literal fill => exact hplain (hrefl.stepLiteral ..)
  | matched fill => exact hplain ((hrefl.withData ..).withLast ..)

/-! ### Runs -/

/-- The tree that all steps for one character leave. -/
def Outcome.tree : Outcome → Tree
  | waiting tree _ | accepted tree | rejected tree _ => tree

/-- The steps for one character keep the nodes of the tree, and they lie within the limit. -/
theorem bounded_settle {limit : Nat} {sight : Sight} {tree : Tree} {frames : List Frame}
    (hgrown : Grown sight.ahead tree frames) (hbounded : tree.Bounded limit) :
    tree.Keeps (settle limit sight tree frames).tree ∧
      (settle limit sight tree frames).tree.Bounded limit := by
  refine settle_induction (P := fun tree' frames' => Grown sight.ahead tree' frames' ∧
    tree.Keeps tree' ∧ tree'.Bounded limit)
    (Q := fun outcome => tree.Keeps outcome.tree ∧ outcome.tree.Bounded limit)
    (fun tree' frames' ⟨hgrown', hkeeps', hbounded'⟩ => ?_) ⟨hgrown, .refl tree, hbounded⟩
  have hgrows := grows_step limit hgrown'
  obtain ⟨hnodes, hwithin⟩ := bounded_step hgrown' hbounded'
  cases hstep : step limit sight tree' frames' with
  | again tree'' frames'' =>
    rw [hstep] at hgrows hnodes hwithin
    exact ⟨hgrows, hkeeps'.trans hnodes, hwithin⟩
  | next tree'' frames'' | accept tree'' | reject tree'' cause =>
    rw [hstep] at hnodes hwithin
    exact ⟨hkeeps'.trans hnodes, hwithin⟩

theorem Tree.bounded_empty (limit : Nat) : Tree.empty.Bounded limit := by
  refine ⟨fun id hid => Or.inl ?_, fun id hid => ?_⟩
  · obtain rfl : id = 0 := Nat.lt_one_iff.mp hid
    exact ⟨rfl, rfl⟩
  · obtain rfl : id = 0 := Nat.lt_one_iff.mp hid
    exact Nat.zero_le limit

namespace Reached

variable {limit : Nat} {whole text : List Char} {config : Config} {tree : Tree}

theorem standing (h : Reached limit whole config) :
    Standing False whole whole config.tree config.frames :=
  h.between.standing.mono False.elim

theorem bounded_settle (h : Reached limit whole config) (hbounded : config.tree.Bounded limit)
    (ahead : Option Char) :
    config.tree.Keeps (settle limit (config.sight ahead) config.tree config.frames).tree ∧
      (settle limit (config.sight ahead) config.tree config.frames).tree.Bounded limit := by
  cases ahead <;> exact LosslessEbnf.bounded_settle (h.grown _) hbounded

/-- The nodes lie within the limit in every configuration that is reached. -/
theorem bounded (h : Reached limit whole config) : config.tree.Bounded limit := by
  induction h with
  | initial => exact Tree.bounded_empty limit
  | @next _ _ c _ _ before taken ih =>
    have hbounded := (before.bounded_settle ih (some c)).2
    rw [Config.sight, Option.elim_some, taken] at hbounded
    exact hbounded

/-- A run that accepts keeps the nodes that it finds, and all nodes lie within the limit. -/
theorem keeps_of_runText (h : Reached limit whole config)
    (hrun : runText limit config text = .ok tree) :
    config.tree.Keeps tree ∧ tree.Bounded limit := by
  induction text generalizing whole config with
  | nil =>
    have hend := h.bounded_settle h.bounded none
    rw [Config.sight, Option.elim_none] at hend
    rw [runText_nil, finish] at hrun
    split at hrun
    · rename_i hsettle
      exact (settle_atEnd_ne_waiting _ _ _ _ _ _ hsettle).elim
    · rename_i hsettle
      cases hrun
      rw [hsettle] at hend
      exact hend
    · cases hrun
  | cons c text ih =>
    have hnext := h.bounded_settle h.bounded (some c)
    rw [Config.sight, Option.elim_some] at hnext
    rw [runText_cons] at hrun
    split at hrun
    · rename_i hsettle
      rw [hsettle] at hnext
      obtain ⟨hkeeps, hbounded⟩ := ih (.next h hsettle) hrun
      exact ⟨hnext.1.trans hkeeps, hbounded⟩
    · rename_i hsettle
      have hkeeps := h.between.keeps_settle limit c
      rw [hsettle] at hkeeps
      cases hkeeps.1
    · cases hrun

end Reached

/-- All nodes of the tree of a text that is read lie within the limit. -/
theorem bounded_of_parseText {text : String} {limit : Nat} {tree : Tree}
    (h : parseText text limit = .ok tree) : tree.Bounded limit := by
  rw [parseText_eq] at h
  exact (Reached.initial.keeps_of_runText h).2

/-! ### Productions that are still read -/

/-- Some node lies in what is open for the productions that wait for a component. -/
theorem Stacked.exists_nestingAt {yield : Yield} {frames : List Frame} {spine : Spine} {tree : Tree}
    (h : Stacked (some yield) frames spine) (hpossible : yield.Possible)
    (hcarries : tree.Carries spine) :
    ∃ id, id < tree.size ∧ tally tree frames ≤ tree.nestingAt id := by
  cases spine with
  | nil => cases h
  | cons node outer =>
    refine ⟨Spine.size outer, hcarries.shows.size_lt, Nat.le_of_eq ?_⟩
    rw [hcarries.shows.nestingAt_top, ← h.tally_eq hcarries.shows.kinds
      fun _ h => Option.some.inj h ▸ hpossible]

/-- Some node lies in what is open for the productions that wait for a leaf. -/
theorem Filled.exists_nestingAt {tree : Tree} {leaf : Label} {yield : Yield} {below : List Frame}
    {spine : Spine} (h : Filled tree leaf yield below spine) (hpossible : yield.Possible) :
    ∃ id, id < tree.size ∧ tally tree below ≤ tree.nestingAt id := by
  obtain ⟨hcarries, hrest⟩ := h
  cases spine with
  | nil => cases hrest
  | cons node outer =>
    refine ⟨Spine.size outer, hcarries.close.shows.size_lt, Nat.le_of_eq ?_⟩
    have hlevel : Spine.level (node.add (.bare leaf) :: outer) = Spine.level (node :: outer) := by
      rw [Spine.level_cons, Spine.level_cons, OpenNode.label_add]
    rw [hcarries.close.shows.nestingAt_top, hlevel, ← hrest.tally_eq hcarries.shows.kinds.2
      fun _ h => Option.some.inj h ▸ hpossible]

/-- Some node lies in all comments and brackets that are open, namely the innermost open one. -/
theorem Grown.exists_nestingAt {sure : Prop} {whole done : List Char} {ahead : Option Char}
    {tree : Tree} {frames : List Frame} (h : Grown ahead tree frames)
    (hstanding : Standing sure whole done tree frames) :
    ∃ id, id < tree.size ∧ tally tree frames ≤ tree.nestingAt id := by
  cases h with
  | @idle _ _ node outer h =>
    exact ⟨outer.size, h.carries.shows.size_lt, Nat.le_of_eq h.tally_eq⟩
  | paren carries _ rest =>
    exact (rest .grouped).exists_nestingAt ⟨.primary (.bracketed .grouped none), rfl⟩ carries
  | @opener b _ _ _ _ carries _ rest =>
    exact rest.exists_nestingAt ⟨.primary (.bracketed b none), rfl⟩ carries
  | @quoted form id _ below _ _ fill =>
    obtain ⟨leaf, hleaf, hle⟩ := fill.exists_nestingAt trivial
    rw [tally_cons] at hle
    exact ⟨leaf, hleaf, Nat.le_trans (Nat.le_add_right ..) hle⟩
  | @run run _ _ _ _ fill => exact fill.exists_nestingAt (by cases run <;> trivial)
  | identifier fill => exact fill.exists_nestingAt trivial
  | @literal _ candidates _ _ _ _ _ fill =>
    refine fill.exists_nestingAt ?_
    rintro rfl
    cases hstanding with
    | idle rest => cases rest.waiting.id_eq_size
    | literal _ _ _ _ _ goes => cases goes
  | matched fill _ _ text_mem =>
    exact fill.exists_nestingAt (List.ne_nil_of_mem text_mem)

end LosslessEbnf
