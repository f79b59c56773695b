import LosslessEbnf.Proofs.Accepting
import LosslessEbnf.Proofs.BetweenItems

/-!
# Joining texts

What is behind the end of an item is read as on its own, but for white space behind white space.

## Main Definitions

* `Tree.Holding` — a tree between items, with the items and the text that it holds
* `Joins` — what becomes of a text behind other text
* `Label.merge` — white space that goes on with white space behind it
* `SpaceOpen` — an open run of white space in the tree

## Main Statements

* `Reached.accepts` — a text that is taken to the end of an item can be read
* `Reached.joins` — where an item ends the rest of a text is read as on its own
* `Reached.merges` — white space behind a run of it goes on with the run
* `Reached.endsWithSpace_iff` — a run of white space is open just behind white space

## Design Notes

The run on the whole text and the run on its back are followed from the first character behind the
seam. If that is white space behind white space, they are followed from the first character that is
none, and the white space in front of it has been read into one leaf in either run.
-/

namespace LosslessEbnf

variable {limit : Nat} {sure : Prop} {done whole text : List Char} {tree bed : Tree}
  {config : Config} {items : Forest}

/-! ### Texts that end between items -/

/-- What the tree is like between items. -/
structure Tree.Holding (tree : Tree) (items : Forest) (text : List Char) : Prop where
  /-- The items are those of the tree. -/
  is_items : tree.Items items
  /-- They hold the text. -/
  text_eq : items.text = text
  /-- The root holds no text itself. -/
  data_root : tree.data Tree.root = ""
  /-- The root is the root. -/
  depth_root : tree.depth Tree.root = 0

theorem Tree.Shows.depth_root {root : OpenNode} (h : tree.Shows [root]) :
    tree.depth Tree.root = 0 := by
  rw [Tree.depth, show Tree.root = Spine.size [] from rfl, h.get?_top]
  rfl

theorem Tree.Shows.holding {root : OpenNode} (h : tree.Shows [root])
    (hdata : root.label.data = "") : tree.Holding root.below root.text where
  is_items := h.items
  text_eq := by
    rw [OpenNode.text, hdata]
    rfl
  data_root := h.data_top.trans hdata
  depth_root := h.depth_root

theorem Tree.Holding.withLast_root (h : tree.Holding items text) (last : Position) :
    (tree.withLast Tree.root last).Holding items text where
  is_items := h.is_items.withLast_root last
  text_eq := h.text_eq
  data_root := by
    rw [← h.data_root, Tree.data, Tree.withLast, Tree.get?_update_self, Tree.data]
    cases tree.get? Tree.root <;> rfl
  depth_root := by
    rw [← h.depth_root, Tree.withLast]
    exact Tree.depth_update fun _ => rfl

/-- Between items the tree holds all that was taken. -/
theorem Standing.holding (h : Standing sure whole done tree [.grammar true]) :
    ∃ items, tree.Holding items done := by
  cases h with
  | @idle _ _ node outer rest done_eq =>
    obtain ⟨-, rfl⟩ := rest.waiting.eq_nil_of_grammar
    have hholding := rest.shows.holding rest.waiting.begun_top.data
    rw [← done_eq]
    exact ⟨_, hholding⟩

/-- Where an item ends the tree holds all that was taken once the open productions have ended. -/
theorem Reached.holding (h : Reached limit text config)
    (hripe : Ripe config.tree config.frames bed) : ∃ items, bed.Holding items text := by
  have hpasses : Passes limit ⟨none, config.position⟩ bed [.grammar true] config.tree
    config.frames := hripe.passes fun _ => rfl
  exact (hpasses.standing h.between.reads_none False.elim
    (h.between.standing.mono False.elim)).holding

/-- Between items the text may end, and the root ends where the reader stands. -/
theorem runText_grammar_nil (limit : Nat) (tree : Tree) (position : Position) :
    runText limit ⟨tree, [.grammar true], position⟩ [] =
      .ok (tree.withLast Tree.root position) := by
  rw [runText_nil, finish, settle_eq]
  rfl

/-- The text without characters has a tree of only the root, whose span is empty. -/
theorem runText_initial_nil (limit : Nat) :
    runText limit .initial [] = .ok (Tree.empty.withSpan Tree.root (.gap ⟨1, 1⟩)) := by
  rw [runText_nil, finish, settle_eq]
  rfl

/-- Where an item ends the text can be read. -/
theorem Reached.runText_of_ripe (h : Reached limit text config)
    (hripe : Ripe config.tree config.frames bed) :
    runText limit .initial text = .ok (bed.withLast Tree.root config.position) := by
  have hrun := h.runText_append []
  rwa [List.append_nil, hripe.runText_eq fun _ => rfl, runText_grammar_nil] at hrun

/-- A text that is taken to the end of an item can be read. -/
theorem Reached.accepts {ahead : Option Char} (h : Reached limit text config)
    (hends : config.Ends ahead) :
    ∃ tree items, runText limit .initial text = .ok tree ∧ tree.Holding items text ∧
      tree.children Tree.root = config.tree.children Tree.root := by
  cases hends with
  | fresh hframes =>
    obtain ⟨rfl, rfl⟩ := h.eq_initial hframes
    exact ⟨_, .nil, runText_initial_nil limit, ⟨⟨rfl, rfl, trivial⟩, rfl, rfl, rfl⟩, rfl⟩
  | ripe hripe =>
    obtain ⟨items, hholding⟩ := h.holding hripe
    refine ⟨_, items, h.runText_of_ripe hripe, hholding.withLast_root config.position, ?_⟩
    rw [Tree.children_withLast, hripe.children_eq]

/-- A text that can be read is taken to the end of an item. -/
theorem exists_ends_of_ok (h : runText limit .initial text = .ok tree) :
    ∃ config items, Reached limit text config ∧ config.Ends none ∧ tree.Holding items text ∧
      tree.children Tree.root = config.tree.children Tree.root := by
  obtain ⟨config, hreached, haccepted⟩ := Reached.initial.of_runText_ok h
  have hends := hreached.ends_of_accepted haccepted
  obtain ⟨tree', items, hrun, hholding, hchildren⟩ := hreached.accepts hends
  obtain rfl : tree = tree' := Except.ok.inj (h.symm.trans hrun)
  exact ⟨config, items, hreached, hends, hholding, hchildren⟩

/-! ### Items that do not run together -/

/-- What becomes of a text behind other text: both readings fail, or both trees have the items
`back`, the one behind `front'` and the other one, shifted, behind `front`. -/
inductive Joins (shift : Shift) (front' front : Forest) :
    Except ParseError Tree → Except ParseError Tree → Prop
  /-- Both texts can be read. -/
  | ok {part whole : Tree} {back : Forest} (is_part : part.Items (front' ++ back))
      (is_whole : whole.Items (front ++ shift.forest back)) :
      Joins shift front' front (.ok part) (.ok whole)
  /-- Neither of them can. -/
  | error {failure failure' : ParseError} :
      Joins shift front' front (.error failure) (.error failure')

/-- Runs side by side join what is behind the seam to what was in front of it. -/
theorem Result.Alike.joins {s : Seam} {part whole : Except ParseError Tree} {front' front : Forest}
    (h : Result.Alike s part whole) (hpart : s.part.Items front') (hwhole : s.whole.Items front)
    (hitems : ∀ tree, part = .ok tree → ∃ items, tree.Items items) :
    Joins s.shift front' front part whole := by
  cases h with
  | error => exact .error
  | ok trees =>
    obtain ⟨items, hall⟩ := hitems _ rfl
    obtain ⟨back, rfl⟩ := hpart.take trees.items_part
      (fun id hpos hlt => trees.old_part id hpos hlt) hall
    exact .ok hall (trees.items hpart hwhole hall)

theorem exists_items_of_ok (h : runText limit .initial text = .ok tree) :
    ∃ items, tree.Items items := by
  obtain ⟨-, items, -, -, hholding, -⟩ := exists_ends_of_ok h
  exact ⟨items, hholding.is_items⟩

/-- A tree that holds only its root has no items. -/
theorem items_initial : (Tree.empty.withSpan Tree.root (.gap ⟨1, 1⟩)).Items .nil :=
  ⟨rfl, rfl, trivial⟩

theorem items_start (first : Position) : (Seam.start first).part.Items .nil := ⟨rfl, rfl, trivial⟩

theorem Shift.forest_zero (forest : Forest) : Shift.zero.forest forest = forest := by
  induction forest with
  | nil => rfl
  | cons top below beside ihBelow ihBeside =>
    have htop : Shift.zero.label top = top := by
      rw [Shift.label, Shift.kind_zero, Shift.span_zero]
    rw [Shift.forest, htop, ihBelow, ihBeside]

/-- A text in front of which nothing stands is joined to that as it is, without a shift. -/
theorem joins_nil (text : List Char) :
    Joins .zero .nil .nil (runText limit .initial text) (runText limit .initial text) := by
  cases hrun : runText limit .initial text with
  | error => exact .error
  | ok tree =>
    obtain ⟨items, hitems⟩ := exists_items_of_ok hrun
    refine .ok hitems ?_
    rwa [Forest.nil_append, Shift.forest_zero]

/-- The first character of a text is read between items. -/
theorem runText_initial_cons (limit : Nat) (c : Char) (text : List Char) :
    runText limit .initial (c :: text) =
      runText limit ⟨(Seam.start (Position.start.after c)).part, [.grammar true], .start⟩
        (c :: text) := by
  have hpasses : Passes limit ⟨some c, Position.start.after c⟩
      (Seam.start (Position.start.after c)).part [.grammar true] .empty [.grammar false] :=
    .cons rfl .refl
  rw [runText_cons, runText_cons]
  dsimp only [Config.initial]
  rw [hpasses.settle_eq]

/-- Between items the rest of a text is read as on its own, and its items stand behind those that
there are. -/
theorem Tree.Holding.joins {position : Position} (h : bed.Holding items done) (c : Char)
    (text : List Char) :
    Joins ⟨items.size, position⟩ .nil items (runText limit .initial (c :: text))
      (runText limit ⟨bed, [.grammar true], position⟩ (c :: text)) := by
  let s : Seam :=
    { shift := ⟨items.size, position⟩
      part := (Seam.start (Position.start.after c)).part
      whole := bed
      part_pos := Nat.one_pos
      size_eq := h.is_items.size_eq }
  have hbehind : ∀ frame ∈ [Frame.grammar true], frame.Behind s.first :=
    behind_cons _ rfl (List.forall_mem_nil _)
  have halike : Result.Alike s (runText limit ⟨s.part, [.grammar true], .start⟩ (c :: text))
      (runText limit ⟨bed, [.grammar true], position⟩ (c :: text)) :=
    alike_runText (Seam.alike_refl h.depth_root) hbehind (Nat.le_refl 1) fun hnil => by cases hnil
  rw [← runText_initial_cons] at halike
  exact halike.joins (items_start _) h.is_items fun tree => exists_items_of_ok

/-- Where an item ends the rest of a text is read as on its own, unless white space would be
divided. -/
theorem Reached.joins {back : List Char} (h : Reached limit text config)
    (hends : config.Ends back.head?) (hrun : runText limit .initial text = .ok tree)
    (hitems : tree.Items items) :
    Joins ⟨items.size, Position.start.afterAll text⟩ .nil items (runText limit .initial back)
      (runText limit .initial (text ++ back)) := by
  cases hends with
  | fresh hframes =>
    obtain ⟨rfl, rfl⟩ := h.eq_initial hframes
    rw [runText_initial_nil] at hrun
    obtain rfl := Except.ok.inj hrun
    obtain rfl := hitems.unique items_initial
    exact joins_nil back
  | ripe hripe apart =>
    obtain ⟨items', hbed⟩ := h.holding hripe
    obtain rfl := Except.ok.inj (hrun.symm.trans (h.runText_of_ripe hripe))
    obtain rfl := hitems.unique (hbed.is_items.withLast_root _)
    cases back with
    | nil =>
      have hwhole := hitems
      rw [← Forest.append_nil items] at hwhole
      rw [List.append_nil, hrun, runText_initial_nil]
      exact .ok items_initial hwhole
    | cons c back =>
      rw [h.runText_append, hripe.runText_eq apart, ← h.between.position_eq]
      exact hbed.joins c back

/-! ### White space that runs together -/

/-- White space and further white space behind it, which is read behind text that ends at `base`. -/
def Label.merge (base : Position) (first second : Label) : Label :=
  ⟨first.kind, ⟨first.span.first, base.behind second.span.last⟩, first.data ++ second.data⟩

/-- A run of white space takes all white space that is next, and ends at the last character of
it. -/
theorem runText_space (limit : Nat) (below : List Frame) (rest : List Char) {leaf : Label}
    {spine : Spine} {position : Position} {blank : List Char}
    (hshows : tree.Shows (.bare leaf :: spine)) (hlast : leaf.span.last = position)
    (hblank : Blank blank) :
    ∃ tree', tree'.Shows (.bare ⟨leaf.kind, ⟨leaf.span.first, position.afterAll blank⟩,
        leaf.data ++ String.ofList blank⟩ :: spine) ∧
      runText limit ⟨tree, .run .space spine.size :: below, position⟩ (blank ++ rest) =
        runText limit ⟨tree', .run .space spine.size :: below, position.afterAll blank⟩ rest := by
  induction blank generalizing tree leaf position with
  | nil =>
    subst hlast
    refine ⟨tree, ?_, rfl⟩
    simpa using hshows
  | cons c blank ih =>
    obtain ⟨hc, hblank⟩ := List.forall_mem_cons.mp hblank
    obtain ⟨tree', hshows', hrun⟩ := ih (hshows.extend c (position.after c)) rfl hblank
    refine ⟨tree', ?_, ?_⟩
    · have hdata : leaf.data.push c ++ String.ofList blank =
          leaf.data ++ String.ofList (c :: blank) := by
        refine String.toList_inj.mp ?_
        simp
      rw [← hdata]
      exact hshows'
    · rw [List.cons_append, runText_cons, settle_eq, step_space hc]
      exact hrun

/-- White space between items is an item: a leaf of its own below the root. -/
theorem settle_grammar_space {c : Char} {here : Position} (hc : isSpace c = true) :
    settle limit ⟨some c, here⟩ tree [.grammar true] =
      .waiting (tree.pushChild Tree.root .space (.point here) (String.singleton c))
        [.run .space tree.size, .grammar true] := by
  have hparen : c ≠ '(' := ne_of_isSpace hc (by decide)
  have hletter : ¬isLetter c = true := fun hletter => by
    rw [isSpace_eq_false_of_isLetter hletter] at hc
    cases hc
  have hstep : step limit ⟨some c, here⟩ tree [.grammar true] =
      .next (tree.pushChild Tree.root .space (.point here) (String.singleton c))
        [.run .space tree.size, .grammar true] := by
    show stepGrammar limit ⟨some c, here⟩ tree [] true = _
    unfold stepGrammar
    dsimp only
    rw [if_pos rfl, if_neg hparen, if_neg hletter, if_pos hc]
    exact if_pos hc
  rw [settle_eq, hstep]

/-- The first run of white space of a text becomes its first item, a single leaf. -/
theorem runText_initial_space (limit : Nat) (rest : List Char) {c : Char} {blank : List Char}
    (hc : isSpace c = true) (hblank : Blank blank) :
    ∃ tree root leaf, tree.Shows [.bare leaf, .bare root] ∧ leaf.kind = .space ∧
      leaf.span.last = Position.start.afterAll (c :: blank) ∧
      leaf.data = String.ofList (c :: blank) ∧
      runText limit .initial (c :: (blank ++ rest)) =
        runText limit ⟨tree, [.run .space 1, .grammar true],
          Position.start.afterAll (c :: blank)⟩ rest := by
  have hstart : (Seam.start (Position.start.after c)).part.Shows
      [.bare ⟨.root, ⟨Position.start.after c, .start⟩, ""⟩] :=
    Tree.shows_empty.withFirst (Position.start.after c)
  obtain ⟨tree, hshows, hrun⟩ := runText_space limit [.grammar true] rest
    (hstart.push .space (.point (Position.start.after c)) (String.singleton c)) rfl hblank
  refine ⟨tree, _, _, hshows, rfl, rfl, ?_, ?_⟩
  · refine String.toList_inj.mp ?_
    simp
  · rw [runText_initial_cons, runText_cons]
    dsimp only
    rw [settle_grammar_space hc]
    exact hrun

/-- An open run of white space: its leaf is the last child of the root. -/
structure SpaceOpen (tree : Tree) (id : NodeId) (position : Position) (text : List Char)
    (leaf : Label) (root : OpenNode) : Prop where
  /-- The leaf and the root are open. -/
  shows : tree.Shows [.bare leaf, root]
  /-- The leaf has the number of the run. -/
  id_eq : id = Spine.size [root]
  /-- The root holds no text itself. -/
  data_root : root.label.data = ""
  /-- The leaf is white space. -/
  kind_eq : leaf.kind = .space
  /-- There is some. -/
  nonempty : leaf.data ≠ ""
  /-- There is nothing else. -/
  blank : Blank leaf.data.toList
  /-- It ends with the last character that was taken. -/
  last_eq : leaf.span.last = position
  /-- It stands at the end of the text. -/
  text_eq : root.text ++ leaf.data.toList = text

theorem Reached.spaceOpen {id : NodeId} (h : Reached limit text config)
    (hframes : config.frames = [.run .space id, .grammar true]) :
    ∃ leaf root, SpaceOpen config.tree id config.position text leaf root := by
  have hstanding := h.between.standing
  have hgrown := h.grown none
  rw [hframes] at hstanding hgrown
  cases hstanding with
  | idle rest => cases rest.waiting.id_eq_size
  | @run _ _ _ _ leaf root outer fill admitted id_eq done_eq denotes =>
    obtain ⟨-, rfl⟩ := fill.waiting.eq_nil_of_grammar
    cases hgrown with
    | idle hidle => exact hidle.fits.shape.elim
    | @run _ _ _ leaf' spine fill' id_eq' kind nonempty holds =>
      have hleaf := fill.shows.get?_top
      rw [← id_eq, id_eq', fill'.carries.shows.get?_top] at hleaf
      obtain ⟨hkind, -, -, -, -, hdata⟩ := Node.mk.inj (Option.some.inj hleaf)
      have hdata' : leaf'.data = leaf.data := hdata
      rw [hdata'] at nonempty holds
      have hne : leaf.data.toList ≠ [] := fun hnil => nonempty (String.toList_inj.mp hnil)
      have hlast := denotes.last hne
      have hlength := congrArg List.length done_eq
      rw [List.length_append] at hlength
      have hpos := List.length_pos_iff.mpr hne
      refine ⟨leaf, root, fill.shows, id_eq, fill.waiting.begun_top.data, hkind.symm.trans kind,
        nonempty, holds, ?_, done_eq⟩
      rw [hlength, places_last, ← h.between.position_eq] at hlast
      · exact (Option.some.inj hlast).symm
      · rintro rfl
        rw [List.length_nil] at hlength
        omega

/-- Where a run of white space is open, white space that is next goes on with it. -/
theorem Reached.merges {c : Char} {back : List Char} (h : Reached limit text config)
    {id : NodeId} (hframes : config.frames = [.run .space id, .grammar true])
    (hc : isSpace c = true) (hrun : runText limit .initial text = .ok tree)
    (hitems : tree.Items items) :
    ∃ front first second, items = front ++ .single first .nil ∧ first.kind = .space ∧
      second.kind = .space ∧
      Joins ⟨front.size, Position.start.afterAll text⟩ (.single second .nil)
        (front ++ .single (first.merge (Position.start.afterAll text) second) .nil)
        (runText limit .initial (c :: back)) (runText limit .initial (text ++ c :: back)) := by
  obtain ⟨first, root, hopen⟩ := h.spaceOpen hframes
  obtain ⟨blank, rest, rfl, hblank, hrest⟩ : ∃ blank rest, back = blank ++ rest ∧ Blank blank ∧
      rest.head?.any isSpace = false :=
    ⟨back.takeWhile isSpace, skipSpace back, (List.takeWhile_append_dropWhile ..).symm,
      fun c hc => (List.all_eq_true.mp List.all_takeWhile) c hc, any_isSpace_skipSpace⟩
  obtain ⟨part, root', second, hpart, hkind, hlast, hdata, hrunPart⟩ :=
    runText_initial_space limit rest hc hblank
  obtain ⟨whole, hwhole, hrunWhole⟩ := runText_space limit [.grammar true] rest hopen.shows
    hopen.last_eq (List.forall_mem_cons.mpr ⟨hc, hblank⟩)
  have hbase : Position.start.afterAll text = config.position := h.between.position_eq.symm
  have hline : 1 ≤ (Position.start.afterAll (c :: blank)).line := Position.start.line_afterAll _
  have hmerge : (⟨first.kind, ⟨first.span.first, config.position.afterAll (c :: blank)⟩,
      first.data ++ String.ofList (c :: blank)⟩ : Label) = first.merge config.position second := by
    rw [Label.merge, hlast, hdata, Position.afterAll_behind (Nat.le_refl 1)]
    rfl
  rw [hmerge] at hwhole
  let s : Seam :=
    { shift := ⟨root.below.size, config.position⟩
      part := part
      whole := whole
      part_pos := by
        rw [hpart.size_eq]
        exact Nat.succ_pos _
      size_eq := by
        rw [hpart.size_eq, hwhole.size_eq]
        simp only [Spine.size_cons, Spine.size_nil, OpenNode.below_bare, Forest.size_nil]
        omega }
  have hbehind : ∀ frame ∈ [Frame.grammar true], frame.Behind s.first :=
    behind_cons _ rfl (List.forall_mem_nil _)
  have halike : Result.Alike s
      (runText limit ⟨part, [.grammar true], Position.start.afterAll (c :: blank)⟩ rest)
      (runText limit ⟨whole, [.grammar true],
        config.position.behind (Position.start.afterAll (c :: blank))⟩ rest) :=
    alike_runText (Seam.alike_refl (hwhole.close.depth_root.trans hpart.close.depth_root.symm))
      hbehind hline fun _ => Position.passed_afterAll (Nat.le_refl 1) (List.cons_ne_nil _ _)
  rw [Position.afterAll_behind (Nat.le_refl 1), Position.start_behind] at halike
  have hspace : ∀ {tree id position}, runText limit ⟨tree, [.run .space id, .grammar true],
      position⟩ rest = runText limit ⟨tree, [.grammar true], position⟩ rest :=
    fun {_ _ _} => Ripe.space.runText_eq fun _ => hrest
  rw [hspace] at hrunPart hrunWhole
  have hwholeRun : runText limit .initial (text ++ c :: (blank ++ rest)) =
      runText limit ⟨whole, [.grammar true], config.position.afterAll (c :: blank)⟩ rest := by
    rw [h.runText_append, ← hrunWhole, ← hopen.id_eq, ← hframes]
    rfl
  have hitems' : items = root.below ++ .single first .nil := by
    have hripe : Ripe config.tree config.frames config.tree := by
      rw [hframes]
      exact .space
    obtain rfl := Except.ok.inj (hrun.symm.trans (h.runText_of_ripe hripe))
    exact hitems.unique (hopen.shows.close.items.withLast_root _)
  refine ⟨root.below, first, second, hitems', hopen.kind_eq, hkind, ?_⟩
  rw [hbase, hwholeRun, hrunPart]
  refine halike.joins hpart.close.items hwhole.close.items fun tree htree => ?_
  exact exists_items_of_ok (hrunPart.trans htree)

/-! ### White space at the end -/

/-- Comments and products end with marks, and no mark ends with white space. -/
theorem Marks.exists_last_of_mem {mark : String} (h : mark ∈ "*)" :: Marks.terminators) :
    ∃ c, mark.toList.getLast? = some c ∧ isSpace c = false := by
  have hall : ∀ mark ∈ "*)" :: Marks.terminators,
      mark.toList.getLast?.any Marks.chars.contains = true := by decide
  obtain ⟨c, hc, hmem⟩ := (Option.any_eq_true _ _).mp (hall mark h)
  exact ⟨c, hc, Marks.isSpace_eq_false (List.contains_iff_mem.mp hmem)⟩

/-- A forest whose last top is a mark ends with the mark, since nothing is below or behind it. -/
theorem Forest.getLast?_text_of_mark {forest : Forest} {number : NodeId} {front : List Child}
    {child : Child} {c : Char} (heach : forest.Each (fun id node => node.Formed id) number)
    (hrow : forest.row number = front ++ [child]) (hkind : child.kind = .literal)
    (hlast : child.data.toList.getLast? = some c) : forest.text.getLast? = some c := by
  have hforest : forest ≠ .nil := by
    rintro rfl
    rw [row_nil] at hrow
    exact absurd hrow.symm (by simp)
  obtain ⟨others, top, below, rfl⟩ := exists_last hforest
  rw [row_append, row_single] at hrow
  obtain ⟨-, hchild⟩ := List.append_inj' hrow rfl
  obtain rfl := (List.cons.inj hchild).1
  obtain ⟨-, hformed⟩ := each_append.mp heach
  obtain ⟨⟨hbuilds, -⟩, -⟩ := each_single.mp hformed
  -- a mark has no children, so its text is that of its node
  have hbelow : below = .nil := by
    dsimp only at hkind hbuilds
    rw [hkind] at hbuilds
    cases below with
    | nil => rfl
    | cons => cases hbuilds
  dsimp only at hlast
  rw [hbelow, text_append, text_single, text_nil, List.append_nil, List.getLast?_append, hlast,
    Option.some_or]

/-- A comment or a product ends with a mark, which is its last child, so it does not end with white
space. -/
theorem OpenNode.Formed.exists_last {id : NodeId} {node : OpenNode} (h : node.Formed id)
    (heach : node.below.Each (fun id node => node.Formed id) (id + 1))
    (hkind : node.label.kind.bare ∈ [Kind.comment, .product none none]) :
    ∃ c, node.text.getLast? = some c ∧ isSpace c = false := by
  obtain ⟨front, child, hrow, hliteral, hmark⟩ : ∃ front child, node.row id = front ++ [child] ∧
      child.kind = .literal ∧ child.data ∈ "*)" :: Marks.terminators := by
    have hbuilds := h.builds
    generalize node.label.kind = kind at hkind hbuilds
    cases kind with
    | comment =>
      have hmatches : Matches (commentRule.take 2 ++ [.one (·.IsMark ["*)"])]) (node.row id) :=
        hbuilds
      obtain ⟨front, _, hrow, -, child, rfl, hkind, hdata⟩ := hmatches.exists_append
      exact ⟨front, child, hrow, hkind, List.mem_cons.mpr (.inl (List.mem_singleton.mp hdata))⟩
    | product lhs rhs =>
      have hmatches : Matches ((productRule lhs rhs).take 5 ++ [.one (·.IsMark Marks.terminators)])
        (node.row id) := hbuilds
      obtain ⟨front, _, hrow, -, child, rfl, hkind, hdata⟩ := hmatches.exists_append
      exact ⟨front, child, hrow, hkind, List.mem_cons_of_mem _ hdata⟩
    | primary form => cases form <;> simp [Kind.bare] at hkind
    | _ => simp [Kind.bare] at hkind
  obtain ⟨c, hc, hspace⟩ := Marks.exists_last_of_mem hmark
  refine ⟨c, ?_, hspace⟩
  rw [OpenNode.text, List.getLast?_append,
    Forest.getLast?_text_of_mark heach hrow hliteral hc, Option.some_or]

/-- In front of white space the last item of a text is no white space unless a run is open. -/
theorem Grown.exists_last {c : Char} (h : Grown (some c) bed [.grammar true])
    (hspace : isSpace c = true) (hholding : bed.Holding items text) (hne : text ≠ []) :
    ∃ last, text.getLast? = some last ∧ isSpace last = false := by
  cases h with
  | @idle _ _ node outer hidle =>
    obtain ⟨hroot, hmatches⟩ := hidle.fits.shape
    obtain rfl : outer = [] := by
      have hrest := hidle.rest
      rw [hroot] at hrest
      cases hrest
      rfl
    have hitems := hidle.carries.shows.items.unique hholding.is_items
    have hroom := hidle.fits.room (by decide) hspace
    have hformed := hidle.sound.formed
    have hrow : node.row (Spine.size []) = items.row 1 := by
      rw [OpenNode.row, hitems]
      rfl
    rw [hrow] at hmatches hroom
    rw [hitems] at hformed
    have hnil : items ≠ .nil := by
      rintro rfl
      exact hne hholding.text_eq.symm
    obtain ⟨front, top, below, rfl⟩ := Forest.exists_last hnil
    rw [Forest.row_append, Forest.row_single] at hmatches hroom
    obtain ⟨-, hlast⟩ := Forest.each_append.mp hformed
    obtain ⟨hnode, hbelow⟩ := Forest.each_single.mp hlast
    have hkind : top.kind.bare ∈ [Kind.comment, .product none none, .space] :=
      (matches_single.mp hmatches).1 _ (List.mem_append_right _ List.mem_cons_self)
    -- there is room for white space, so the last item is none
    have hother : top.kind ≠ .space := fun htop =>
      (matches_single.mp (hroom ⟨0, .space, ""⟩ rfl).2).2 _ _ _ [] (List.append_assoc ..) htop rfl
    have hkind' : top.kind.bare ∈ [Kind.comment, .product none none] := by
      revert hkind hother
      generalize top.kind = kind
      intro hkind hother
      cases kind with
      | space => exact absurd rfl hother
      | primary form => cases form <;> simp [Kind.bare] at hkind
      | _ => simp [Kind.bare] at hkind ⊢
    obtain ⟨last, hlast, hspace⟩ := hnode.exists_last hbelow hkind'
    refine ⟨last, ?_, hspace⟩
    rw [← hholding.text_eq, Forest.text_append, Forest.text_single, List.getLast?_append,
      show top.data.toList ++ below.text = OpenNode.text ⟨top, below⟩ from rfl, hlast,
      Option.some_or]

/-- A run of white space is open just behind white space, when it is read between items. -/
theorem Reached.endsWithSpace_iff (h : Reached limit text config)
    (hripe : Ripe config.tree config.frames bed) :
    EndsWithSpace config.frames ↔ text.getLast?.any isSpace = true := by
  constructor
  · intro hspace
    obtain ⟨id, hframes⟩ := hripe.eq_of_endsWithSpace hspace
    obtain ⟨leaf, root, hopen⟩ := h.spaceOpen hframes
    have hblank := hopen.blank
    rw [← hopen.text_eq]
    rcases List.eq_nil_or_concat leaf.data.toList with hnil | ⟨front, c, hlast⟩
    · exact absurd (String.toList_inj.mp hnil) hopen.nonempty
    · rw [List.concat_eq_append] at hlast
      rw [hlast] at hblank ⊢
      rw [← List.append_assoc, List.getLast?_concat]
      exact hblank c (List.mem_append_right _ List.mem_cons_self)
  · intro hany
    obtain ⟨c, hc, hspace⟩ := (Option.any_eq_true _ _).mp hany
    refine Classical.byContradiction fun hnot => ?_
    have hpasses : Passes limit ⟨some c, config.position⟩ bed [.grammar true] config.tree
      config.frames := hripe.passes fun hends => absurd hends hnot
    obtain ⟨items, hholding⟩ := h.holding hripe
    obtain ⟨last, hlast, hfalse⟩ := (hpasses.grown (h.grown (some c))).exists_last hspace hholding
      fun hnil => by rw [hnil] at hc; cases hc
    obtain rfl := Option.some.inj (hc.symm.trans hlast)
    rw [hspace] at hfalse
    cases hfalse

end LosslessEbnf
