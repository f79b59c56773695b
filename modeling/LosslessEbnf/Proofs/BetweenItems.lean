import LosslessEbnf.Proofs.Items
import LosslessEbnf.Proofs.Reaching
import LosslessEbnf.Proofs.SideBySide

/-!
# Between items

Where an item of a text has ended and the next one has not begun, the machine stands as at the
beginning of a text, but for the tree.

## Main Definitions

* `Passes` — steps that leave the character
* `Ripe` — open productions that end with whatever comes next
* `EndsWithSpace` — a run of white space is open, which can still grow
* `Busy` — open productions that do not end in front of the next character
* `Own` — the children that the root has, beside productions that cannot change them
* `Config.Ends` — an item ends in front of what comes next

## Main Statements

* `Ripe.runText_eq` — reading goes on between items
* `Standing.cases_ends` — the open productions are ripe or busy
* `Own.settle_busy`, `Own.settle_grammar` — only between items the root gets another child
* `Reached.exists_cut` — in front of every child of the root an item ends
* `Reached.ends_of_accepted` — where a text may end, an item may begin

## Design Notes

White space behind a comment or a product is an item of its own, so a run of white space is the only
item that may go on with the next character. That nothing but a step between items changes the
children of the root is seen by letting the run go on beside itself.
-/

namespace LosslessEbnf

/-! ### Steps that leave the character -/

/-- Steps that leave the character lead from one tree and stack to others. -/
inductive Passes (limit : Nat) (sight : Sight) (tree' : Tree) (frames' : List Frame) :
    Tree → List Frame → Prop
  /-- No step. -/
  | refl : Passes limit sight tree' frames' tree' frames'
  /-- One more step in front. -/
  | cons {tree next : Tree} {frames nextFrames : List Frame}
      (again : step limit sight tree frames = .again next nextFrames)
      (rest : Passes limit sight tree' frames' next nextFrames) :
      Passes limit sight tree' frames' tree frames

namespace Passes

variable {limit : Nat} {sight : Sight} {tree tree' : Tree} {frames frames' : List Frame}

theorem settle_eq (h : Passes limit sight tree' frames' tree frames) :
    settle limit sight tree frames = settle limit sight tree' frames' := by
  induction h with
  | refl => rfl
  | cons again _ ih => rw [LosslessEbnf.settle_eq, again, ← ih]

theorem standing {sure : Prop} {done whole : List Char}
    (h : Passes limit sight tree' frames' tree frames) (hs : sight.Reads done whole)
    (hsure : sure → sight.ahead.isSome) (hstanding : Standing sure whole done tree frames) :
    Standing sure whole done tree' frames' := by
  induction h with
  | refl => exact hstanding
  | cons again _ ih =>
    have hkeeps := keeps_step limit hs hsure hstanding
    rw [again] at hkeeps
    exact ih hkeeps

theorem grown (h : Passes limit sight tree' frames' tree frames)
    (hgrown : Grown sight.ahead tree frames) : Grown sight.ahead tree' frames' := by
  induction h with
  | refl => exact hgrown
  | cons again _ ih =>
    have hgrows := grows_step limit hgrown
    rw [again] at hgrows
    exact ih hgrows

end Passes

/-! ### Ripe productions -/

/-- The open productions end with whatever comes next, and then only the whole text is open; `bed`
is the tree by then. -/
inductive Ripe (tree : Tree) : List Frame → Tree → Prop
  /-- Only the whole text is open. -/
  | grammar : Ripe tree [.grammar true] tree
  /-- White space was read. -/
  | space {id : NodeId} : Ripe tree [.run .space id, .grammar true] tree
  /-- The last component of an item was read. -/
  | closing {id : NodeId} : Ripe tree [.closing id, .grammar true] (tree.closeAtLastChild id)
  /-- The mark at the end of an item was read. -/
  | matched {mark id : NodeId} {text : List Char} {last : Position} :
    Ripe tree [.matched mark text last, .closing id, .grammar true]
      (((tree.withData mark (String.ofList text)).withLast mark last).closeAtLastChild id)

/-- A run of white space is open. -/
def EndsWithSpace (frames : List Frame) : Prop := ∃ id, frames.head? = some (.run .space id)

/-- A run of white space between items goes on at the next such character, and nothing else
changes. -/
theorem step_space {limit : Nat} {tree : Tree} {below : List Frame} {id : NodeId} {c : Char}
    {here : Position} (hc : isSpace c = true) :
    step limit ⟨some c, here⟩ tree (.run .space id :: below) =
      .next (tree.extend id c here) (.run .space id :: below) :=
  if_pos hc

namespace Ripe

variable {limit : Nat} {sight : Sight} {tree bed : Tree} {frames : List Frame}

theorem passes (h : Ripe tree frames bed)
    (hspace : EndsWithSpace frames → sight.ahead.any isSpace = false) :
    Passes limit sight bed [.grammar true] tree frames := by
  cases h with
  | grammar => exact .refl
  | @space id =>
    have hahead := hspace ⟨id, rfl⟩
    refine .cons ?_ .refl
    obtain ⟨ahead, here⟩ := sight
    cases ahead with
    | none => rfl
    | some c => exact if_neg (Bool.eq_false_iff.mp hahead)
  | closing => exact .cons rfl .refl
  | matched => exact .cons rfl (.cons rfl .refl)

theorem eq_of_endsWithSpace (h : Ripe tree frames bed) (hspace : EndsWithSpace frames) :
    ∃ id, frames = [.run .space id, .grammar true] := by
  obtain ⟨id, hid⟩ := hspace
  cases h with
  | space => exact ⟨_, rfl⟩
  | grammar | closing | matched => cases hid

/-- Reading goes on between items as it would have begun there, with the tree that there is. -/
theorem runText_eq {position : Position} {text : List Char} (h : Ripe tree frames bed)
    (hspace : EndsWithSpace frames → text.head?.any isSpace = false) :
    runText limit ⟨tree, frames, position⟩ text =
      runText limit ⟨bed, [.grammar true], position⟩ text := by
  cases text with
  | nil =>
    have hpasses : Passes limit ⟨none, position⟩ bed [.grammar true] tree frames :=
      h.passes fun _ => rfl
    rw [runText_nil, runText_nil, finish, finish, hpasses.settle_eq]
  | cons c text =>
    have hpasses : Passes limit ⟨some c, position.after c⟩ bed [.grammar true] tree frames :=
      h.passes hspace
    rw [runText_cons, runText_cons, hpasses.settle_eq]

/-- No node gets another child when productions end, so what hangs below a node is there while it is
open. -/
theorem children_eq (h : Ripe tree frames bed) (id : NodeId) :
    bed.children id = tree.children id := by
  cases h with
  | grammar | space => rfl
  | closing => exact Tree.children_closeAtLastChild
  | matched =>
    exact Tree.children_closeAtLastChild.trans
      ((Tree.children_withLast _).trans (Tree.children_update fun _ => rfl))

end Ripe

/-! ### Busy productions -/

/-- The open productions do not end in front of the next character. -/
inductive Busy : List Frame → Prop
  /-- Some of them needs more text. -/
  | demands {frames : List Frame} (any : frames.any Frame.demands = true) : Busy frames
  /-- A mark was not read in full. -/
  | literal {id : NodeId} {candidates : List String} {read : List Char} {below : List Frame} :
    Busy (.literal id candidates read none :: below)

/-- Only the whole text can be around a production that closes or around white space if no
production needs more text. -/
theorem Nested.eq_grammar {frame host : Frame} {below : List Frame}
    (h : Nested (frame :: host :: below))
    (hcomponent : frame.component ∈ [Component.space, .closing])
    (hdemands : (host :: below).any Frame.demands = false) :
    host = .grammar true ∧ below = [] := by
  cases h with
  | cons rest waits admitted =>
    rw [List.any_cons, Bool.or_eq_false_iff] at hdemands
    cases host with
    | grammar begun =>
      cases begun with
      | false => cases waits
      | true =>
        cases rest with
        | grammar => exact ⟨rfl, rfl⟩
        | cons _ _ hadmitted => exact absurd hadmitted Frame.text_not_mem_components
    | closing | literal | matched | run =>
      revert hcomponent
      cases hc : frame.component <;> rw [hc] at admitted <;> simp [Frame.components] at admitted ⊢
    | _ => cases hdemands.1

/-- Only the whole text and an item can be around a mark if no production needs more text. -/
theorem Nested.eq_closing {frame host : Frame} {below : List Frame}
    (h : Nested (frame :: host :: below)) (hcomponent : frame.component = .mark)
    (hdemands : (host :: below).any Frame.demands = false) :
    ∃ id, host = .closing id ∧ below = [.grammar true] := by
  cases h with
  | cons rest waits admitted =>
    rw [hcomponent] at admitted
    cases host with
    | closing id =>
      cases rest with
      | @cons _ host below rest waits' admitted' =>
        rw [List.any_cons, Bool.or_eq_false_iff] at hdemands
        obtain ⟨rfl, rfl⟩ := (Nested.cons rest waits' admitted').eq_grammar
          (List.mem_cons_of_mem _ List.mem_cons_self) hdemands.2
        exact ⟨id, rfl, rfl⟩
    | grammar | literal | matched | run => simp [Frame.components] at admitted
    | _ => cases hdemands

variable {limit : Nat} {sure : Prop} {done whole : List Char} {sight : Sight} {tree tree' : Tree}
  {frames frames' : List Frame}

/-- The open productions are ripe or busy, unless nothing was read: either only items may follow, or
more text has to. -/
theorem Standing.cases_ends (h : Standing sure whole done tree frames) :
    frames = [.grammar false] ∨ (∃ bed, Ripe tree frames bed) ∨ Busy frames := by
  cases hdemands : frames.any Frame.demands with
  | true => exact .inr (.inr (.demands hdemands))
  | false =>
    have hnested := h.nested
    cases h with
    | fresh => exact .inl rfl
    | @idle frame below _ _ rest =>
      cases frame with
      | grammar begun =>
        cases begun with
        | false => cases rest.waiting.id_eq_size
        | true =>
          obtain ⟨rfl, -⟩ := rest.waiting.eq_nil_of_grammar
          exact .inr (.inl ⟨_, .grammar⟩)
      | closing id =>
        cases hnested with
        | cons rest' waits admitted =>
          obtain ⟨rfl, rfl⟩ := (Nested.cons rest' waits admitted).eq_grammar
            (List.mem_cons_of_mem _ List.mem_cons_self) hdemands
          exact .inr (.inl ⟨_, .closing⟩)
      | literal | matched | run => cases rest.waiting.id_eq_size
      | _ => cases hdemands
    | @run run id host below _ _ _ fill admitted =>
      cases run with
      | space =>
        obtain ⟨rfl, rfl⟩ := hnested.eq_grammar List.mem_cons_self hdemands
        exact .inr (.inl ⟨_, .space⟩)
      | number =>
        -- only a repetition has a number, and it needs a star
        exfalso
        cases host with
        | grammar | closing | literal | matched | run =>
          simp [Frame.component, Frame.components] at admitted
        | _ => cases hdemands
    | literal => exact .inr (.inr .literal)
    | matched =>
      obtain ⟨id, rfl, rfl⟩ := hnested.eq_closing rfl hdemands
      exact .inr (.inl ⟨_, .matched⟩)
    | _ => cases hdemands

/-! ### The children of the root -/

/-- The seam in front of a text whose first character stands at the given position. -/
def Seam.start (first : Position) : Seam where
  shift := .zero
  part := Tree.empty.withFirst Tree.root first
  whole := Tree.empty.withFirst Tree.root first
  part_pos := Nat.one_pos
  size_eq := rfl

/-- A tree beside itself, with the given children of the root, and productions that do not name the
root. -/
structure Own (first : Position) (items : List NodeId) (tree : Tree) (frames : List Frame) :
    Prop where
  /-- The tree has grown from the root alone. -/
  trees : (Seam.start first).Alike items tree tree
  /-- The productions change nothing but their own nodes. -/
  behind : ∀ frame ∈ frames, frame.Behind 1

section

variable {first : Position} {items : List NodeId}

theorem Own.children_root (h : Own first items tree frames) : tree.children Tree.root = items :=
  h.trees.items_part

theorem own_begun (first : Position) :
    Own first [] (Tree.empty.withFirst Tree.root first) [.grammar true] :=
  ⟨Seam.alike_refl rfl, List.forall_mem_singleton.mpr rfl⟩

theorem Shift.sight_zero (sight : Sight) : Shift.zero.sight sight = sight := by
  rw [Shift.sight, Shift.base_zero, Position.behind_start]

/-- A move that leaves the root the given children. -/
def Move.Own (first : Position) (items : List NodeId) : Move → Prop
  | .again tree frames | .next tree frames => LosslessEbnf.Own first items tree frames
  | _ => True

theorem Move.own_of_alike {move : Move} (h : move.Alike (Seam.start first) items move) :
    move.Own first items := by
  cases move with
  | again tree frames =>
    obtain ⟨whole, hmove, trees, behind⟩ := h.of_again
    obtain ⟨rfl, -⟩ := Move.again.inj hmove
    exact ⟨trees, behind⟩
  | next tree frames =>
    obtain ⟨whole, hmove, trees, behind⟩ := h.of_next
    obtain ⟨rfl, -⟩ := Move.next.inj hmove
    exact ⟨trees, behind⟩
  | _ => trivial

/-- A step inside an item leaves the root its children, and it begins nothing in front of the
item. -/
theorem Own.step {frame : Frame} {below : List Frame} (h : Own first items tree (frame :: below))
    (hhere : sight.here.Passed) (hgrammar : ∀ begun, frame ≠ .grammar begun) :
    (step limit sight tree (frame :: below)).Own first items := by
  have hstep : (LosslessEbnf.step limit sight tree (frame :: below)).Alike (Seam.start first) items
      (LosslessEbnf.step limit (Shift.zero.sight sight) tree
        ((frame :: below).map Shift.zero.frame)) := alike_step h.trees h.behind hhere hgrammar
  rw [Shift.sight_zero, Shift.map_frame_zero] at hstep
  exact Move.own_of_alike hstep

/-- Between items a step gives the root one more child. -/
theorem Own.step_grammar {here : Position} {c : Char} (h : Own first items tree [.grammar true]) :
    (LosslessEbnf.step limit ⟨some c, here⟩ tree [.grammar true]).Own first
      (items ++ [tree.size]) := by
  have hstep : (LosslessEbnf.step limit ⟨some c, here⟩ tree [.grammar true]).Alike
      (Seam.start first) (items ++ [tree.size])
      (LosslessEbnf.step limit (Shift.zero.sight ⟨some c, here⟩) tree
        ([.grammar true].map Shift.zero.frame)) :=
    alike_stepGrammar_some h.trees (List.forall_mem_nil _) c here
  rw [Shift.sight_zero, Shift.map_frame_zero] at hstep
  exact Move.own_of_alike hstep

/-- Between items a character is taken or refused at once. -/
theorem lightens_step_grammar {bound : Nat} {here : Position} {c : Char} :
    (step limit ⟨some c, here⟩ tree [.grammar true]).Lightens bound := by
  show (stepGrammar limit ⟨some c, here⟩ tree [] true).Lightens bound
  unfold stepGrammar
  dsimp only
  rw [if_pos rfl]
  split
  · exact lightens_openComment
  split
  · exact lightens_openProduct
  split
  · exact lightens_openSpace
  · exact lightens_unexpected

/-- The character between items begins an item, and what it begins lies behind all nodes that are
there. -/
theorem Own.settle_grammar {here : Position} {c : Char} (h : Own first items tree [.grammar true])
    (hsettle : settle limit ⟨some c, here⟩ tree [.grammar true] = .waiting tree' frames') :
    Own first (items ++ [tree.size]) tree' frames' := by
  have hown : (LosslessEbnf.step limit ⟨some c, here⟩ tree [.grammar true]).Own first
      (items ++ [tree.size]) := h.step_grammar
  have hlightens : (LosslessEbnf.step limit ⟨some c, here⟩ tree [.grammar true]).Lightens 0 :=
    lightens_step_grammar
  rw [settle_eq] at hsettle
  cases hstep : LosslessEbnf.step limit ⟨some c, here⟩ tree [.grammar true] with
  | again =>
    rw [hstep] at hlightens
    exact absurd hlightens (Nat.not_lt_zero _)
  | next =>
    rw [hstep] at hown hsettle
    obtain ⟨rfl, rfl⟩ := Outcome.waiting.inj hsettle
    exact hown
  | accept | reject =>
    rw [hstep] at hsettle
    cases hsettle

/-- Productions stay busy until a character is taken: what is begun without one asks for more
text. -/
theorem Busy.of_again (h : Busy frames) (hnested : Nested frames)
    (hstep : step limit sight tree frames = .again tree' frames') : Busy frames' := by
  cases h with
  | demands any =>
    have hdemands := demands_step limit sight tree hnested any
    rw [hstep] at hdemands
    exact .demands hdemands
  | @literal id candidates read below =>
    exfalso
    change stepLiteral sight tree below id candidates read none = _ at hstep
    unfold stepLiteral settleLiteral at hstep
    split at hstep
    · dsimp only at hstep
      split at hstep
      · cases hstep
      · split at hstep <;> cases hstep
    · cases hstep

/-- Where productions are busy the next character gives the root no child, since they need it
themselves. -/
theorem Own.settle_busy (h : Own first items tree frames) (hhere : sight.here.Passed)
    (hs : sight.Reads done whole) (hsure : sure → sight.ahead.isSome)
    (hstanding : Standing sure whole done tree frames) (hbusy : Busy frames)
    (hsettle : settle limit sight tree frames = .waiting tree' frames') :
    Own first items tree' frames' := by
  -- a step that leaves the character makes the stack lighter, so the induction is on its weight
  induction hw : weight frames using Nat.strongRecOn generalizing tree frames with
  | ind n ih =>
    have hkeeps := keeps_step limit hs hsure hstanding
    have hown : (LosslessEbnf.step limit sight tree frames).Own first items := by
      cases frames with
      | nil => trivial
      | cons frame below =>
        refine h.step hhere fun begun hgrammar => ?_
        subst hgrammar
        cases hbusy with
        | demands any =>
          cases hstanding.nested with
          | grammar => cases any
          | cons _ _ admitted => exact Frame.text_not_mem_components admitted
    rw [settle_eq] at hsettle
    cases hstep : LosslessEbnf.step limit sight tree frames with
    | again next nextFrames =>
      rw [hstep] at hkeeps hown hsettle
      exact ih _ (hw ▸ weight_lt_of_step hstep) hown hkeeps (hbusy.of_again hstanding.nested hstep)
        hsettle rfl
    | next =>
      rw [hstep] at hown hsettle
      obtain ⟨rfl, rfl⟩ := Outcome.waiting.inj hsettle
      exact hown
    | accept | reject =>
      rw [hstep] at hsettle
      cases hsettle

end

/-- Nothing behind the root is named anew when productions end. -/
theorem Ripe.own {first : Position} {items : List NodeId} {bed : Tree} (h : Ripe tree frames bed)
    (hown : Own first items tree frames) : Own first items bed [.grammar true] := by
  have hhere : (Position.mk 1 1).Passed := ⟨Nat.le_refl 1, fun _ => Nat.one_ne_zero⟩
  have hstep : ∀ {frame below tree}, Own first items tree (frame :: below) →
      (∀ begun, frame ≠ .grammar begun) →
      (step 0 ⟨none, ⟨1, 1⟩⟩ tree (frame :: below)).Own first items :=
    fun hown hgrammar => hown.step hhere hgrammar
  cases h with
  | grammar => exact hown
  | space | closing => exact hstep hown fun _ hgrammar => by cases hgrammar
  | matched =>
    exact hstep (hstep hown fun _ hgrammar => by cases hgrammar) fun _ hgrammar => by
      cases hgrammar

/-! ### Where items end -/

/-- The text or an item of it ends in front of what comes next. -/
inductive Config.Ends (config : Config) (ahead : Option Char) : Prop
  /-- Nothing was read. -/
  | fresh (frames_eq : config.frames = [.grammar false])
  /-- The open productions are ripe, and white space does not go on. -/
  | ripe {bed : Tree} (ripe : Ripe config.tree config.frames bed)
      (apart : EndsWithSpace config.frames → ahead.any isSpace = false)

/-- Nothing was read, or the root has the children that the machine gave it. -/
def Config.Own (config : Config) : Prop :=
  config.frames = [.grammar false] ∨
    ∃ first, LosslessEbnf.Own first (config.tree.children Tree.root) config.tree config.frames

theorem Reached.eq_initial {text : List Char} {config : Config} (h : Reached limit text config)
    (hframes : config.frames = [.grammar false]) : text = [] ∧ config = .initial := by
  obtain ⟨tree, frames, position⟩ := config
  subst hframes
  cases h.between.standing with
  | fresh tree_eq done_eq =>
    subst done_eq
    obtain rfl : tree = .empty := tree_eq
    obtain rfl : position = .start := h.between.position_eq
    exact ⟨rfl, rfl⟩
  | idle rest => cases rest.waiting.id_eq_size

/-- A character that is taken begins an item where one ends, and otherwise leaves the root its
children. -/
theorem Reached.own_settle {text : List Char} {config : Config} {c : Char}
    (h : Reached limit text config) (hown : config.Own)
    (taken : settle limit ⟨some c, config.position.after c⟩ config.tree config.frames =
      .waiting tree frames) :
    ∃ first items, LosslessEbnf.Own first items tree frames ∧
      (items = config.tree.children Tree.root ∨
        config.Ends (some c) ∧ ∃ id, items = config.tree.children Tree.root ++ [id]) := by
  have hends : ∀ {first bed}, LosslessEbnf.Own first (config.tree.children Tree.root) bed
      [.grammar true] → Passes limit ⟨some c, config.position.after c⟩ bed [.grammar true]
        config.tree config.frames → config.Ends (some c) →
      ∃ first items, LosslessEbnf.Own first items tree frames ∧
        (items = config.tree.children Tree.root ∨
          config.Ends (some c) ∧ ∃ id, items = config.tree.children Tree.root ++ [id]) := by
    intro first bed hbed hpasses hends
    rw [hpasses.settle_eq] at taken
    exact ⟨first, _, hbed.settle_grammar taken, .inr ⟨hends, bed.size, rfl⟩⟩
  rcases hown with hfresh | ⟨first, hown⟩
  · obtain ⟨rfl, rfl⟩ := h.eq_initial hfresh
    exact hends (own_begun _) (.cons rfl .refl) (.fresh rfl)
  have hpassed := Position.passed_after (Position.start.line_afterAll text) c
  rw [← h.between.position_eq] at hpassed
  rcases h.between.standing.cases_ends with hfresh | ⟨bed, hripe⟩ | hbusy
  · obtain ⟨rfl, rfl⟩ := h.eq_initial hfresh
    exact hends (own_begun _) (.cons rfl .refl) (.fresh rfl)
  · by_cases hspace : EndsWithSpace config.frames ∧ isSpace c = true
    · -- the run of white space goes on
      obtain ⟨id, hframes⟩ := hripe.eq_of_endsWithSpace hspace.1
      rw [hframes] at hown taken
      have hstep : (step limit ⟨some c, config.position.after c⟩ config.tree
          [.run .space id, .grammar true]).Own first (config.tree.children Tree.root) :=
        hown.step hpassed fun _ hgrammar => by cases hgrammar
      rw [step_space hspace.2] at hstep
      rw [settle_eq, step_space hspace.2] at taken
      obtain ⟨rfl, rfl⟩ := Outcome.waiting.inj taken
      exact ⟨first, _, hstep, .inl rfl⟩
    · have hapart : EndsWithSpace config.frames → (some c).any isSpace = false := fun h =>
        Bool.eq_false_iff.mpr fun hc => hspace ⟨h, hc⟩
      exact hends (hripe.own hown) (hripe.passes hapart) (.ripe hripe hapart)
  · exact ⟨first, _, hown.settle_busy hpassed (h.between.reads_some c) (fun _ => rfl)
      (h.between.standing.weaken id [c]) hbusy taken, .inl rfl⟩

theorem Reached.own {text : List Char} {config : Config} (h : Reached limit text config) :
    config.Own := by
  induction h with
  | initial => exact .inl rfl
  | next before taken ih =>
    obtain ⟨first, items, hown, -⟩ := before.own_settle ih taken
    exact .inr ⟨first, hown.children_root ▸ hown⟩

/-- In front of every child of the root an item ends: the run has been at a place where an item may
end, with as many children as there are in front of that one. -/
theorem Reached.exists_cut {text : List Char} {config : Config} {k : Nat}
    (h : Reached limit text config) (hk : k < (config.tree.children Tree.root).length) :
    ∃ front c back last, text = front ++ c :: back ∧ Reached limit front last ∧
      last.Ends (some c) ∧ (last.tree.children Tree.root).length = k := by
  induction h with
  | initial => exact absurd hk (Nat.not_lt_zero k)
  | @next whole before c tree frames reached taken ih =>
    obtain ⟨first, items, hown, hitems⟩ := reached.own_settle reached.own taken
    have hlength : (tree.children Tree.root).length = items.length :=
      congrArg List.length hown.children_root
    rw [hlength] at hk
    by_cases hold : k < (before.tree.children Tree.root).length
    · obtain ⟨front, first, back, last, rfl, hlast, hends, hcount⟩ := ih hold
      exact ⟨front, first, back ++ [c], last, by simp, hlast, hends, hcount⟩
    · -- the last child of the root begins with the character
      rcases hitems with rfl | ⟨hends, id, rfl⟩
      · exact absurd hk hold
      · rw [List.length_append, List.length_singleton] at hk
        exact ⟨whole, c, [], before, rfl, reached, hends, by omega⟩

/-- Where productions are busy the text does not end. -/
theorem settle_busy_ne_accepted {here : Position} (hs : (Sight.mk none here).Reads whole whole)
    (h : Standing True whole whole tree frames) (hbusy : Busy frames) :
    settle limit ⟨none, here⟩ tree frames ≠ .accepted tree' := by
  cases hbusy with
  | demands any => exact settle_atEnd_ne_accepted hs (h.mono False.elim) any
  | literal =>
    rw [settle_eq]
    intro haccepted
    cases haccepted

/-- Where a text may end, an item may begin. -/
theorem Reached.ends_of_accepted {text : List Char} {config : Config}
    (h : Reached limit text config)
    (haccepted : settle limit ⟨none, config.position⟩ config.tree config.frames =
      .accepted tree) : config.Ends none := by
  rcases h.between.standing.cases_ends with hfresh | ⟨bed, hripe⟩ | hbusy
  · exact .fresh hfresh
  · exact .ripe hripe fun _ => rfl
  · exact absurd haccepted (settle_busy_ne_accepted h.between.reads_none h.between.standing hbusy)

end LosslessEbnf
