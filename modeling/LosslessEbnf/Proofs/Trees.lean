import LosslessEbnf.Proofs.GrowthProductions
import LosslessEbnf.Proofs.Replies
import LosslessEbnf.Proofs.RoundTrip

/-!
# Trees that are handed out

What is true of all trees that a run hands out: of the complete ones, and of those that are cut off
where the run failed.

## Main Definitions

* `Outcome.Grows` — what all steps for one character make of the tree
* `HandsOut` — a complete tree, or a failure with one that is cut off

## Main Statements

* `grows_settle` — the steps for one character
* `handsOut_drive` — the run on a source
* `wellShaped_of_parse` — every node of the tree of an accepted source is as its kind demands
* `arena_of_parse` — the table of every tree that is handed out is sound

## Design Notes

Between two characters nothing is known of the next one, so the tree is as it may be in front of any
character.
-/

namespace LosslessEbnf

variable {limit : Nat} {sight : Sight} {tree : Tree} {frames : List Frame} {ahead : Option Char}

/-! ### Trees that are cut off -/

/-- A tree may be cut off at any moment. What is open then has some of its children, and what is not
is as it has to be. -/
theorem Grown.cut (h : Grown ahead tree frames) : tree.Partial := by
  cases h with
  | idle h => exact h.cut
  | paren carries _ rest => exact (rest .grouped).cut carries
  | opener carries _ rest => exact rest.cut carries
  | quoted fill _ _ kind => exact fill.cut (by rw [kind]; rfl)
  | @run run _ _ _ _ fill _ kind => exact fill.cut (by rw [kind]; cases run <;> rfl)
  | identifier fill _ _ kind => exact fill.cut (by rw [kind]; rfl)
  | literal fill _ kind => exact fill.cut (by rw [kind]; rfl)
  | matched fill _ kind => exact fill.cut (by rw [kind]; rfl)

/-- What a tree that is complete has, it has as one that is cut off. -/
theorem Tree.Complete.cut (h : tree.Complete) : tree.Partial := by
  obtain ⟨root, hcarries, hroot, hformed, hbelow⟩ := h
  exact ⟨root, [], hcarries, hformed.linked, hbelow.mono fun _ _ => OpenNode.Formed.linked,
    fun _ => hroot, trivial⟩

theorem Tree.Partial.arena (h : tree.Partial) : tree.Arena := by
  obtain ⟨node, outer, hcarries, hlinked⟩ := h
  obtain ⟨root, hroot, hlinked⟩ := hcarries.exists_root hlinked
  exact hroot.arena hlinked

theorem Tree.Complete.wellShaped (h : tree.Complete) : tree.WellShaped := by
  obtain ⟨root, hcarries, hroot, hformed, hbelow⟩ := h
  exact hcarries.shows.wellShaped hroot hformed hbelow

/-! ### Runs -/

/-- What all steps for one character make of the tree. -/
def Outcome.Grows : Outcome → Prop
  | waiting tree frames => ∀ ahead, Grown ahead tree frames
  | accepted tree => tree.Complete
  | rejected tree _ => tree.Partial

theorem grows_settle (limit : Nat) (h : Grown sight.ahead tree frames) :
    (settle limit sight tree frames).Grows := by
  refine settle_induction (fun tree frames h => ?_) h
  have hgrows := grows_step limit h
  cases hstep : step limit sight tree frames with
  | again tree' frames' | next tree' frames' | accept tree' | reject tree' cause =>
    rw [hstep] at hgrows
    exact hgrows

/-- A complete tree, or a failure with one that is cut off. -/
def HandsOut : Except ParseError Tree → Prop
  | .ok tree => tree.Complete
  | .error error => error.tree.Partial

/-- The tree of the machine between two characters. -/
def Config.Grown (config : Config) : Prop :=
  ∀ ahead, LosslessEbnf.Grown ahead config.tree config.frames

/-- The tree into which nothing was read is one of the whole text. -/
theorem Config.grown_initial : Config.initial.Grown := by
  intro ahead
  have hfits : (Frame.grammar false).Fits ahead 0 .root [] := by
    refine Frame.Shape.fits_of_gap fun gap hgap => ⟨rfl, matches_single.mpr ?_⟩
    rcases hgap with rfl | ⟨blank, rfl, hblank⟩
    · exact Slot.mixed_nil _ _
    · exact Slot.mixed_snoc (Slot.mixed_nil _ _) (by simp [hblank, Kind.bare]) nofun
  exact .idle ⟨⟨Tree.carries_empty, .nil, .bare rfl⟩, hfits⟩

/-- A run on a source hands out a tree, whatever the source replies and whether the text is accepted
or not. -/
theorem handsOut_drive {σ : Type} [Source σ] (source : σ) {config : Config} (h : config.Grown) :
    HandsOut (drive limit config source).1 := by
  refine drive_induction (P := fun tree frames => ∀ ahead, Grown ahead tree frames)
    (fun config _ h => (h none).cut) (fun sight tree frames h => ?_) source h
  have hgrows : (settle limit sight tree frames).Grows := grows_settle limit (h _)
  cases hsettle : settle limit sight tree frames with
  | waiting tree' frames' | accepted tree' | rejected tree' cause =>
    rw [hsettle] at hgrows
    exact hgrows

/-- The reading of a source hands out a tree, whatever the source replies. -/
theorem handsOut_parse {σ : Type} [Source σ] (source : σ) (maxNesting : Nat) :
    HandsOut (parse source maxNesting) :=
  handsOut_drive source Config.grown_initial

/-- The tree of a text that is read is complete. -/
theorem complete_of_parseText {text : String} {limit : Nat} {tree : Tree}
    (h : parseText text limit = .ok tree) : tree.Complete := by
  have hout := handsOut_parse (TextSource.ofString text) limit
  rw [show parse (TextSource.ofString text) limit = _ from h] at hout
  exact hout

/-! ### All trees -/

/-- **Shape.** Every node of the tree of an accepted source has the children and the text that its
production demands. -/
theorem wellShaped_of_parse {σ : Type} [Source σ] {source : σ} {maxNesting : Nat}
    (h : parse source maxNesting = .ok tree) : tree.WellShaped := by
  have hcomplete := handsOut_parse source maxNesting
  rw [h] at hcomplete
  exact hcomplete.wellShaped

/-- A tree with a repetition, an exception and brackets of two characters. -/
theorem wellShaped_of_parse_nested :
    ∃ tree, parse (TextSource.ofString "a b = (/'x' | c /) - d /[2*e]; (* f *)") 2 = .ok tree ∧
      tree.WellShaped := by
  obtain ⟨tree, htree⟩ := exists_tree_of_isOk
    (show (parseText "a b = (/'x' | c /) - d /[2*e]; (* f *)" 2).isOk = true by
      with_unfolding_all decide)
  exact ⟨tree, htree, wellShaped_of_parse htree⟩

/-- The tree of a result, be it complete or cut off. -/
def handedOut : Except ParseError Tree → Tree
  | .ok tree => tree
  | .error error => error.tree

theorem HandsOut.arena {result : Except ParseError Tree} (h : HandsOut result) :
    (handedOut result).Arena := by
  cases result with
  | ok tree => exact Tree.Partial.arena (Tree.Complete.cut h)
  | error error => exact Tree.Partial.arena h

/-- A run that ends hands out a tree, even if the source does not end. -/
theorem handsOut_of_run {σ : Type} {read : Nat → σ → Except Fault String × σ} {source rest : σ}
    {maxNesting fuel : Nat} {result : Except ParseError Tree}
    (h : (Phase.start source).run read maxNesting fuel = .finished result rest) :
    HandsOut result := by
  obtain ⟨script, rfl⟩ := parse_of_run h
  exact handsOut_parse script maxNesting

/-- **Soundness of tables.** The table of every tree that is handed out is sound, be the tree
complete or cut off, and be the source endless or not. -/
theorem arena_of_parse :
    (∀ {σ : Type} [Source σ] (source : σ) (maxNesting : Nat),
      match parse source maxNesting with
      | .ok tree => tree.Arena
      | .error error => error.tree.Arena) ∧
    ∀ {σ : Type} (read : Nat → σ → Except Fault String × σ) (source rest : σ)
      (maxNesting fuel : Nat) (result : Except ParseError Tree),
      (Phase.start source).run read maxNesting fuel = .finished result rest →
        (handedOut result).Arena := by
  refine ⟨fun source maxNesting => ?_, fun read source rest maxNesting fuel result hrun =>
    (handsOut_of_run hrun).arena⟩
  have harena := (handsOut_parse source maxNesting).arena
  cases hparse : parse source maxNesting with
  | ok tree | error error =>
    rw [hparse] at harena
    exact harena

/-- The tree of a product, whose nodes stand in the order of a walk, and one that is cut off where
an endless source opens one comment too many. -/
theorem arena_of_parse_name :
    (∃ tree, parse (TextSource.ofString "x=a;") 1 = .ok tree ∧
      (tree.nodes.toList.map fun node => (node.parent, node.children, node.data)) =
        [(none, [1], ""), (some 0, [2, 3, 4, 8], ""), (some 1, [], "x"), (some 1, [], "="),
          (some 1, [5], ""), (some 4, [6], ""), (some 5, [7], ""), (some 6, [], "a"),
          (some 1, [], ";")] ∧ tree.Arena) ∧
    ∃ error rest, (Phase.start 0).run openingComments 2 20 = .finished (.error error) rest ∧
      error.tree.text = "(*(*" ∧ error.tree.Arena := by
  constructor
  · have hfacts : (parse (TextSource.ofString "x=a;") 1).toOption.map (fun tree =>
        tree.nodes.toList.map fun node => (node.parent, node.children, node.data)) =
        some [(none, [1], ""), (some 0, [2, 3, 4, 8], ""), (some 1, [], "x"), (some 1, [], "="),
          (some 1, [5], ""), (some 4, [6], ""), (some 5, [7], ""), (some 6, [], "a"),
          (some 1, [], ";")] := by decide +kernel
    have harena := arena_of_parse.1 (TextSource.ofString "x=a;") 1
    cases h : parse (TextSource.ofString "x=a;") 1 with
    | error error =>
      rw [h] at hfacts
      cases hfacts
    | ok tree =>
      rw [h] at hfacts harena
      exact ⟨tree, rfl, Option.some.inj hfacts, harena⟩
  · exact ⟨_, _, rfl, by decide +kernel, arena_of_parse.2 openingComments 0 _ 2 20 _ rfl⟩

end LosslessEbnf
