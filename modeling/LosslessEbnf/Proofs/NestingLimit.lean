import LosslessEbnf.Proofs.Completion
import LosslessEbnf.Proofs.Counter

/-!
# The limit of the nesting

A text that is read is read with every limit that its comments and brackets keep within, and with no
other one; and the limit is not to be seen in what is read.

## Main Definitions

* `Tree.deepest` — the most comments and brackets on the way from a leaf to the root
* `Outcome.Overruns` — what all steps come to with two limits, if a tree may lie too deep for one

## Main Statements

* `Reached.overruns_runText` — where two limits differ, the tree lies too deep for the smaller one
* `deepest_le_iff` — all nodes lie within a limit if the leaves do

## Design Notes

That a limit admits a tree is not seen at the step that asks for it, as the comment or bracket is
let in only then. But from there on the tree has a node that lies as deep as the machine has
counted, and later steps leave it where it is.
-/

namespace LosslessEbnf

/-! ### What lies too deep for a limit -/

/-- With two limits all steps come to the outcomes, which are the same unless a node lies too deep
for the limit `n`. -/
def Outcome.Overruns (n : Nat) (strict loose : Outcome) : Prop :=
  strict = loose ∨ (∃ tree cause, loose = .rejected tree cause) ∨
    ∃ id, id < loose.tree.size ∧ n < loose.tree.nestingAt id

/-- Where a comment or a bracket is let in that the smaller limit refuses, it lies too deep for
that limit. -/
theorem exists_nestingAt_of_enter {n m : Nat} {whole done : List Char} {sight : Sight}
    {tree tree' : Tree} {frames frames' : List Frame} (hgrown : Grown sight.ahead tree frames)
    (hnested : Nested frames) (henter : passage sight tree frames = .enter)
    (hle : n ≤ nesting frames) (hstanding : Standing False whole done tree' frames')
    (hpasses : ∀ count?, (step m sight tree frames).Passes count? →
      count? = some (tally tree' frames')) {ahead : Option Char}
    (hgrown' : Grown ahead tree' frames') : ∃ id, id < tree'.size ∧ n < tree'.nestingAt id := by
  obtain ⟨id, hid, hdeep⟩ := hgrown'.exists_nestingAt hstanding
  have hcount := hpasses _ (passes_step m hgrown hnested)
  rw [henter, Passage.turn?, ← nesting_eq_tally henter hnested, Option.some.injEq] at hcount
  exact ⟨id, hid, by omega⟩

/-- All steps for one character differ with two limits only if a node lies too deep. -/
theorem overruns_settle {n m : Nat} (hnm : n ≤ m) {whole done : List Char} {sight : Sight}
    {tree : Tree} {frames : List Frame} (hs : sight.Reads done whole)
    (h : Standing False whole done tree frames) (hgrown : Grown sight.ahead tree frames)
    (hbounded : tree.Bounded m) :
    (settle n sight tree frames).Overruns n (settle m sight tree frames) := by
  -- a step that leaves the character makes the stack lighter, so the induction is on its weight
  induction hw : weight frames using Nat.strongRecOn generalizing tree frames with
  | ind w ih =>
    have hkeeps := keeps_step m hs False.elim h
    have hgrows := grows_step m hgrown
    have hbounded' := (bounded_step hgrown hbounded).2
    rcases relaxes_step hnm sight tree frames with hsame | ⟨henter, hle, -⟩
    · rw [settle_eq n, settle_eq m, hsame]
      cases hstep : step m sight tree frames with
      | again tree' frames' =>
        rw [hstep] at hkeeps hgrows hbounded'
        exact ih _ (hw ▸ weight_lt_of_step hstep) hkeeps hgrows hbounded' rfl
      | next tree' frames' | accept tree' | reject tree' cause => exact Or.inl rfl
    · rw [settle_eq m]
      cases hstep : step m sight tree frames with
      | again tree' frames' =>
        rw [hstep] at hkeeps hgrows hbounded'
        obtain ⟨id, hid, hdeep⟩ := exists_nestingAt_of_enter hgrown h.nested henter hle hkeeps
          (fun _ hpasses => by rwa [hstep] at hpasses) hgrows
        have hkept := (bounded_settle hgrows hbounded').1
        refine Or.inr (Or.inr ⟨id, Nat.lt_of_lt_of_le hid hkept.size_le, ?_⟩)
        rw [hkept.nestingAt_eq hbounded'.rooted hid]
        exact hdeep
      | next tree' frames' =>
        rw [hstep] at hkeeps hgrows
        exact Or.inr (Or.inr (exists_nestingAt_of_enter hgrown h.nested henter hle hkeeps.2
          (fun _ hpasses => by rwa [hstep] at hpasses) (hgrows none)))
      | accept tree' =>
        have hcount := passes_step m hgrown h.nested
        rw [hstep, henter] at hcount
        cases hcount
      | reject tree' cause => exact Or.inr (Or.inl ⟨tree', cause, rfl⟩)

/-- Two runs from a configuration that is reached differ only if a node lies too deep. -/
theorem Reached.overruns_runText {n m : Nat} (hnm : n ≤ m) {whole text : List Char}
    {config : Config} (h : Reached m whole config) {tree : Tree}
    (hrun : runText m config text = .ok tree) :
    runText n config text = .ok tree ∨ ∃ id, id < tree.size ∧ n < tree.nestingAt id := by
  induction text generalizing whole config with
  | nil =>
    have hoverruns := overruns_settle hnm h.between.reads_none h.standing (h.grown none) h.bounded
    rw [runText_nil, finish] at hrun ⊢
    split at hrun
    · rename_i hsettle
      exact (settle_atEnd_ne_waiting _ _ _ _ _ _ hsettle).elim
    · rename_i hsettle
      cases hrun
      rw [hsettle] at hoverruns
      rcases hoverruns with hsame | ⟨_, _, hrejected⟩ | hdeep
      · exact Or.inl (by rw [hsame])
      · cases hrejected
      · exact Or.inr hdeep
    · cases hrun
  | cons c text ih =>
    have hoverruns := overruns_settle hnm (h.between.reads_some c) (h.standing.weaken id [c])
      (h.grown (some c)) h.bounded
    rw [runText_cons] at hrun ⊢
    split at hrun
    · rename_i hsettle
      have hnext := Reached.next h hsettle
      rw [hsettle] at hoverruns
      rcases hoverruns with hsame | ⟨_, _, hrejected⟩ | ⟨id, hid, hdeep⟩
      · rw [hsame]
        exact ih hnext hrun
      · cases hrejected
      · obtain ⟨hkept, -⟩ := hnext.keeps_of_runText hrun
        refine Or.inr ⟨id, Nat.lt_of_lt_of_le hid hkept.size_le, ?_⟩
        rw [hkept.nestingAt_eq hnext.bounded.rooted hid]
        exact hdeep
    · rename_i hsettle
      have hkeeps := h.between.keeps_settle m c
      rw [hsettle] at hkeeps
      cases hkeeps.1
    · cases hrun

/-- **Run lemma.** A larger limit changes nothing but that a refusal may go away. The induction is
on the text. -/
theorem relaxes_runText {n m : Nat} (hnm : n ≤ m) (config : Config) (text : List Char) :
    runText m config text = runText n config text ∨
      ∃ error, runText n config text = .error error ∧ error.cause = .nestingTooDeep n := by
  induction text generalizing config with
  | nil =>
    rw [runText_nil, runText_nil, finish, finish]
    rcases relaxes_settle hnm ⟨none, config.position⟩ config.tree config.frames with
      hsame | ⟨tree, hrefused⟩
    · exact Or.inl (by rw [hsame])
    · rw [hrefused]
      exact Or.inr ⟨_, rfl, rfl⟩
  | cons c text ih =>
    rw [runText_cons, runText_cons]
    rcases relaxes_settle hnm ⟨some c, config.position.after c⟩ config.tree config.frames with
      hsame | ⟨tree, hrefused⟩
    · rw [hsame]
      split
      · exact ih _
      · exact Or.inl rfl
      · exact Or.inl rfl
    · rw [hrefused]
      exact Or.inr ⟨_, rfl, rfl⟩

/-! ### How deep a tree is nested -/

namespace Tree

/-- The nodes without children. -/
def leaves (tree : Tree) : List NodeId :=
  (List.range tree.size).filter fun id => (tree.children id).isEmpty

/-- The most comments and brackets on the way from a leaf to the root. -/
def deepest (tree : Tree) : Nat := (tree.leaves.map tree.nestingAt).foldr max 0

variable {tree : Tree} {limit : Nat}

theorem mem_leaves_iff {id : NodeId} :
    id ∈ tree.leaves ↔ id < tree.size ∧ tree.children id = [] := by
  rw [leaves, List.mem_filter, List.mem_range, List.isEmpty_iff]

/-- Below every node there is a leaf that lies in all that the node lies in. -/
theorem exists_leaf {root : OpenNode} (hshows : tree.Shows [root]) (hrooted : tree.Rooted)
    {id : NodeId} (hid : id < tree.size) :
    ∃ leaf ∈ tree.leaves, tree.nestingAt id ≤ tree.nestingAt leaf := by
  -- a child is a later node, so the induction is on the number of nodes behind this one
  induction hn : tree.size - id using Nat.strongRecOn generalizing id with
  | ind n ih =>
    cases hchildren : tree.children id with
    | nil => exact ⟨id, mem_leaves_iff.mpr ⟨hid, hchildren⟩, Nat.le_refl _⟩
    | cons child rest =>
      obtain ⟨node, hget⟩ := Option.isSome_iff_exists.mp (isSome_get?_iff.mpr hid)
      rw [children, hget, Option.map_some, Option.getD_some] at hchildren
      obtain ⟨found, hfound, hparent, -⟩ :=
        hshows.fits hget (hchildren ▸ List.mem_cons_self : child ∈ node.children)
      have hin : child < tree.size := isSome_get?_iff.mp (by rw [get?, hfound]; rfl)
      have hparent' : tree.parent? child = some id := by rw [parent?, get?, hfound]; exact hparent
      rcases hrooted child hin with ⟨hnone, -⟩ | ⟨parent, hangs⟩
      · rw [hparent'] at hnone
        cases hnone
      · obtain rfl := Option.some.inj (hparent'.symm.trans hangs.parent_eq)
        obtain ⟨leaf, hleaf, hle⟩ := ih _ (hn ▸ Nat.sub_lt_sub_left hid hangs.lt) hin rfl
        rw [hangs.nestingAt_eq] at hle
        exact ⟨leaf, hleaf, Nat.le_trans (Nat.le_add_right ..) hle⟩

theorem foldr_max_le_iff {depths : List Nat} :
    depths.foldr max 0 ≤ limit ↔ ∀ depth ∈ depths, depth ≤ limit := by
  induction depths with
  | nil => simp
  | cons depth depths ih => rw [List.foldr_cons, Nat.max_le, ih, List.forall_mem_cons]

/-- All nodes lie within a limit if the leaves do, for below every node there is a leaf. -/
theorem deepest_le_iff (hcomplete : tree.Complete) (hrooted : tree.Rooted) :
    tree.deepest ≤ limit ↔ ∀ id, id < tree.size → tree.nestingAt id ≤ limit := by
  obtain ⟨root, hcarries, -⟩ := hcomplete
  rw [deepest, foldr_max_le_iff, List.forall_mem_map]
  constructor
  · intro hleaves id hid
    obtain ⟨leaf, hleaf, hle⟩ := exists_leaf hcarries.shows hrooted hid
    exact Nat.le_trans hle (hleaves leaf hleaf)
  · exact fun hnodes leaf hleaf => hnodes leaf (mem_leaves_iff.mp hleaf).1

end Tree

/-! ### The nesting limit -/

/-- **The limit is exact.** With a larger limit a text is read as with a smaller one, unless that is
exceeded. A text that is read is read with just the limits that its comments and brackets keep
within. The counter of the nesting never leaves its range, and it is back at zero where a text is
read. At every step it is the number that is compared with the limit, if one is. -/
theorem parseText_limit_exact (text : String) :
    (∀ n m, n ≤ m →
      (∀ error, parseText text n = .error error → error.cause ≠ .nestingTooDeep n) →
      parseText text m = parseText text n) ∧
    (∀ m tree, parseText text m = .ok tree → ∀ n,
      (tree.deepest ≤ n → parseText text n = .ok tree) ∧
      (n < tree.deepest → ∃ error, parseText text n = .error error ∧
        error.cause = .nestingTooDeep n)) ∧
    ∀ m, (∃ count, countText text m = some count ∧ ((parseText text m).isOk → count = 0)) ∧
      ∀ sight tree frames rest count, Counted m text.toList sight tree frames rest count →
        Gauges m sight tree frames count := by
  have hrelaxes : ∀ n m, n ≤ m → parseText text m = parseText text n ∨
      ∃ error, parseText text n = .error error ∧ error.cause = .nestingTooDeep n := by
    intro n m hnm
    rw [parseText_eq, parseText_eq]
    exact relaxes_runText hnm ..
  refine ⟨fun n m hnm hshallow => ?_, fun m tree htree n => ?_,
    fun m => ⟨exists_countText text m, fun _ _ _ _ _ hcounted => hcounted.gauges⟩⟩
  · rcases hrelaxes n m hnm with hsame | ⟨error, herror, hcause⟩
    · exact hsame
    · exact absurd hcause (hshallow error herror)
  · have hbounded := bounded_of_parseText htree
    have hdeepest : ∀ limit,
        tree.deepest ≤ limit ↔ ∀ id, id < tree.size → tree.nestingAt id ≤ limit :=
      fun _ => Tree.deepest_le_iff (complete_of_parseText htree) hbounded.rooted
    constructor
    · intro hle
      rcases Nat.le_total n m with hnm | hmn
      · rw [parseText_eq] at htree ⊢
        rcases Reached.initial.overruns_runText hnm htree with hsame | ⟨id, hid, hdeep⟩
        · exact hsame
        · exact absurd ((hdeepest n).mp hle id hid) (Nat.not_le_of_lt hdeep)
      · rcases hrelaxes m n hmn with hsame | ⟨error, herror, -⟩
        · rw [hsame, htree]
        · rw [htree] at herror
          cases herror
    · intro hlt
      have hnm : n ≤ m :=
        Nat.le_of_lt (Nat.lt_of_lt_of_le hlt ((hdeepest m).mpr hbounded.nestingAt_le))
      rcases hrelaxes n m hnm with hsame | hrefused
      · have hbounded' := bounded_of_parseText (hsame.symm.trans htree)
        exact absurd ((hdeepest n).mpr hbounded'.nestingAt_le) (Nat.not_le_of_lt hlt)
      · exact hrefused

/-- Behind a comment there is a bracket within a bracket: two levels are needed and enough. A
bracket that is not closed is the same failure with every limit that lets it in. -/
theorem parseText_limit_exact_brackets :
    (∃ tree, parseText "(**)x=\x7b[a]\x7d;" 5 = .ok tree ∧ tree.deepest = 2 ∧
      parseText "(**)x=\x7b[a]\x7d;" 2 = .ok tree ∧ countText "(**)x=\x7b[a]\x7d;" 2 = some 0 ∧
      ∃ error, parseText "(**)x=\x7b[a]\x7d;" 1 = .error error ∧ error.cause = .nestingTooDeep 1) ∧
    parseText "x=\x7b" 7 = parseText "x=\x7b" 1 ∧
    Gauges 2 ⟨some '(', ⟨1, 1⟩⟩ (Tree.empty.withFirst Tree.root ⟨1, 1⟩) [.grammar true] 0 := by
  refine ⟨?_, ?_, ?_⟩
  · obtain ⟨-, hexact, hcount⟩ := parseText_limit_exact "(**)x=\x7b[a]\x7d;"
    have hdeepest : (parseText "(**)x=\x7b[a]\x7d;" 5).toOption.map Tree.deepest = some 2 := by
      decide +kernel
    cases htree : parseText "(**)x=\x7b[a]\x7d;" 5 with
    | error error =>
      rw [htree] at hdeepest
      cases hdeepest
    | ok tree =>
      rw [htree] at hdeepest
      have htwo : tree.deepest = 2 := Option.some.inj hdeepest
      have hread := (hexact 5 tree htree 2).1 (Nat.le_of_eq htwo)
      obtain ⟨⟨count, hcount, hzero⟩, -⟩ := hcount 2
      rw [hread] at hzero
      refine ⟨tree, rfl, htwo, hread, by rw [hcount, hzero rfl], ?_⟩
      exact (hexact 5 tree htree 1).2 (by rw [htwo]; decide)
  · obtain ⟨error, herror, hcause⟩ := exists_error_of_failure?
      (show failure? (parseText "x=\x7b" 1) = some (.endOfInput (.definition ⟨1, 3⟩)) by
        with_unfolding_all decide)
    refine (parseText_limit_exact "x=\x7b").1 1 7 (by decide) fun error' herror' => ?_
    obtain rfl : error = error' := Except.error.inj (herror.symm.trans herror')
    rw [hcause]
    exact nofun
  · have hfirst : Counted 2 "(**)x=\x7b[a]\x7d;".toList ⟨some '(', ⟨1, 1⟩⟩ .empty [.grammar false]
        "**)x=\x7b[a]\x7d;".toList 0 := .first
    have hbegun : Counted 2 "(**)x=\x7b[a]\x7d;".toList ⟨some '(', ⟨1, 1⟩⟩
        (Tree.empty.withFirst Tree.root ⟨1, 1⟩) [.grammar true] "**)x=\x7b[a]\x7d;".toList 0 :=
      .again hfirst rfl rfl
    exact ((parseText_limit_exact "(**)x=\x7b[a]\x7d;").2.2 2).2 _ _ _ _ _ hbegun

end LosslessEbnf
