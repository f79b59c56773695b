import LosslessEbnf.Proofs.Refusals
import LosslessEbnf.Proofs.Trees
import LosslessEbnf.Tree.Exchange

/-!
# Trees that are written and read back

A tree in its exchange form is read back as the same tree, wherever it came from.

## Main Definitions

* `InWords` — numbers that fit into words
* `Node.numbers`, `Tree.numbers` — all numbers of a node and of a tree
* `handedOut` — the tree of a result
* `Tree.Obtained` — a tree that comes from a reading or from a loading

## Main Statements

* `Kind.ofJson?_toJson`, `Node.ofJson?_toJson`, `Tree.ofJson?_toJson` and so on — what is written is
  read back
* `Kind.inWords_of_ofJson?`, `Node.inWords_of_ofJson?`, `Tree.inWords_of_ofJson?` and so on — what
  is read has numbers that can be written
* `load_toJson_of_obtained` — a tree is loaded back from its exchange form

## Design Notes

Writing is total, and reading refuses numbers that do not fit into a word; nothing else of a value
is ever refused. So what is read can always be written and read again. A table that was taken for a
tree is taken for the same tree when it comes back, because the check sees nothing but the table.
-/

namespace LosslessEbnf

/-! ### Numbers -/

/-- All of the numbers fit into words of 64 bits. -/
def InWords (numbers : List Nat) : Prop := ∀ n ∈ numbers, n < Text.wordSize

instance (numbers : List Nat) : Decidable (InWords numbers) :=
  inferInstanceAs (Decidable (∀ n ∈ numbers, n < Text.wordSize))

theorem inWords_nil : InWords [] := nofun

theorem inWords_cons {n : Nat} {numbers : List Nat} :
    InWords (n :: numbers) ↔ n < Text.wordSize ∧ InWords numbers :=
  List.forall_mem_cons

theorem inWords_append {left right : List Nat} :
    InWords (left ++ right) ↔ InWords left ∧ InWords right :=
  List.forall_mem_append

namespace Json

/-- A number that fits into a word is read back from what it is written as. A larger one is not. -/
theorem word?_natural {n : Nat} (h : n < Text.wordSize) : word? (natural n) = some n := by
  simp [word?, natural?, h]

/-- What is read as a word is less than the size of words. -/
theorem lt_of_word? {value : Json} {n : Nat} (h : word? value = some n) : n < Text.wordSize := by
  rw [word?, Option.filter_eq_some_iff, decide_eq_true_eq] at h
  exact h.2

/-- A link that may be missing is read back, and it is missing where nothing was written for it. -/
theorem link?_ofLink {link : Option NodeId} (h : InWords link.toList) :
    link? (some (ofLink link)) = some link := by
  cases link with
  | none => rfl
  | some id =>
    show (word? (natural id)).map some = _
    rw [word?_natural (h id (List.mem_singleton.mpr rfl))]
    rfl

theorem inWords_of_link? {value : Option Json} {link : Option NodeId}
    (h : link? value = some link) : InWords link.toList := by
  unfold link? at h
  split at h
  · cases h
    exact inWords_nil
  · cases h
    exact inWords_nil
  · obtain ⟨n, hn, rfl⟩ := Option.map_eq_some_iff.mp h
    exact inWords_cons.mpr ⟨lt_of_word? hn, inWords_nil⟩

/-- Items that are written one by one are read back one by one. -/
theorem mapM_map_eq_some {α : Type} {encode : α → Json} {decode : Json → Option α} {items : List α}
    (h : ∀ item ∈ items, decode (encode item) = some item) :
    (items.map encode).mapM decode = some items := by
  induction items with
  | nil => rfl
  | cons item items ih =>
    obtain ⟨hitem, hitems⟩ := List.forall_mem_cons.mp h
    rw [List.map_cons, List.mapM_cons, hitem, ih hitems]
    rfl

/-- What is true of all values that are read is true of all items. -/
theorem forall_of_mapM_eq_some {α : Type} {P : α → Prop} {decode : Json → Option α}
    (hread : ∀ value item, decode value = some item → P item) {values : List Json}
    {items : List α} (h : values.mapM decode = some items) : ∀ item ∈ items, P item := by
  induction values generalizing items with
  | nil =>
    cases h
    exact nofun
  | cons value values ih =>
    rw [List.mapM_cons] at h
    obtain ⟨item, hitem, h⟩ := Option.bind_eq_some_iff.mp h
    obtain ⟨rest, hrest, h⟩ := Option.bind_eq_some_iff.mp h
    cases h
    exact List.forall_mem_cons.mpr ⟨hread value item hitem, ih hrest⟩

/-- A list of links is read back from the array that it is written as, if each of them fits into a
word. -/
theorem links?_array {ids : List NodeId} (h : InWords ids) :
    links? (array (ids.map natural)) = some ids :=
  mapM_map_eq_some fun _ hid => word?_natural (h _ hid)

theorem inWords_of_links? {value : Json} {ids : List NodeId} (h : links? value = some ids) :
    InWords ids := by
  obtain ⟨items, -, hitems⟩ := Option.bind_eq_some_iff.mp h
  exact forall_of_mapM_eq_some (fun _ _ => lt_of_word?) hitems

end Json

/-! ### Positions and spans -/

/-- The numbers of a position. -/
def Position.numbers (p : Position) : List Nat := [p.line, p.column]

/-- The numbers of a span. -/
def Span.numbers (s : Span) : List Nat := s.first.numbers ++ s.last.numbers

/-- A position is read back from what it is written as, if its line and its column fit into
words. -/
theorem Position.ofJson?_toJson {p : Position} (h : InWords p.numbers) :
    ofJson? p.toJson = some p := by
  obtain ⟨hline, hcolumn⟩ := inWords_cons.mp h
  obtain ⟨hcolumn, -⟩ := inWords_cons.mp hcolumn
  show (do
    return Position.mk (← Json.word? (.natural p.line)) (← Json.word? (.natural p.column))) = _
  rw [Json.word?_natural hline, Json.word?_natural hcolumn]
  rfl

/-- The line and the column of a position that was read fit into words. -/
theorem Position.inWords_of_ofJson? {value : Json} {p : Position} (h : ofJson? value = some p) :
    InWords p.numbers := by
  unfold ofJson? at h
  split at h
  · obtain ⟨line, hline, h⟩ := Option.bind_eq_some_iff.mp h
    obtain ⟨column, hcolumn, h⟩ := Option.bind_eq_some_iff.mp h
    cases h
    exact inWords_cons.mpr ⟨Json.lt_of_word? hline,
      inWords_cons.mpr ⟨Json.lt_of_word? hcolumn, inWords_nil⟩⟩
  · cases h

/-- A span is read back from what it is written as, if the numbers of both positions fit into
words. -/
theorem Span.ofJson?_toJson {s : Span} (h : InWords s.numbers) : ofJson? s.toJson = some s := by
  obtain ⟨hfirst, hlast⟩ := inWords_append.mp h
  show (do
    return Span.mk (← Position.ofJson? s.first.toJson) (← Position.ofJson? s.last.toJson)) = _
  rw [Position.ofJson?_toJson hfirst, Position.ofJson?_toJson hlast]
  rfl

theorem Span.inWords_of_ofJson? {value : Json} {s : Span} (h : ofJson? value = some s) :
    InWords s.numbers := by
  unfold ofJson? at h
  split at h
  · obtain ⟨first, hfirst, h⟩ := Option.bind_eq_some_iff.mp h
    obtain ⟨last, hlast, h⟩ := Option.bind_eq_some_iff.mp h
    cases h
    exact inWords_append.mpr
      ⟨Position.inWords_of_ofJson? hfirst, Position.inWords_of_ofJson? hlast⟩
  · cases h

/-! ### Kinds -/

/-- A primary without components is read back from its name: no two of them have the same one. -/
theorem Primary.named?_name {form : Primary} (h : form ∈ simple) :
    named? form.name = some form := by
  revert form
  decide

theorem Primary.components_of_named? {name : String} {form : Primary}
    (h : named? name = some form) : (Kind.primary form).components = [] := by
  have hmem := List.mem_of_find?_eq_some h
  clear h
  revert form
  decide

/-- A kind without components is read back from its name: no two of them have the same one. -/
theorem Kind.named?_name {kind : Kind} (h : kind ∈ simple) : named? kind.name = some kind := by
  revert kind
  decide

theorem Kind.components_of_named? {name : String} {kind : Kind} (h : named? name = some kind) :
    kind.components = [] := by
  have hmem := List.mem_of_find?_eq_some h
  clear h
  revert kind
  decide

/-- A primary is read back from what it is written as, be that a name or an object with the node of
its opener. -/
theorem Primary.ofJson?_toJson {form : Primary} (h : InWords (Kind.primary form).components) :
    ofJson? form.toJson = some form := by
  cases form with
  | bracketed b opening =>
    have hname : Bracket.named? (Primary.bracketed b opening).name = some b := by cases b <;> rfl
    show (do
      let bracket ← Bracket.named? (Primary.bracketed b opening).name
      return Primary.bracketed bracket (← Json.link? (some (.ofLink opening)))) = _
    rw [hname, Json.link?_ofLink h]
    rfl
  | identifier | terminal | special | emptyString => exact named?_name (by decide)

theorem Primary.inWords_of_ofJson? {value : Json} {form : Primary} (h : ofJson? value = some form) :
    InWords (Kind.primary form).components := by
  unfold ofJson? at h
  split at h
  · rw [components_of_named? h]
    exact inWords_nil
  · rw [components_of_named? h]
    exact inWords_nil
  · obtain ⟨bracket, -, h⟩ := Option.bind_eq_some_iff.mp h
    obtain ⟨opening, hopening, h⟩ := Option.bind_eq_some_iff.mp h
    cases h
    exact Json.inWords_of_link? hopening
  · cases h

/-- A kind is read back from what it is written as, be that a name or an object with the nodes of
its components. -/
theorem Kind.ofJson?_toJson {kind : Kind} (h : InWords kind.components) :
    ofJson? kind.toJson = some kind := by
  cases kind with
  | product lhs rhs =>
    obtain ⟨hlhs, hrhs⟩ := inWords_append.mp h
    show (do
      return Kind.product (← Json.link? (some (.ofLink lhs)))
        (← Json.link? (some (.ofLink rhs)))) = _
    rw [Json.link?_ofLink hlhs, Json.link?_ofLink hrhs]
    rfl
  | term parts =>
    obtain ⟨hfront, hexception⟩ := inWords_append.mp h
    obtain ⟨hrepetition, hprimary⟩ := inWords_append.mp hfront
    show (do
      return Kind.term ⟨← Json.link? (some (.ofLink parts.repetition)),
        ← Json.link? (some (.ofLink parts.primary)),
        ← Json.link? (some (.ofLink parts.exception))⟩) = _
    rw [Json.link?_ofLink hrepetition, Json.link?_ofLink hprimary, Json.link?_ofLink hexception]
    rfl
  | exception target =>
    show (do return Kind.exception (← Json.link? (some (.ofLink target)))) = _
    rw [Json.link?_ofLink h]
    rfl
  | primary form =>
    show (Primary.ofJson? form.toJson).map Kind.primary = _
    rw [Primary.ofJson?_toJson h]
    rfl
  | root | comment | definitionList | definition | repetition | text | space | literal | number =>
    exact named?_name (by decide)

/-- The components of a kind that was read fit into words. -/
theorem Kind.inWords_of_ofJson? {value : Json} {kind : Kind} (h : ofJson? value = some kind) :
    InWords kind.components := by
  unfold ofJson? at h
  split at h
  · rw [components_of_named? h]
    exact inWords_nil
  · obtain ⟨form, hform, rfl⟩ := Option.map_eq_some_iff.mp h
    exact Primary.inWords_of_ofJson? hform
  · rw [components_of_named? h]
    exact inWords_nil
  · obtain ⟨lhs, hlhs, h⟩ := Option.bind_eq_some_iff.mp h
    obtain ⟨rhs, hrhs, h⟩ := Option.bind_eq_some_iff.mp h
    cases h
    exact inWords_append.mpr ⟨Json.inWords_of_link? hlhs, Json.inWords_of_link? hrhs⟩
  · obtain ⟨repetition, hrepetition, h⟩ := Option.bind_eq_some_iff.mp h
    obtain ⟨primary, hprimary, h⟩ := Option.bind_eq_some_iff.mp h
    obtain ⟨exception, hexception, h⟩ := Option.bind_eq_some_iff.mp h
    cases h
    exact inWords_append.mpr ⟨inWords_append.mpr ⟨Json.inWords_of_link? hrepetition,
      Json.inWords_of_link? hprimary⟩, Json.inWords_of_link? hexception⟩
  · obtain ⟨target, htarget, h⟩ := Option.bind_eq_some_iff.mp h
    cases h
    exact Json.inWords_of_link? htarget
  · cases h

/-! ### Nodes and trees -/

/-- The numbers of a node: its links, its depth and its span. -/
def Node.numbers (node : Node) : List Nat :=
  node.kind.components ++ node.parent.toList ++ node.children ++ node.depth :: node.span.numbers

/-- All numbers of a tree: its counters and those of its nodes. -/
def Tree.numbers (tree : Tree) : List Nat :=
  [tree.count, tree.height, tree.maxDegree] ++ tree.nodes.toList.flatMap Node.numbers

/-- A node is read back from what it is written as, if all of its numbers fit into words. -/
theorem Node.ofJson?_toJson {node : Node} (h : InWords node.numbers) :
    ofJson? node.toJson = some node := by
  obtain ⟨hlinks, hrest⟩ := inWords_append.mp h
  obtain ⟨hdepth, hspan⟩ := inWords_cons.mp hrest
  obtain ⟨hlinks, hchildren⟩ := inWords_append.mp hlinks
  obtain ⟨hkind, hparent⟩ := inWords_append.mp hlinks
  show (do
    return Node.mk (← Kind.ofJson? node.kind.toJson) (← Json.link? (some (.ofLink node.parent)))
      (← Json.links? (.array (node.children.map .natural))) (← Json.word? (.natural node.depth))
      (← Span.ofJson? node.span.toJson) (← Json.string? (.string node.data))) = _
  rw [Kind.ofJson?_toJson hkind, Json.link?_ofLink hparent, Json.links?_array hchildren,
    Json.word?_natural hdepth, Span.ofJson?_toJson hspan]
  rfl

/-- All numbers of a node that was read fit into words. -/
theorem Node.inWords_of_ofJson? {value : Json} {node : Node} (h : ofJson? value = some node) :
    InWords node.numbers := by
  unfold ofJson? at h
  split at h
  · obtain ⟨kind, hkind, h⟩ := Option.bind_eq_some_iff.mp h
    obtain ⟨parent, hparent, h⟩ := Option.bind_eq_some_iff.mp h
    obtain ⟨children, hchildren, h⟩ := Option.bind_eq_some_iff.mp h
    obtain ⟨depth, hdepth, h⟩ := Option.bind_eq_some_iff.mp h
    obtain ⟨span, hspan, h⟩ := Option.bind_eq_some_iff.mp h
    obtain ⟨data, -, h⟩ := Option.bind_eq_some_iff.mp h
    cases h
    refine inWords_append.mpr ⟨inWords_append.mpr ⟨inWords_append.mpr ⟨?_, ?_⟩, ?_⟩, ?_⟩
    · exact Kind.inWords_of_ofJson? hkind
    · exact Json.inWords_of_link? hparent
    · exact Json.inWords_of_links? hchildren
    · exact inWords_cons.mpr ⟨Json.lt_of_word? hdepth, Span.inWords_of_ofJson? hspan⟩
  · cases h

/-- The table of a tree is read back from the exchange form of the tree, node by node and with its
counters. -/
theorem Tree.ofJson?_toJson {tree : Tree} (h : InWords tree.numbers) :
    NodeTable.ofJson? tree.toJson = some tree.toTable := by
  obtain ⟨hcounters, hnodes⟩ := inWords_append.mp h
  obtain ⟨hcount, hcounters⟩ := inWords_cons.mp hcounters
  obtain ⟨hheight, hcounters⟩ := inWords_cons.mp hcounters
  obtain ⟨hdegree, -⟩ := inWords_cons.mp hcounters
  have hread : (tree.nodes.toList.map Node.toJson).mapM Node.ofJson? = some tree.nodes.toList :=
    Json.mapM_map_eq_some fun node hnode => Node.ofJson?_toJson fun n hn =>
      hnodes n (List.mem_flatMap.mpr ⟨node, hnode, hn⟩)
  show (do
    return NodeTable.mk (← (tree.nodes.toList.map Node.toJson).mapM Node.ofJson?).toArray
      (← Json.word? (.natural tree.count)) (← Json.word? (.natural tree.height))
      (← Json.word? (.natural tree.maxDegree))) = _
  rw [hread, Json.word?_natural hcount, Json.word?_natural hheight, Json.word?_natural hdegree]
  rfl

/-- A table that was read has numbers that can be written, since each of them was read as a word. -/
theorem Tree.inWords_of_ofJson? {value : Json} {tree : Tree}
    (h : NodeTable.ofJson? value = some tree.toTable) : InWords tree.numbers := by
  unfold NodeTable.ofJson? at h
  split at h
  · obtain ⟨items, -, h⟩ := Option.bind_eq_some_iff.mp h
    obtain ⟨nodes, hnodes, h⟩ := Option.bind_eq_some_iff.mp h
    obtain ⟨count, hcount, h⟩ := Option.bind_eq_some_iff.mp h
    obtain ⟨height, hheight, h⟩ := Option.bind_eq_some_iff.mp h
    obtain ⟨maxDegree, hdegree, h⟩ := Option.bind_eq_some_iff.mp h
    obtain ⟨tnodes, tcount, theight, tdegree⟩ := tree
    cases h
    refine inWords_append.mpr ⟨?_, ?_⟩
    · exact inWords_cons.mpr ⟨Json.lt_of_word? hcount, inWords_cons.mpr
        ⟨Json.lt_of_word? hheight, inWords_cons.mpr ⟨Json.lt_of_word? hdegree, inWords_nil⟩⟩⟩
    · intro n hn
      obtain ⟨node, hnode, hn⟩ := List.mem_flatMap.mp hn
      exact Json.forall_of_mapM_eq_some (fun _ _ => Node.inWords_of_ofJson?) hnodes node hnode n hn
  · cases h

/-! ### Trees that are loaded -/

/-- A tree that comes from a reading or from a loading. -/
inductive Tree.Obtained : Tree → Prop
  /-- The tree of a source, complete if it was accepted and cut off if it was not. -/
  | read {σ : Type} [Source σ] (source : σ) (maxNesting : Nat) :
      Obtained (handedOut (parse source maxNesting))
  /-- The same for a run that ends, though its source may be endless. -/
  | run {σ : Type} {read : Nat → σ → Except Fault String × σ} {source rest : σ}
      {maxNesting fuel : Nat} {result : Except ParseError Tree}
      (h : (Phase.start source).run read maxNesting fuel = .finished result rest) :
      Obtained (handedOut result)
  /-- The same for a file, which may be one that cannot even be opened. -/
  | readFile (here : Entry) (path : String) : Obtained (handedOut (parseFile here path))
  /-- The tree that a JSON value describes. -/
  | loaded {value : Json} {tree : Tree} (h : Tree.load value = .ok tree) : Obtained tree

namespace Tree

variable {tree : Tree}

theorem mapError_eq_ok_iff {α β γ : Type} {f : α → β} {result : Except α γ} {c : γ} :
    result.mapError f = .ok c ↔ result = .ok c := by
  cases result with
  | ok found =>
    have hmap : (Except.ok found).mapError f = .ok found := rfl
    simp [hmap]
  | error defect =>
    have hmap : (Except.error defect : Except α γ).mapError f = .error (f defect) := rfl
    simp [hmap]

/-- A value is loaded if a table is read from it that is taken for a tree. -/
theorem load_eq_ok_iff {value : Json} :
    load value = .ok tree ↔ ∃ table, NodeTable.ofJson? value = some table ∧
      table.toTree = .ok tree := by
  unfold load
  cases NodeTable.ofJson? value with
  | none => simp
  | some table => simp [mapError_eq_ok_iff]

/-- A tree is made up of the table that was taken for it. -/
theorem toTable_of_toTree {table : NodeTable} {below : Nat → Option Nat}
    (h : table.toTree below = .ok tree) : tree.toTable = table := by
  obtain ⟨hnodes, hcount, hheight, hdegree⟩ := NodeTable.toTree_eq_ok_iff.mp h
  obtain ⟨-, -, -, rfl⟩ := ofNodes_eq_ok_iff.mp hnodes
  rw [toTable, ← hcount, ← hheight, ← hdegree]
  rfl

/-- A tree whose table is taken for it is loaded back, if its numbers fit into words. -/
theorem load_toJson (hwords : InWords tree.numbers) (h : tree.toTable.toTree = .ok tree) :
    load tree.toJson = .ok tree :=
  load_eq_ok_iff.mpr ⟨tree.toTable, ofJson?_toJson hwords, h⟩

/-- What was loaded can be written and loaded again, and comes out as it was. -/
theorem load_toJson_of_load {value : Json} (h : load value = .ok tree) :
    load tree.toJson = .ok tree := by
  obtain ⟨table, hread, htree⟩ := load_eq_ok_iff.mp h
  obtain rfl := toTable_of_toTree htree
  exact load_toJson (inWords_of_ofJson? hread) htree

/-- A sound table is taken for its tree if its height fits into a word. -/
theorem Arena.toTree_eq (h : tree.Arena) (hheight : tree.height < Text.wordSize) :
    tree.toTable.toTree = .ok tree := by
  have hbelow : ∀ depth, depth < tree.height → checkedBelow depth = some (depth + 1) :=
    fun depth hdepth => if_pos (Nat.lt_of_le_of_lt hdepth hheight)
  exact NodeTable.toTree_eq_ok_iff.mpr ⟨h.loads checkedBelow hbelow, rfl, rfl, rfl⟩

end Tree

/-- A file that cannot be opened is read like a source that fails at once. -/
theorem exists_parse_eq_parseFile (here : Entry) (path : String) :
    ∃ (σ : Type) (_ : Source σ) (source : σ), parse source = parseFile here path := by
  unfold parseFile
  cases here.openFile path with
  | ok source => exact ⟨ByteSource, inferInstance, source, rfl⟩
  | error fault =>
    refine ⟨Script, inferInstance, ⟨[.error fault]⟩, ?_⟩
    rw [parse, parseFrom, drive_of_error rfl]

/-- The table of a tree that comes from a reading is sound. -/
theorem Tree.Obtained.arena_or_loaded {tree : Tree} (h : tree.Obtained) :
    tree.Arena ∨ ∃ value, Tree.load value = .ok tree := by
  cases h with
  | read source maxNesting => exact Or.inl (handsOut_parse source maxNesting).arena
  | run h => exact Or.inl (handsOut_of_run h).arena
  | readFile here path =>
    obtain ⟨_, _, source, hparse⟩ := exists_parse_eq_parseFile here path
    rw [← hparse]
    exact Or.inl (handsOut_parse source defaultMaxNesting).arena
  | loaded h => exact Or.inr ⟨_, h⟩

/-- **Exchange.** A tree that was handed out, be it complete or cut off, is loaded back from its
exchange form if its numbers fit into words. The numbers of what was loaded always do, so a value
that is loaded, in whatever form it is written, is loaded again after it was written anew. -/
theorem load_toJson_of_obtained :
    (∀ tree : Tree, tree.Obtained → InWords tree.numbers → Tree.load tree.toJson = .ok tree) ∧
      ∀ (value : Json) (tree : Tree), Tree.load value = .ok tree →
        Tree.load tree.toJson = .ok tree := by
  refine ⟨fun tree hobtained hwords => ?_, fun value tree => Tree.load_toJson_of_load⟩
  have hheight : tree.height < Text.wordSize := hwords _ (by simp [Tree.numbers])
  rcases hobtained.arena_or_loaded with harena | ⟨value, hload⟩
  · exact Tree.load_toJson hwords (harena.toTree_eq hheight)
  · exact Tree.load_toJson_of_load hload

/-- A tree that was cut off inside a bracket, and a table that is not written as an object. -/
theorem load_toJson_of_obtained_open_bracket :
    (∃ tree, (parse (TextSource.ofString "x=(a") 4).isOk = false ∧
        tree = handedOut (parse (TextSource.ofString "x=(a") 4) ∧ InWords tree.numbers ∧
        Tree.load tree.toJson = .ok tree) ∧
      ∃ tree, Tree.load (.array [.array [Node.emptyRoot.toJson], .natural 1, .natural 0,
          .natural 0]) = .ok tree ∧ Tree.load tree.toJson = .ok tree := by
  have hfails : (parse (TextSource.ofString "x=(a") 4).isOk = false := by
    with_unfolding_all decide
  have hwords : InWords (handedOut (parse (TextSource.ofString "x=(a") 4)).numbers := by
    with_unfolding_all decide
  have hload : Tree.load (.array [.array [Node.emptyRoot.toJson], .natural 1, .natural 0,
      .natural 0]) = .ok Tree.empty := by
    rfl
  exact ⟨⟨_, hfails, rfl, hwords, load_toJson_of_obtained.1 _ (.read _ _) hwords⟩, Tree.empty,
    hload, load_toJson_of_obtained.2 _ _ hload⟩

end LosslessEbnf
