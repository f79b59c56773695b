import LosslessEbnf.Proofs.Escaping
import LosslessEbnf.Proofs.Exchange
import LosslessEbnf.Proofs.Traversal
import LosslessEbnf.Tree.Listing

/-!
# Listings tell trees apart

A tree can be told from its listing, up to the numbers of its nodes. The texts of the leaves may
look like lines of a listing themselves, and the display may know any characters.

## Main Definitions

* `Shown` — what a listing shows of a node
* `Tree.shown` — what a listing shows of the nodes, line by line
* `Outline` — a forest with what is shown of its nodes
* `Tree.Draws` — the subtrees of some nodes have an outline

## Main Statements

* `Node.shown_eq_of_line` — a line tells what it shows
* `Outline.eq_of_entries_append` — the depths in a listing tell its outline
* `listing_unambiguous` — equal listings show equal trees

## Design Notes

A line is read from both ends. The tabs at its front give the depth. A leaf is recognized by the
parenthesis behind the tabs, since the names of kinds are words, and its text ends at the last
parenthesis of the line. The colon in front of the span is found from the end of the name.

The outline is read off the depths: what follows a line at greater depths is below it, and the next
line at the same depth is beside it.
-/

namespace LosslessEbnf

/-! ### Lines -/

/-- What a listing shows of a node. -/
structure Shown where
  /-- How far the node is set in. -/
  depth : Nat
  /-- The name of its kind. -/
  name : String
  /-- Where its text stands. -/
  span : Span
  /-- The text of a leaf. -/
  held : Option String
  deriving DecidableEq, Repr

/-- The part of a node that its line is made of. -/
def Node.shown (node : Node) : Shown where
  depth := node.depth
  name := node.kind.name
  span := node.span
  held := if node.kind.isLeaf then some node.data else none

namespace Shown

/-- The text of a leaf in parentheses; nothing for other nodes. -/
def heldPart (shown : Shown) (glyphs : Text.Glyphs) : List Char :=
  match shown.held with
  | some data => '(' :: (Text.escape data.toList glyphs ++ [')'])
  | none => []

/-- What stands behind the text of a leaf: the name of the kind and the span. -/
def label (shown : Shown) : List Char :=
  shown.name.toList ++ ':' :: shown.span.format.toList

/-- The line of a node up to its end. -/
def line (shown : Shown) (glyphs : Text.Glyphs) : List Char :=
  List.replicate shown.depth '\t' ++ (shown.heldPart glyphs ++ shown.label)

end Shown

theorem Node.toList_line (node : Node) (glyphs : Text.Glyphs) :
    (node.line 0 glyphs).toList = node.shown.line glyphs ++ ['\n'] := by
  by_cases hleaf : node.kind.isLeaf = true
  · simp [Node.line, Shown.line, Shown.heldPart, Shown.label, Node.shown, hleaf]
  · simp [Node.line, Shown.line, Shown.heldPart, Shown.label, Node.shown, hleaf]

/-! ### What a line tells -/

/-- The name of a kind is a word, so it ends where the next part of the line begins. -/
theorem Kind.name_isAlpha (kind : Kind) : ∀ c ∈ kind.name.toList, c.isAlpha = true := by
  cases kind with
  | primary form =>
    cases form with
    | bracketed bracket => cases bracket <;> simp [Kind.name, Primary.name]
    | identifier | terminal | special | emptyString => simp [Kind.name, Primary.name]
  | _ => simp [Kind.name]

theorem Kind.name_ne_nil (kind : Kind) : kind.name.toList ≠ [] := by
  cases kind with
  | primary form =>
    cases form with
    | bracketed bracket => cases bracket <;> simp [Kind.name, Primary.name]
    | identifier | terminal | special | emptyString => simp [Kind.name, Primary.name]
  | _ => simp [Kind.name]

theorem Kind.not_mem_name {c : Char} (h : c.isAlpha = false) (kind : Kind) :
    c ∉ kind.name.toList := by
  intro hmem
  rw [kind.name_isAlpha c hmem] at h
  cases h

theorem not_mem_repr {c : Char} (h : c.isDigit = false) (n : Nat) : c ∉ n.repr.toList := by
  intro hmem
  rw [Text.isDigit_of_mem_repr hmem] at h
  cases h

/-- A number in front of a mark is told from the rest. -/
theorem eq_of_repr_append {mark : Char} (hmark : mark.isDigit = false) {m n : Nat}
    {rest rest' : List Char}
    (h : m.repr.toList ++ mark :: rest = n.repr.toList ++ mark :: rest') :
    m = n ∧ rest = rest' := by
  obtain ⟨hdigits, hrest⟩ :=
    Text.eq_of_append_cons (not_mem_repr hmark m) (not_mem_repr hmark n) h
  exact ⟨Text.repr_injective (String.toList_inj.mp hdigits), hrest⟩

theorem Span.toList_format (span : Span) :
    span.format.toList = span.first.line.repr.toList ++ ',' :: (span.first.column.repr.toList ++
      '-' :: (span.last.line.repr.toList ++ ',' :: span.last.column.repr.toList)) := by
  simp [Span.format]

/-- Different spans are shown differently: the four numbers are told apart by the signs between
them. -/
theorem Span.format_injective {span span' : Span} (h : span.format = span'.format) :
    span = span' := by
  have hlist := congrArg String.toList h
  rw [toList_format, toList_format] at hlist
  obtain ⟨hline, hlist⟩ := eq_of_repr_append (by decide) hlist
  obtain ⟨hcolumn, hlist⟩ := eq_of_repr_append (by decide) hlist
  obtain ⟨hline', hlist⟩ := eq_of_repr_append (by decide) hlist
  have hcolumn' := Text.repr_injective (String.toList_inj.mp hlist)
  obtain ⟨⟨_, _⟩, ⟨_, _⟩⟩ := span
  obtain ⟨⟨_, _⟩, ⟨_, _⟩⟩ := span'
  cases hline
  cases hcolumn
  cases hline'
  cases hcolumn'
  rfl

/-- A mark that is in no word, no number and no span is in no label. -/
theorem Node.not_mem_label {c : Char} (hword : c.isAlpha = false) (hdigit : c.isDigit = false)
    (hmark : c ∉ [':', ',', '-']) (node : Node) : c ∉ node.shown.label := by
  simp only [List.mem_cons, List.not_mem_nil, or_false, not_or] at hmark
  rw [Shown.label, Span.toList_format]
  simp only [List.mem_append, List.mem_cons, not_or]
  exact ⟨Kind.not_mem_name hword _, hmark.1, not_mem_repr hdigit _, hmark.2.1,
    not_mem_repr hdigit _, hmark.2.2, not_mem_repr hdigit _, hmark.2.1, not_mem_repr hdigit _⟩

/-- The name and the span are told from a label. -/
theorem Node.eq_of_label {node node' : Node} (h : node.shown.label = node'.shown.label) :
    node.shown.name = node'.shown.name ∧ node.shown.span = node'.shown.span := by
  have hcolon : ∀ node : Node, ':' ∉ node.shown.name.toList :=
    fun node => Kind.not_mem_name (by decide) node.kind
  obtain ⟨hname, hspan⟩ := Text.eq_of_append_cons (hcolon node) (hcolon node') h
  exact ⟨String.toList_inj.mp hname, Span.format_injective (String.toList_inj.mp hspan)⟩

/-- A label begins with a letter, so it is told apart from the blanks in front of it. -/
theorem Node.exists_label (node : Node) :
    ∃ first rest, node.shown.label = first :: rest ∧ first.isAlpha = true := by
  have hword := Kind.name_isAlpha node.kind
  cases hname : node.kind.name.toList with
  | nil => exact absurd hname (Kind.name_ne_nil node.kind)
  | cons first rest =>
    refine ⟨first, rest ++ ':' :: node.span.format.toList, ?_, hword first ?_⟩
    · show node.kind.name.toList ++ _ = _
      rw [hname]
      rfl
    · rw [hname]
      exact List.mem_cons_self

/-- Behind the tabs stands a parenthesis, if the node is a leaf, or a letter. Neither is a tab. -/
theorem Node.exists_first (node : Node) (glyphs : Text.Glyphs) :
    ∃ first rest, node.shown.heldPart glyphs ++ node.shown.label = first :: rest ∧
      first ≠ '\t' ∧ (first = '(' ↔ node.shown.held.isSome = true) := by
  cases hheld : node.shown.held with
  | some data =>
    refine ⟨'(', Text.escape data.toList glyphs ++ [')'] ++ node.shown.label, ?_, by decide, ?_⟩
    · rw [Shown.heldPart, hheld]
      rfl
    · simp
  | none =>
    obtain ⟨first, rest, hlabel, hletter⟩ := node.exists_label
    refine ⟨first, rest, ?_, ?_, ?_⟩
    · rw [Shown.heldPart, hheld]
      exact hlabel
    · rintro rfl
      cases hletter
    · constructor
      · rintro rfl
        cases hletter
      · intro h
        cases h

/-- The number of tabs at the front of a line is told from the line, as no tab follows them. -/
theorem eq_of_replicate_append {tab first first' : Char} {m n : Nat} {rest rest' : List Char}
    (hfirst : first ≠ tab) (hfirst' : first' ≠ tab)
    (h : List.replicate m tab ++ first :: rest = List.replicate n tab ++ first' :: rest') :
    m = n ∧ first :: rest = first' :: rest' := by
  induction m generalizing n with
  | zero =>
    cases n with
    | zero => exact ⟨rfl, h⟩
    | succ n => exact absurd (List.cons.inj h).1 hfirst
  | succ m ih =>
    cases n with
    | zero => exact absurd (List.cons.inj h).1.symm hfirst'
    | succ n =>
      obtain ⟨hmn, hrest⟩ := ih (List.cons.inj h).2
      exact ⟨congrArg (· + 1) hmn, hrest⟩

/-- The text of a leaf and the label are told apart: a text ends at its closing quote, and quotes
inside it are escaped. -/
theorem Node.eq_of_heldPart_append {node node' : Node} {glyphs : Text.Glyphs}
    (h : node.shown.heldPart glyphs ++ node.shown.label =
      node'.shown.heldPart glyphs ++ node'.shown.label) :
    node.shown.held = node'.shown.held ∧ node.shown.label = node'.shown.label := by
  obtain ⟨first, rest, hpart, -, hleaf⟩ := node.exists_first glyphs
  obtain ⟨first', rest', hpart', -, hleaf'⟩ := node'.exists_first glyphs
  have hsame : first = first' := by
    rw [hpart, hpart'] at h
    exact (List.cons.inj h).1
  -- both are leaves, or none of them is
  have hboth : node.shown.held.isSome = true ↔ node'.shown.held.isSome = true := by
    rw [← hleaf, ← hleaf', hsame]
  cases hheld : node.shown.held with
  | none =>
    cases hheld' : node'.shown.held with
    | none =>
      rw [Shown.heldPart, Shown.heldPart, hheld, hheld'] at h
      exact ⟨rfl, h⟩
    | some data' =>
      rw [hheld, hheld'] at hboth
      cases hboth.mpr rfl
  | some data =>
    cases hheld' : node'.shown.held with
    | none =>
      rw [hheld, hheld'] at hboth
      cases hboth.mp rfl
    | some data' =>
      rw [Shown.heldPart, Shown.heldPart, hheld, hheld', List.cons_append, List.cons_append,
        List.append_assoc, List.append_assoc] at h
      -- no label has a parenthesis, so the last one ends the text
      have hclose : ∀ node : Node, ')' ∉ node.shown.label :=
        Node.not_mem_label (by decide) (by decide) (by decide)
      obtain ⟨hescape, hlabel⟩ :=
        Text.eq_of_append_cons_last (hclose node) (hclose node') (List.cons.inj h).2
      exact ⟨congrArg some (String.toList_inj.mp (Text.escape_injective hescape)), hlabel⟩

/-- **A line tells what it shows.** Depth, kind, span and text are read off it in this order, each
up to where the next one begins. -/
theorem Node.shown_eq_of_line {node node' : Node} {glyphs : Text.Glyphs}
    (h : node.shown.line glyphs = node'.shown.line glyphs) : node.shown = node'.shown := by
  obtain ⟨first, rest, hpart, hfirst, -⟩ := node.exists_first glyphs
  obtain ⟨first', rest', hpart', hfirst', -⟩ := node'.exists_first glyphs
  rw [Shown.line, Shown.line, hpart, hpart'] at h
  obtain ⟨hdepth, hrest⟩ := eq_of_replicate_append hfirst hfirst' h
  rw [← hpart, ← hpart'] at hrest
  obtain ⟨hheld, hlabel⟩ := Node.eq_of_heldPart_append hrest
  obtain ⟨hname, hspan⟩ := Node.eq_of_label hlabel
  calc node.shown = ⟨node.shown.depth, node.shown.name, node.shown.span, node.shown.held⟩ := rfl
    _ = ⟨node'.shown.depth, node'.shown.name, node'.shown.span, node'.shown.held⟩ := by
      rw [hdepth, hname, hspan, hheld]

/-- A line has no line feed in it, since line feeds in a text are escaped. So the lines of a listing
can be told apart. -/
theorem Node.lineFeed_not_mem_line (node : Node) (glyphs : Text.Glyphs) :
    '\n' ∉ node.shown.line glyphs := by
  have hlabel : '\n' ∉ node.shown.label :=
    Node.not_mem_label (by decide) (by decide) (by decide) node
  have hheld : '\n' ∉ node.shown.heldPart glyphs := by
    rw [Shown.heldPart]
    cases node.shown.held with
    | none => exact List.not_mem_nil
    | some data => simp [Text.lineFeed_not_mem_escape]
  simp [Shown.line, hlabel, hheld]

/-! ### Texts made of lines -/

/-- A text of lines is cut into its lines in one way only, if no line has a line feed in it. -/
theorem eq_of_flatMap_lines {lines lines' : List (List Char)} (h : ∀ line ∈ lines, '\n' ∉ line)
    (h' : ∀ line ∈ lines', '\n' ∉ line)
    (heq : lines.flatMap (· ++ ['\n']) = lines'.flatMap (· ++ ['\n'])) : lines = lines' := by
  induction lines generalizing lines' with
  | nil =>
    cases lines' with
    | nil => rfl
    | cons line' lines' => simp at heq
  | cons line lines ih =>
    cases lines' with
    | nil => simp at heq
    | cons line' lines' =>
      rw [List.flatMap_cons, List.flatMap_cons, List.append_assoc, List.append_assoc] at heq
      obtain ⟨hline, hlines⟩ := List.forall_mem_cons.mp h
      obtain ⟨hline', hlines'⟩ := List.forall_mem_cons.mp h'
      obtain ⟨rfl, hrest⟩ := Text.eq_of_append_cons hline hline' heq
      rw [ih hlines hlines' hrest]

/-- A text of lines has as many line feeds as lines. -/
theorem count_flatMap_lines {lines : List (List Char)} (h : ∀ line ∈ lines, '\n' ∉ line) :
    (lines.flatMap (· ++ ['\n'])).count '\n' = lines.length := by
  induction lines with
  | nil => rfl
  | cons line lines ih =>
    obtain ⟨hline, hlines⟩ := List.forall_mem_cons.mp h
    rw [List.flatMap_cons, List.count_append, List.count_append, List.count_eq_zero.mpr hline,
      ih hlines, List.length_cons]
    simp
    omega

namespace Tree

/-- The nodes in the order of a listing. -/
def listedNodes (tree : Tree) : List Node :=
  (tree.preorder root).filterMap tree.get?

/-- What a listing shows of the nodes, line by line. -/
def shown (tree : Tree) : List Shown :=
  tree.listedNodes.map Node.shown

/-- The header of a listing up to its end. -/
def headerLine (tree : Tree) : List Char :=
  "ParseTree\x7bcount = ".toList ++ (tree.count.repr.toList ++ (", height = ".toList ++
    (tree.height.repr.toList ++ (", max_degree = ".toList ++
      (tree.maxDegree.repr.toList ++ "\x7d:".toList)))))

/-- The lines of a listing up to their ends, the header first. -/
def lines (tree : Tree) (glyphs : Text.Glyphs) : List (List Char) :=
  tree.headerLine :: tree.listedNodes.map fun node => node.shown.line glyphs

theorem lineFeed_not_mem_headerLine (tree : Tree) : '\n' ∉ tree.headerLine := by
  have hrepr : ∀ n : Nat, '\n' ∉ n.repr.toList := fun n => not_mem_repr (by decide) n
  unfold headerLine
  simp only [List.mem_append, not_or]
  exact ⟨by simp, hrepr _, by simp, hrepr _, by simp, hrepr _, by simp⟩

theorem lineFeed_not_mem_lines (tree : Tree) (glyphs : Text.Glyphs) :
    ∀ line ∈ tree.lines glyphs, '\n' ∉ line := by
  refine List.forall_mem_cons.mpr ⟨tree.lineFeed_not_mem_headerLine, fun line hline => ?_⟩
  obtain ⟨node, -, rfl⟩ := List.mem_map.mp hline
  exact node.lineFeed_not_mem_line glyphs

theorem toList_header (tree : Tree) : tree.header.toList = tree.headerLine ++ ['\n'] := by
  unfold header headerLine
  simp only [String.toList_append, List.append_assoc]
  rfl

/-- A listing is made of its lines, each with a line feed at its end. -/
theorem toList_listing {tree : Tree} (h : tree.Valid) (glyphs : Text.Glyphs) :
    (tree.listing glyphs).toList = (tree.lines glyphs).flatMap (· ++ ['\n']) := by
  have hdepth : tree.depth root = 0 := by
    obtain ⟨first, hfirst, hroot⟩ := h.exists_root
    rw [depth, hfirst]
    exact (Node.isRoot_iff.mp hroot).2.2
  rw [listing, listingAt, hdepth, String.toList_append, toList_header, String.toList_join, lines,
    List.flatMap_cons, List.flatMap_map, List.flatMap_map]
  refine congrArg (tree.headerLine ++ ['\n'] ++ ·) (List.flatMap_congr fun node _ => ?_)
  exact node.toList_line glyphs

/-- Every node is listed, since the walk from the root meets each of them once. -/
theorem Valid.length_listedNodes {tree : Tree} (h : tree.Valid) :
    tree.listedNodes.length = tree.count := by
  have hsome : ∀ id ∈ tree.preorder root, (tree.get? id).isSome = true := fun id hid =>
    isSome_get?_iff.mpr (List.mem_range.mp (h.preorder_root_perm.mem_iff.mp hid))
  have hcount : tree.count = tree.size := by
    obtain ⟨-, -, -, htree⟩ := ofNodes_eq_ok_iff.mp h
    exact congrArg count htree
  rw [listedNodes, List.length_filterMap_eq_countP, List.countP_eq_length.mpr hsome,
    h.preorder_root_perm.length_eq, List.length_range, hcount]

/-- The line feeds of a listing: one behind the header, and one for each node. -/
theorem Valid.count_lineFeed {tree : Tree} (h : tree.Valid) (glyphs : Text.Glyphs) :
    (tree.listing glyphs).toList.count '\n' = tree.count + 1 := by
  rw [toList_listing h, count_flatMap_lines (tree.lineFeed_not_mem_lines glyphs), lines,
    List.length_cons, List.length_map, h.length_listedNodes]

end Tree

/-- Lists whose images under one function agree have the same images under another one that tells
no more apart. -/
theorem map_eq_map_of_imp {α β γ : Type} {f : α → β} {g : α → γ}
    (h : ∀ a b, f a = f b → g a = g b) {left right : List α} (heq : left.map f = right.map f) :
    left.map g = right.map g := by
  induction left generalizing right with
  | nil =>
    cases right with
    | nil => rfl
    | cons b right => cases heq
  | cons a left ih =>
    cases right with
    | nil => cases heq
    | cons b right =>
      obtain ⟨hfirst, hrest⟩ := List.cons.inj heq
      rw [List.map_cons, List.map_cons, h a b hfirst, ih hrest]

/-- Equal listings show the same, line by line, whatever the tables of letters and digits are. -/
theorem Tree.shown_eq_of_listing {a b : Tree} (ha : a.Valid) (hb : b.Valid)
    {glyphs : Text.Glyphs} (h : a.listing glyphs = b.listing glyphs) : a.shown = b.shown := by
  have hlist := congrArg String.toList h
  rw [Tree.toList_listing ha, Tree.toList_listing hb] at hlist
  have hlines := eq_of_flatMap_lines (a.lineFeed_not_mem_lines glyphs)
    (b.lineFeed_not_mem_lines glyphs) hlist
  exact map_eq_map_of_imp (fun _ _ => Node.shown_eq_of_line) (List.cons.inj hlines).2

/-! ### Outlines -/

/-- The trees below a node and beside each other, with what is shown of their nodes. -/
inductive Outline
  /-- No tree. -/
  | nil
  /-- A tree with what is below its top, and the trees beside it. -/
  | cons (top : Shown) (below beside : Outline)

namespace Outline

/-- What is shown of the nodes, each before the nodes below it. -/
def entries : Outline → List Shown
  | nil => []
  | cons top below beside => top :: (below.entries ++ beside.entries)

/-- The tops are at the given depth, and each level is one step further down. -/
def Levelled (depth : Nat) : Outline → Prop
  | nil => True
  | cons top below beside =>
    top.depth = depth ∧ below.Levelled (depth + 1) ∧ beside.Levelled depth

/-- What follows does not belong to trees whose tops are at the given depth. -/
def Follows (depth : Nat) (rest : List Shown) : Prop :=
  ∀ first ∈ rest.head?, first.depth < depth

theorem follows_nil (depth : Nat) : Follows depth [] := by
  rintro first ⟨⟩

theorem follows_append {depth : Nat} {outline : Outline} {rest : List Shown}
    (houtline : outline.Levelled depth) (hrest : Follows depth rest) :
    Follows (depth + 1) (outline.entries ++ rest) := by
  cases outline with
  | nil => exact fun first hfirst => Nat.lt_succ_of_lt (hrest first hfirst)
  | cons top below beside =>
    intro first hfirst
    obtain rfl := Option.some.inj hfirst
    exact Nat.lt_succ_of_le (Nat.le_of_eq houtline.1)

/-- **The depths tell the outline.** The trees at some depth go on until a depth follows that is
smaller. -/
theorem eq_of_entries_append {depth : Nat} {outline outline' : Outline} {rest rest' : List Shown}
    (h : outline.Levelled depth) (h' : outline'.Levelled depth) (hrest : Follows depth rest)
    (hrest' : Follows depth rest') (heq : outline.entries ++ rest = outline'.entries ++ rest') :
    outline = outline' ∧ rest = rest' := by
  induction outline generalizing depth outline' rest rest' with
  | nil =>
    cases outline' with
    | nil => exact ⟨rfl, heq⟩
    | cons top below beside =>
      obtain rfl : rest = _ := heq
      exact absurd h'.1 (Nat.ne_of_lt (hrest top rfl))
  | cons top below beside ihBelow ihBeside =>
    obtain ⟨htop, hbelow, hbeside⟩ := h
    cases outline' with
    | nil =>
      obtain rfl : _ = rest' := heq
      exact absurd htop (Nat.ne_of_lt (hrest' top rfl))
    | cons top' below' beside' =>
      obtain ⟨-, hbelow', hbeside'⟩ := h'
      rw [entries, entries, List.cons_append, List.cons_append, List.append_assoc,
        List.append_assoc] at heq
      obtain ⟨rfl, htail⟩ := List.cons.inj heq
      obtain ⟨rfl, hbesides⟩ := ihBelow hbelow hbelow' (follows_append hbeside hrest)
        (follows_append hbeside' hrest') htail
      obtain ⟨rfl, rfl⟩ := ihBeside hbeside hbeside' hrest hrest' hbesides
      exact ⟨rfl, rfl⟩

end Outline

namespace Tree

/-- The subtrees of some nodes have an outline: each of them has its top in the outline, and below
it the subtrees of its children in their order. -/
inductive Draws (tree : Tree) : List NodeId → Outline → Prop
  /-- No node has no outline. -/
  | nil : Draws tree [] .nil
  /-- A node with its children, and the nodes beside it. -/
  | cons {id : NodeId} {node : Node} {ids : List NodeId} {below beside : Outline}
      (hget : tree.get? id = some node) (hbelow : Draws tree node.children below)
      (hbeside : Draws tree ids beside) :
      Draws tree (id :: ids) (.cons node.shown below beside)

namespace Valid

variable {tree : Tree}

/-- Nodes at one depth have an outline if each of them has one, and these stand one below the
other. -/
theorem exists_draws_of_forall {depth : Nat} {ids : List NodeId}
    (h : ∀ id ∈ ids, ∃ outline, tree.Draws [id] outline ∧ outline.Levelled depth ∧
      outline.entries = ((tree.subtree id).filterMap tree.get?).map Node.shown) :
    ∃ outline, tree.Draws ids outline ∧ outline.Levelled depth ∧
      outline.entries = ((ids.flatMap tree.subtree).filterMap tree.get?).map Node.shown := by
  induction ids with
  | nil => exact ⟨.nil, .nil, trivial, rfl⟩
  | cons id ids ih =>
    obtain ⟨⟨outline, hdraws, hlevelled, hentries⟩, hrest⟩ := List.forall_mem_cons.mp h
    obtain ⟨beside, hbeside, hlevelled', hentries'⟩ := ih hrest
    cases hdraws with
    | cons hget hbelow hnil =>
      cases hnil
      refine ⟨.cons _ _ beside, .cons hget hbelow hbeside, ⟨hlevelled.1, hlevelled.2.1, hlevelled'⟩,
        ?_⟩
      rw [List.flatMap_cons, List.filterMap_append, List.map_append, ← hentries, ← hentries']
      simp [Outline.entries]

/-- Every node has an outline, which has the nodes of its subtree in the order of a listing. -/
theorem exists_draws (h : tree.Valid) {id : NodeId} {node : Node}
    (hget : tree.get? id = some node) :
    ∃ outline, tree.Draws [id] outline ∧ outline.Levelled (tree.depth id) ∧
      outline.entries = ((tree.subtree id).filterMap tree.get?).map Node.shown := by
  refine h.depth_induction (P := fun id => ∃ outline, tree.Draws [id] outline ∧
    outline.Levelled (tree.depth id) ∧
      outline.entries = ((tree.subtree id).filterMap tree.get?).map Node.shown) ?_ hget
  intro id node hget hchildren
  have hdepth : tree.depth id = node.depth := by
    rw [depth, hget]
    rfl
  have hbelow : ∀ child ∈ node.children, ∃ outline, tree.Draws [child] outline ∧
      outline.Levelled (node.depth + 1) ∧
        outline.entries = ((tree.subtree child).filterMap tree.get?).map Node.shown := by
    intro child hchild
    obtain ⟨found, hfound, -, hfounddepth⟩ := h.fits hget hchild
    have hsame : tree.depth child = node.depth + 1 := by
      rw [depth, hfound]
      exact hfounddepth
    rw [← hsame]
    exact hchildren child hchild
  obtain ⟨below, hdraws, hlevelled, hentries⟩ := exists_draws_of_forall hbelow
  refine ⟨.cons node.shown below .nil, .cons hget hdraws .nil, ⟨hdepth.symm, ?_, trivial⟩, ?_⟩
  · rwa [hdepth]
  · rw [h.subtree_eq hget, children_eq_of_get? hget, List.filterMap_cons_some hget, List.map_cons,
      ← hentries]
    simp [Outline.entries]

/-- Trees that show the same have the same outline, since the depths of the lines tell which line is
below which. -/
theorem exists_outline {a b : Tree} (ha : a.Valid) (hb : b.Valid) (h : a.shown = b.shown) :
    ∃ outline, a.Draws [root] outline ∧ b.Draws [root] outline := by
  obtain ⟨first, hfirst, hroot⟩ := ha.exists_root
  obtain ⟨first', hfirst', hroot'⟩ := hb.exists_root
  obtain ⟨outline, hdraws, hlevelled, hentries⟩ := ha.exists_draws hfirst
  obtain ⟨outline', hdraws', hlevelled', hentries'⟩ := hb.exists_draws hfirst'
  have hdepth : a.depth root = 0 := by
    rw [depth, hfirst]
    exact (Node.isRoot_iff.mp hroot).2.2
  have hdepth' : b.depth root = 0 := by
    rw [depth, hfirst']
    exact (Node.isRoot_iff.mp hroot').2.2
  rw [← ha.preorder_eq hfirst] at hentries
  rw [← hb.preorder_eq hfirst'] at hentries'
  have hsame : outline.entries ++ [] = outline'.entries ++ [] := by
    rw [hentries, hentries']
    exact congrArg (· ++ []) h
  rw [hdepth] at hlevelled
  rw [hdepth'] at hlevelled'
  obtain ⟨rfl, -⟩ :=
    Outline.eq_of_entries_append hlevelled hlevelled' (Outline.follows_nil 0)
      (Outline.follows_nil 0) hsame
  exact ⟨outline, hdraws, hdraws'⟩

end Valid

end Tree

/-! ### Trees that are obtained -/

/-- All trees that are obtained are valid: those of readings because they are arenas, and loaded
ones because they were checked. -/
theorem Tree.Obtained.valid {tree : Tree} (h : tree.Obtained) : tree.Valid := by
  rcases h.arena_or_loaded with harena | ⟨value, hload⟩
  · exact harena.loads _ fun _ _ => rfl
  · obtain ⟨table, -, htree⟩ := Tree.load_eq_ok_iff.mp hload
    exact (Tree.valid_of_ofNodes (NodeTable.toTree_eq_ok_iff.mp htree).1).1

/-- A node of a tree that is complete holds the text that is shown of it, and other nodes than
leaves hold none. -/
theorem Tree.Complete.data_eq {tree : Tree} (h : tree.Complete) {id : NodeId} {node : Node}
    (hget : tree.get? id = some node) : node.shown.held.getD "" = tree.data id := by
  have hspells := h.wellShaped.spells id (isSome_get?_iff.mp (by rw [hget]; rfl))
  rw [Tree.kind, Tree.data, hget] at hspells
  rw [Tree.data, hget]
  obtain ⟨kind, parent, children, depth, span, data⟩ := node
  cases kind with
  | primary form => cases form <;> first | rfl | exact hspells.symm
  | text | space | literal | number => rfl
  | root | comment | product | definitionList | definition | term | exception | repetition =>
    exact hspells.symm

/-- The text of a tree that is complete is that of the leaves in its listing. -/
theorem Tree.Complete.text_eq {tree : Tree} (h : tree.Complete) :
    tree.text = String.join (tree.shown.map fun shown => shown.held.getD "") := by
  have hvalid : tree.Valid := h.cut.arena.loads _ fun _ _ => rfl
  have hshown : tree.shown.map (fun shown => shown.held.getD "") =
      (tree.preorder Tree.root).map tree.data := by
    rw [Tree.shown, Tree.listedNodes, List.map_map, List.map_filterMap]
    refine List.filterMap_eq_map_iff_forall_eq_some.mpr fun id hid => ?_
    obtain ⟨node, hget⟩ := Option.isSome_iff_exists.mp
      (Tree.isSome_get?_iff.mpr (List.mem_range.mp (hvalid.preorder_root_perm.mem_iff.mp hid)))
    rw [hget]
    exact congrArg some (h.data_eq hget)
  rw [hshown]
  rfl

/-- **Listings are unambiguous.** Whatever the display knows of characters, the listing of a tree
that was handed out or loaded has a line for each node besides the header. Trees with equal listings
agree line by line in depths, names of kinds, spans and texts of leaves, and so they have one
outline. If both were read from texts that were accepted, the texts are equal. -/
theorem listing_unambiguous (glyphs : Text.Glyphs) :
    (∀ tree : Tree, tree.Obtained →
        (tree.listing glyphs).toList.count '\n' = tree.count + 1) ∧
      (∀ a b : Tree, a.Obtained → b.Obtained → a.listing glyphs = b.listing glyphs →
        a.shown = b.shown ∧
          ∃ outline, a.Draws [Tree.root] outline ∧ b.Draws [Tree.root] outline) ∧
      ∀ (s t : String) (m n : Nat) (a b : Tree), parseText s m = .ok a → parseText t n = .ok b →
        a.listing glyphs = b.listing glyphs → s = t := by
  refine ⟨fun tree h => h.valid.count_lineFeed glyphs, ?_, ?_⟩
  · intro a b ha hb h
    have hshown := Tree.shown_eq_of_listing ha.valid hb.valid h
    exact ⟨hshown, ha.valid.exists_outline hb.valid hshown⟩
  · intro s t m n a b ha hb h
    have hobtained : ∀ {text : String} {limit : Nat} {tree : Tree},
        parseText text limit = .ok tree → tree.Obtained := by
      intro text limit tree hparse
      have hread := Tree.Obtained.read (TextSource.ofString text) limit
      rwa [show parse (TextSource.ofString text) limit = _ from hparse] at hread
    have hshown := Tree.shown_eq_of_listing (hobtained ha).valid (hobtained hb).valid h
    have htext : a.text = b.text := by
      rw [(complete_of_parseText ha).text_eq, (complete_of_parseText hb).text_eq, hshown]
    refine String.toList_inj.mp ?_
    rw [← (finished_of_parseText ha).text_eq, ← (finished_of_parseText hb).text_eq, htext]

/-- Two tables with the same nodes in different orders, where the text of the leaf looks like a
line, and two texts of which one has a line feed where the other one has its escape. -/
theorem listing_unambiguous_lookalikes :
    (∃ a b : Tree, a ≠ b ∧ Tree.load a.toJson = .ok a ∧ Tree.load b.toJson = .ok b ∧
        a.listing ⟨fun _ => false, fun _ => false⟩ = b.listing ⟨fun _ => false, fun _ => false⟩ ∧
        a.shown = b.shown ∧
          ∃ outline, a.Draws [Tree.root] outline ∧ b.Draws [Tree.root] outline) ∧
      ∃ a b, parseText "a='\n';" 0 = .ok a ∧ parseText "a='\x5cn';" 0 = .ok b ∧
        a.listing ≠ b.listing := by
  constructor
  · let a := Tree.counted #[⟨.root, none, [1], 0, .start, ""⟩,
      ⟨.comment, some 0, [2], 1, .start, ""⟩, ⟨.text, some 1, [], 2, .start, ")Text:1,0-1,0\n\t"⟩]
    let b := Tree.counted #[⟨.root, none, [2], 0, .start, ""⟩,
      ⟨.text, some 2, [], 2, .start, ")Text:1,0-1,0\n\t"⟩, ⟨.comment, some 0, [1], 1, .start, ""⟩]
    have ha : Tree.load a.toJson = .ok a := Tree.load_toJson (by decide) rfl
    have hb : Tree.load b.toJson = .ok b := Tree.load_toJson (by decide) rfl
    have hlisting : a.listing ⟨fun _ => false, fun _ => false⟩ =
        b.listing ⟨fun _ => false, fun _ => false⟩ := by
      rfl
    exact ⟨a, b, by decide, ha, hb, hlisting,
      (listing_unambiguous _).2.1 a b (.loaded ha) (.loaded hb) hlisting⟩
  · obtain ⟨a, ha⟩ := exists_tree_of_isOk
      (show (parseText "a='\n';" 0).isOk = true by with_unfolding_all decide)
    obtain ⟨b, hb⟩ := exists_tree_of_isOk
      (show (parseText "a='\x5cn';" 0).isOk = true by with_unfolding_all decide)
    refine ⟨a, b, ha, hb, fun hlisting => ?_⟩
    have htexts : "a='\n';" = "a='\x5cn';" :=
      (listing_unambiguous .unicode).2.2 _ _ 0 0 a b ha hb hlisting
    exact absurd htexts (by decide)

end LosslessEbnf
