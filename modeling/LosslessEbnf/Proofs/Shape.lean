import LosslessEbnf.Proofs.Grammar
import LosslessEbnf.Tree.Basic

/-!
# The shape of trees

Which children the node of a production has, in which order, and what the leaves hold.

## Main Definitions

* `Child` — a child as the node above it sees it
* `Slot`, `Matches` — a part of a production, and a row of children part by part
* `Separated` — items with marks between them
* `TermRow` — the components of a term
* `Kind.Builds`, `Kind.Spells` — the children and the text of a node of each kind
* `Tree.WellShaped` — every node of a tree is as its kind demands

## Main Statements

* `Kind.Builds.exists_of_component` — the components that a kind names are among the children

## Design Notes

Most productions have a fixed number of parts, so they are lists of slots, and a production that is
still being read has the first few of them. Definitions and terms can grow without bound; their rows
are given by what may be put at the end.
-/

namespace LosslessEbnf

/-- A child as the node above it sees it. -/
structure Child where
  /-- Its number. -/
  id : NodeId
  /-- What it was read as. -/
  kind : Kind
  /-- The text that it holds itself. -/
  data : String

/-- The kind without the numbers of its components. -/
def Kind.bare : Kind → Kind
  | product _ _ => product none none
  | term _ => term {}
  | exception _ => exception none
  | primary (.bracketed b _) => primary (.bracketed b none)
  | kind => kind

/-- Kinds that name no components have no others like them. -/
theorem Kind.eq_of_bare {kind bare : Kind} (h : kind.bare = bare)
    (hbare : bare ∈ [Kind.comment, .definitionList, .repetition]) : kind = bare := by
  subst h
  cases kind with
  | primary form => cases form <;> simp [Kind.bare] at hbare
  | _ => first | rfl | simp [Kind.bare] at hbare

theorem Kind.exists_of_bare_exception {kind : Kind} (h : kind.bare = .exception none) :
    ∃ target, kind = .exception target := by
  cases kind with
  | exception target => exact ⟨target, rfl⟩
  | primary form => cases form <;> cases h
  | _ => cases h

namespace Child

/-- The child is a mark of one of the given spellings. -/
def IsMark (spellings : List String) (child : Child) : Prop :=
  child.kind = .literal ∧ child.data ∈ spellings

/-- The child is a primary that is not empty. -/
def IsPrimary (child : Child) : Prop :=
  ∃ form, child.kind = .primary form ∧ form ≠ .emptyString

end Child

/-! ### Rows of children -/

/-- The row has a child with the number `id`, whose kind fits. -/
def HasChild (fits : Kind → Prop) (row : List Child) (id : NodeId) : Prop :=
  ∃ child ∈ row, child.id = id ∧ fits child.kind

/-- A part of a production: the children that it may consist of. -/
abbrev Slot := List Child → Prop

/-- A single child. -/
def Slot.one (fits : Child → Prop) : Slot := fun row => ∃ child, row = [child] ∧ fits child

/-- White space or nothing. -/
def Slot.gap : Slot := fun row => row = [] ∨ ∃ child, row = [child] ∧ child.kind = .space

/-- No two neighbours in the row are of the given kind. -/
def NoTwo (alone : Kind) (row : List Child) : Prop :=
  ∀ front first second back, row = front ++ first :: second :: back →
    first.kind = alone → second.kind ≠ alone

/-- Any number of children of some kinds, one of which has no neighbour of its own kind. -/
def Slot.mixed (kinds : List Kind) (alone : Kind) : Slot := fun row =>
  (∀ child ∈ row, child.kind.bare ∈ kinds) ∧ NoTwo alone row

/-- The row consists of the parts in their order. -/
def Matches : List Slot → List Child → Prop
  | [], row => row = []
  | slot :: slots, row => ∃ front rest, row = front ++ rest ∧ slot front ∧ Matches slots rest

/-- Items with separators between them. White space may stand behind a separator. -/
inductive Separated (item : Kind) (separators : List String) : List Child → Prop
  /-- A single item. -/
  | one {child : Child} (fits : child.kind.bare = item) : Separated item separators [child]
  /-- One more item behind a separator. -/
  | more {row gap : List Child} {mark child : Child} (rest : Separated item separators row)
      (separates : mark.IsMark separators) (spaces : Slot.gap gap) (fits : child.kind.bare = item) :
      Separated item separators (row ++ mark :: (gap ++ [child]))

/-- The children of a term with the given components, each of which occurs at most once. An
exception stands right behind its `-`, and white space neither first nor behind white space. -/
inductive TermRow : TermParts → List Child → Prop
  /-- Nothing was read. -/
  | nil : TermRow {} []
  /-- White space. -/
  | space {parts : TermParts} {row : List Child} {last child : Child} (rest : TermRow parts row)
      (behind : row.getLast? = some last) (not_space : last.kind ≠ .space)
      (space : child.kind = .space) : TermRow parts (row ++ [child])
  /-- The repetition. -/
  | repetition {parts : TermParts} {row : List Child} (child : Child) (rest : TermRow parts row)
      (unused : parts.repetition = none) (fits : child.kind = .repetition) :
      TermRow { parts with repetition := some child.id } (row ++ [child])
  /-- The primary. -/
  | primary {parts : TermParts} {row : List Child} (child : Child) {form : Primary}
      (rest : TermRow parts row) (unused : parts.primary = none)
      (fits : child.kind = .primary form) :
      TermRow { parts with primary := some child.id } (row ++ [child])
  /-- The exception and the mark in front of it. -/
  | exception {parts : TermParts} {row : List Child} {dash : Child} (child : Child)
      (rest : TermRow parts row) (unused : parts.exception = none) (mark : dash.IsMark ["-"])
      (fits : child.kind.bare = .exception none) :
      TermRow { parts with exception := some child.id } (row ++ [dash, child])

/-! ### Productions -/

/-- The whole text: comments, products and white space. -/
def rootRule : List Slot := [.mixed [.comment, .product none none, .space] .space]

/-- `(*`, texts and comments, `*)`. -/
def commentRule : List Slot :=
  [.one (·.IsMark ["(*"]), .mixed [.text, .comment] .text, .one (·.IsMark ["*)"])]

/-- A name, `=`, definitions, `;` or `.`. -/
def productRule (lhs rhs : Option NodeId) : List Slot :=
  [.one fun child => child.kind = .primary .identifier ∧ lhs = some child.id, .gap,
    .one (·.IsMark ["="]), .gap,
    .one fun child => child.kind = .definitionList ∧ rhs = some child.id,
    .one (·.IsMark Marks.terminators)]

/-- A primary with white space around it. -/
def exceptionRule (target : Option NodeId) : List Slot :=
  [.gap, .one fun child => child.IsPrimary ∧ target = some child.id, .gap]

/-- An empty string behind white space. -/
def emptyExceptionRule (target : Option NodeId) : List Slot :=
  [.gap, .one fun child => child.kind = .primary .emptyString ∧ target = some child.id]

/-- A number and `*`. -/
def repetitionRule : List Slot :=
  [.one fun child => child.kind = .number, .gap, .one (·.IsMark ["*"])]

/-- An opener, definitions and a closer. -/
def bracketRule (b : Bracket) (opening : Option NodeId) : List Slot :=
  [.one fun child => child.IsMark b.openers ∧ opening = some child.id, .gap,
    .one fun child => child.kind = .definitionList, .one (·.IsMark b.allClosers)]

/-- A text that does not contain the mark at both ends of it. -/
def quotedRule (mark : Char) : List Slot :=
  [.one (·.IsMark [String.singleton mark]),
    .one fun child => child.kind = .text ∧ ∀ c ∈ child.data.toList, c ≠ mark,
    .one (·.IsMark [String.singleton mark])]

/-- What the children of a primary may be. -/
def Primary.Builds (row : List Child) : Primary → Prop
  | identifier | emptyString => row = []
  | terminal => ∃ mark, isQuote mark = true ∧ Matches (quotedRule mark) row
  | bracketed b opening => Matches (bracketRule b opening) row
  | special => Matches (quotedRule '?') row

/-- What the children of a node of the kind may be. -/
def Kind.Builds (row : List Child) : Kind → Prop
  | root => Matches rootRule row
  | comment => Matches commentRule row
  | product lhs rhs => Matches (productRule lhs rhs) row
  | definitionList => Separated .definition Marks.separators row
  | definition => Separated (.term {}) [","] row
  | term parts => TermRow parts row ∧ parts.primary.isSome
  | exception target => Matches (exceptionRule target) row ∨ Matches (emptyExceptionRule target) row
  | repetition => Matches repetitionRule row
  | primary form => form.Builds row
  | text | space | literal | number => row = []

/-- A name begins with a letter and does not end with white space. -/
structure IsName (text : List Char) : Prop where
  /-- It begins with a letter. -/
  letter : ∃ c rest, text = c :: rest ∧ isLetter c = true
  /-- It consists of letters, digits and white space. -/
  parts : ∀ c ∈ text, isNamePart c = true
  /-- It ends with a letter or a digit. -/
  solid : ∃ front c, text = front ++ [c] ∧ isSpace c = false

/-- What the text of a node of the kind may be. Only leaves hold text. -/
def Kind.Spells (data : String) : Kind → Prop
  | primary .identifier => IsName data.toList
  | space => data ≠ "" ∧ Blank data.toList
  | number => data ≠ "" ∧ ∀ c ∈ data.toList, isDigit c = true
  | text | literal => True
  | _ => data = ""

/-! ### Trees -/

namespace Tree

/-- The kind of a node. -/
def kind (tree : Tree) (id : NodeId) : Kind :=
  ((tree.get? id).map Node.kind).getD .root

/-- The children of a node. -/
def row (tree : Tree) (id : NodeId) : List Child :=
  (tree.children id).map fun child => ⟨child, tree.kind child, tree.data child⟩

/-- Every node has the children and the text that its kind demands, and the first one stands for the
whole text. -/
structure WellShaped (tree : Tree) : Prop where
  /-- The first node stands for the whole text. -/
  root : tree.kind Tree.root = .root
  /-- The children of every node are as its kind demands. -/
  builds : ∀ id, id < tree.size → (tree.kind id).Builds (tree.row id)
  /-- The text of every node is as its kind demands. -/
  spells : ∀ id, id < tree.size → (tree.kind id).Spells (tree.data id)

end Tree

/-! ### Slots one after the other -/

section

variable {slots : List Slot} {slot : Slot} {row more : List Child} {child : Child}

theorem Slot.one_singleton {fits : Child → Prop} (h : fits child) : Slot.one fits [child] :=
  ⟨child, rfl, h⟩

theorem Slot.gap_nil : Slot.gap [] := Or.inl rfl

theorem Slot.gap_singleton (h : child.kind = .space) : Slot.gap [child] := Or.inr ⟨child, rfl, h⟩

theorem matches_single : Matches [slot] row ↔ slot row := by
  constructor
  · rintro ⟨front, rest, rfl, hfront, rfl⟩
    rwa [List.append_nil]
  · exact fun h => ⟨row, [], (List.append_nil row).symm, h, rfl⟩

/-- One more slot is matched by what is added behind the children that match the slots in front of
it. -/
theorem Matches.snoc (h : Matches slots row) (hmore : slot more) :
    Matches (slots ++ [slot]) (row ++ more) := by
  induction slots generalizing row with
  | nil =>
    obtain rfl : row = [] := h
    exact ⟨more, [], (List.append_nil more).symm, hmore, rfl⟩
  | cons first slots ih =>
    obtain ⟨front, rest, rfl, hfront, hrest⟩ := h
    exact ⟨front, rest ++ more, List.append_assoc .., hfront, ih hrest⟩

/-- What matches some slots and a last one comes apart into a front for those and a back for the
last one. -/
theorem Matches.exists_append (h : Matches (slots ++ [slot]) row) :
    ∃ front back, row = front ++ back ∧ Matches slots front ∧ slot back := by
  induction slots generalizing row with
  | nil => exact ⟨[], row, rfl, rfl, matches_single.mp h⟩
  | cons first slots ih =>
    obtain ⟨front, rest, rfl, hfront, hrest⟩ := h
    obtain ⟨middle, back, rfl, hmiddle, hback⟩ := ih hrest
    exact ⟨front ++ middle, back, (List.append_assoc ..).symm,
      ⟨front, middle, rfl, hfront, hmiddle⟩, hback⟩

/-- If the last part is a single child, it is the last child. -/
theorem Matches.unsnoc {fits : Child → Prop} (h : Matches (slots ++ [.one fits]) (row ++ [child])) :
    Matches slots row ∧ fits child := by
  obtain ⟨front, _, hrow, hfront, last, rfl, hlast⟩ := h.exists_append
  obtain ⟨rfl, heq⟩ := List.append_inj' hrow rfl
  obtain rfl := List.cons.inj heq |>.1
  exact ⟨hfront, hlast⟩

/-- A part that consists of a single child has a child that fits. -/
theorem Matches.exists_of_mem {fits : Child → Prop} (h : Matches slots row)
    (hmem : Slot.one fits ∈ slots) : ∃ child ∈ row, fits child := by
  induction slots generalizing row with
  | nil => cases hmem
  | cons first slots ih =>
    obtain ⟨front, rest, rfl, hfront, hrest⟩ := h
    rcases List.mem_cons.mp hmem with rfl | hmem
    · obtain ⟨child, rfl, hfits⟩ := hfront
      exact ⟨child, List.mem_cons_self, hfits⟩
    · obtain ⟨child, hchild, hfits⟩ := ih hrest hmem
      exact ⟨child, List.mem_append_right _ hchild, hfits⟩

/-! ### Mixed rows -/

theorem noTwo_nil (alone : Kind) : NoTwo alone [] := by
  intro front first second back h
  exact absurd h.symm (by simp)

/-- One more child at the end, which is not the second of its kind. -/
theorem NoTwo.snoc {alone : Kind} (h : NoTwo alone row)
    (hlast : ∀ last, row.getLast? = some last → last.kind = alone → child.kind ≠ alone) :
    NoTwo alone (row ++ [child]) := by
  intro front first second back hrow
  rcases List.eq_nil_or_concat back with rfl | ⟨back, last, rfl⟩
  · -- the new child is the second of the two
    rw [show front ++ [first, second] = (front ++ [first]) ++ [second] by simp] at hrow
    obtain ⟨rfl, hchild⟩ := List.append_inj' hrow rfl
    obtain rfl := List.cons.inj hchild |>.1
    exact hlast first (List.getLast?_concat ..)
  · rw [List.concat_eq_append, show front ++ first :: second :: (back ++ [last]) =
      (front ++ first :: second :: back) ++ [last] by simp] at hrow
    exact h front first second back (List.append_inj' hrow rfl).1

theorem Slot.mixed_nil (kinds : List Kind) (alone : Kind) : Slot.mixed kinds alone [] :=
  ⟨List.forall_mem_nil _, noTwo_nil alone⟩

theorem Slot.mixed_snoc {kinds : List Kind} {alone : Kind} (h : Slot.mixed kinds alone row)
    (hkind : child.kind.bare ∈ kinds)
    (hlast : ∀ last, row.getLast? = some last → last.kind = alone → child.kind ≠ alone) :
    Slot.mixed kinds alone (row ++ [child]) := by
  refine ⟨?_, h.2.snoc hlast⟩
  intro other hmem
  rcases List.mem_append.mp hmem with hmem | hmem
  · exact h.1 other hmem
  · rw [List.mem_singleton.mp hmem]
    exact hkind

/-- What the last child holds does not matter, only its kind does. -/
theorem Slot.mixed_relabel {kinds : List Kind} {alone : Kind} {child' : Child}
    (h : Slot.mixed kinds alone (row ++ [child])) (hkind : child'.kind = child.kind) :
    Slot.mixed kinds alone (row ++ [child']) := by
  have hrow : Slot.mixed kinds alone row := by
    refine ⟨fun other hother => h.1 other (List.mem_append_left _ hother), ?_⟩
    intro front first second back heq
    exact h.2 front first second (back ++ [child]) (by rw [heq]; simp)
  refine Slot.mixed_snoc hrow ?_ ?_
  · rw [hkind]
    exact h.1 child (List.mem_append_right _ (List.mem_singleton.mpr rfl))
  · intro last hlast
    obtain ⟨front, rfl⟩ := List.getLast?_eq_some_iff.mp hlast
    rw [hkind]
    exact h.2 front last child [] (by simp)

/-! ### Components -/

theorem HasChild.append {fits : Kind → Prop} {id : NodeId} (h : HasChild fits row id)
    (more : List Child) : HasChild fits (row ++ more) id := by
  obtain ⟨child, hchild, hfits⟩ := h
  exact ⟨child, List.mem_append_left _ hchild, hfits⟩

theorem HasChild.exists_child {fits : Kind → Prop} {id : NodeId} (h : HasChild fits row id) :
    ∃ child ∈ row, child.id = id := by
  obtain ⟨child, hchild, hid, -⟩ := h
  exact ⟨child, hchild, hid⟩

theorem mem_components_term_iff {parts : TermParts} {id : NodeId} :
    id ∈ (Kind.term parts).components ↔
      parts.repetition = some id ∨ parts.primary = some id ∨ parts.exception = some id := by
  simp [Kind.components]

/-- The components that a term names are in the row, each as what it is. -/
structure TermParts.Among (parts : TermParts) (row : List Child) : Prop where
  /-- The repetition. -/
  repetition : ∀ id, parts.repetition = some id → HasChild (· = .repetition) row id
  /-- The primary. -/
  primary : ∀ id, parts.primary = some id → HasChild (∃ form, · = .primary form) row id
  /-- The exception. -/
  exception : ∀ id, parts.exception = some id → HasChild (·.bare = .exception none) row id

/-- Further children leave the components of a term among them. -/
theorem TermParts.Among.append {parts : TermParts} (h : parts.Among row) (more : List Child) :
    parts.Among (row ++ more) :=
  ⟨fun id hid => (h.repetition id hid).append more, fun id hid => (h.primary id hid).append more,
    fun id hid => (h.exception id hid).append more⟩

/-- The components of a term are among its children. -/
theorem TermRow.among {parts : TermParts} (h : TermRow parts row) : parts.Among row := by
  induction h with
  | nil => exact ⟨nofun, nofun, nofun⟩
  | space _ _ _ _ ih => exact ih.append _
  | @repetition _ _ child _ _ fits ih =>
    refine { ih.append [child] with repetition := fun id hid => ?_ }
    exact ⟨child, by simp, Option.some.inj hid, fits⟩
  | @primary _ _ child form _ _ fits ih =>
    refine { ih.append [child] with primary := fun id hid => ?_ }
    exact ⟨child, by simp, Option.some.inj hid, form, fits⟩
  | @exception _ _ dash child _ _ _ fits ih =>
    refine { ih.append [dash, child] with exception := fun id hid => ?_ }
    exact ⟨child, by simp, Option.some.inj hid, fits⟩

theorem TermRow.exists_of_component {parts : TermParts} (h : TermRow parts row) {id : NodeId}
    (hid : id ∈ (Kind.term parts).components) : ∃ child ∈ row, child.id = id := by
  rcases mem_components_term_iff.mp hid with hid | hid | hid
  · exact (h.among.repetition id hid).exists_child
  · exact (h.among.primary id hid).exists_child
  · exact (h.among.exception id hid).exists_child

/-- White space may stand behind a child that is none. -/
theorem TermRow.snoc_gap {parts : TermParts} {gap : List Child} (h : TermRow parts (row ++ [child]))
    (hchild : child.kind ≠ .space) (hgap : Slot.gap gap) :
    TermRow parts (row ++ [child] ++ gap) := by
  rcases hgap with rfl | ⟨blank, rfl, hblank⟩
  · rwa [List.append_nil]
  · exact h.space (List.getLast?_concat ..) hchild hblank

/-- A part that records the number of its child as a component. -/
theorem Matches.exists_of_link {fits : Child → Prop} {link : Option NodeId} {id : NodeId}
    (h : Matches slots row)
    (hmem : Slot.one (fun child => fits child ∧ link = some child.id) ∈ slots)
    (hlink : link = some id) : ∃ child ∈ row, child.id = id := by
  obtain ⟨child, hchild, -, hid⟩ := h.exists_of_mem hmem
  exact ⟨child, hchild, Option.some.inj (hid.symm.trans hlink)⟩

end

/-- The components that a kind names are among the children of its node. -/
theorem Kind.Builds.exists_of_component {kind : Kind} {row : List Child} (h : kind.Builds row)
    {id : NodeId} (hid : id ∈ kind.components) : ∃ child ∈ row, child.id = id := by
  cases kind with
  | product lhs rhs =>
    rcases List.mem_append.mp hid with hlhs | hrhs
    · exact Matches.exists_of_link h (List.mem_cons_self) (Option.mem_toList.mp hlhs)
    · have hmem : Slot.one (fun child => child.kind = .definitionList ∧ rhs = some child.id) ∈
          productRule lhs rhs := by simp [productRule]
      exact Matches.exists_of_link h hmem (Option.mem_toList.mp hrhs)
  | term parts => exact h.1.exists_of_component hid
  | exception target =>
    have hid := Option.mem_toList.mp hid
    rcases h with h | h
    · exact Matches.exists_of_link h (List.mem_cons_of_mem _ List.mem_cons_self) hid
    · exact Matches.exists_of_link h (List.mem_cons_of_mem _ List.mem_cons_self) hid
  | primary form =>
    cases form with
    | bracketed b opening =>
      exact Matches.exists_of_link h List.mem_cons_self (Option.mem_toList.mp hid)
    | identifier | terminal | special | emptyString => cases hid
  | root | comment | definitionList | definition | repetition | text | space | literal | number =>
    cases hid

end LosslessEbnf
