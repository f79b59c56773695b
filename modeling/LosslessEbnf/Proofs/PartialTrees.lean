import LosslessEbnf.Proofs.CutOff

/-!
# Trees of failures

In the tree of a failure all nodes but those on the edge are complete. Only an exception that ends
with the input, behind white space, may have a wrong span.

## Main Definitions

* `Frame.begins` — the productions that let another one begin at the end of the input
* `Tree.Lapse` — the nodes off the edge whose spans are wrong

## Main Statements

* `Standing.again_atEnd` — unless something begins, the end of the input does no harm
* `settled_of_exception_atEnd` — what an exception leaves that ends with the input
* `Standing.settled_settle_atEnd` — what is refused at the end of the input leaves a settled tree,
  but for a lapse
* `exactAt_of_parseText_error` — the spans in the tree of a failure

## Design Notes

At the end of the input there is no next character, and an empty string is put in front of the last
one instead. That does no harm where the string is on the edge, or where the last character is the
`-` of the exception, which then has no text at all. It is wrong behind white space.
-/

namespace LosslessEbnf

/-! ### Nodes that end with an empty string -/

/-- An empty string in front of the character at `here`. -/
def OpenNode.empty (here : Position) : OpenNode := .bare ⟨.primary .emptyString, .gap here, ""⟩

/-- The node with another kind and another end. -/
def OpenNode.ended (node : OpenNode) (kind : Kind) (last : Position) : OpenNode :=
  ⟨⟨kind, ⟨node.label.span.first, last⟩, node.label.data⟩, node.below⟩

/-- No line feed stands to the right of a gap. -/
theorem Span.isEmpty_gap {here : Position} (hcolumn : here.column ≠ 0) :
    (gap here).isEmpty = true := by
  rw [isEmpty, gap, Position.left, beq_self_eq_true, Bool.true_and]
  exact decide_eq_true (Nat.sub_lt (Nat.pos_of_ne_zero hcolumn) Nat.one_pos)

section

variable {tree : Tree} {here : Position} {node child : OpenNode} {outer : Spine}

/-- A node ends where its last child ends, which is open. -/
theorem Tree.Shows.closeOver (h : tree.Shows (child :: node :: outer)) (kind : Kind) :
    ((tree.withKind outer.size kind).closeAtLastChild outer.size).Shows
      (child :: node.ended kind child.label.span.last :: outer) := by
  have hclosed := (h.close.withKind kind).closeAtLastChild rfl
  exact Shows.reopen hclosed

/-- A node gets an empty string as its last child and ends with it. -/
theorem Tree.Shows.endEmpty (h : tree.Shows (node :: outer)) (kind kind' : Kind) :
    (((addEmptyString (tree.withKind outer.size kind) outer.size here).withKind outer.size
        kind').closeAtLastChild outer.size).Shows
      (.empty here :: node.ended kind' here.left :: outer) :=
  ((h.withKind kind).push (.primary .emptyString) (.gap here) "").closeOver kind'

/-! ### Productions at the end of the input -/

variable {limit : Nat} {start : Position} {below frames : List Frame} {id : NodeId}
  {term : Option NodeId} {parts : TermParts}

/-- At the end of the input a definition is refused, whatever it has got, and the cause tells where
it began. -/
theorem settle_definition_atEnd :
    settle limit ⟨none, here⟩ tree (.definition id start term :: below) =
      .rejected tree (.endOfInput (.definition start)) := by
  rw [settle_eq]
  rfl

theorem settle_definitions_atEnd :
    settle limit ⟨none, here⟩ tree (.definitions id .start :: below) =
      .rejected (tree.pushChild id .definition (.point here))
        (.endOfInput (.definition here)) := by
  rw [settle_eq]
  exact settle_definition_atEnd

theorem settle_product_atEnd {lhs : NodeId} :
    settle limit ⟨none, here⟩ tree (.product id lhs .equals :: below) =
      .rejected ((tree.pushChild id .definitionList (.point here)).pushChild tree.size .definition
        (.point here)) (.endOfInput (.definition here)) := by
  rw [settle_eq]
  exact settle_definitions_atEnd

theorem settle_bracket_atEnd {b : Bracket} {opening : NodeId} :
    settle limit ⟨none, here⟩ tree (.bracket b id (.opened opening) :: below) =
      .rejected
        (((tree.withKind id (.primary (.bracketed b (some opening)))).pushChild id .definitionList
          (.point here)).pushChild
            (tree.withKind id (.primary (.bracketed b (some opening)))).size .definition
            (.point here)) (.endOfInput (.definition here)) := by
  rw [settle_eq]
  exact settle_definitions_atEnd

theorem settle_quoted_atEnd {form : Quoted} :
    settle limit ⟨none, here⟩ tree (.quoted form id none :: below) =
      .rejected (tree.pushChild id .text (.point here)) (.endOfInput form.unfinished) := by
  rw [settle_eq, step, stepQuoted]
  dsimp only
  rw [settle_eq]
  rfl

/-- A term with a primary ends where its last child ends, and then its definition is refused. -/
theorem exists_settle_term_of_some {primary : NodeId} (h : tree.Shows (child :: node :: outer))
    (hprimary : parts.primary = some primary) :
    ∃ tree' kind, settle limit ⟨none, here⟩ tree
        (.term outer.size parts false :: .definition id start term :: below) =
          .rejected tree' (.endOfInput (.definition start)) ∧
      tree'.Shows (child :: node.ended kind child.label.span.last :: outer) := by
  refine ⟨_, _, ?_, h.closeOver (.term parts)⟩
  rw [settle_eq, step, stepTerm, if_neg (by simp)]
  simp only [endTerm, hprimary]
  exact settle_definition_atEnd

/-- A term without a primary ends with an empty string, and then its definition is refused. -/
theorem exists_settle_term_of_none (h : tree.Shows (node :: outer))
    (hprimary : parts.primary = none) :
    ∃ tree' kind, settle limit ⟨none, here⟩ tree
        (.term outer.size parts false :: .definition id start term :: below) =
          .rejected tree' (.endOfInput (.definition start)) ∧
      tree'.Shows (.empty here :: node.ended kind here.left :: outer) := by
  refine ⟨_, _, ?_, h.endEmpty (.term parts)
    (.term { parts with primary := some (tree.withKind outer.size (.term parts)).size })⟩
  rw [settle_eq, step, stepTerm, if_neg (by simp)]
  simp only [endTerm, hprimary]
  exact settle_definition_atEnd

/-- An exception without a primary ends with an empty string. -/
theorem exists_settle_exception {host : NodeId} (h : tree.Shows (node :: outer)) :
    ∃ tree', settle limit ⟨none, here⟩ tree (.exception outer.size host none :: frames) =
        settle limit ⟨none, here⟩ tree' frames ∧
      tree'.Shows
        (.empty here :: node.ended (.exception (some (Spine.size (node :: outer)))) here.left ::
          outer) := by
  refine ⟨_, ?_, h.endEmpty (.exception none) _⟩
  rw [settle_eq, ← h.size_eq, ← Tree.size_update tree outer.size]
  rfl

theorem settle_dash_atEnd :
    settle limit ⟨none, here⟩ tree (.term id parts true :: frames) =
      settle limit ⟨none, here⟩ ((tree.withKind id (.term parts)).pushChild id (.exception none)
          (.point here))
        (.exception tree.size id none ::
          .term id { parts with exception := some tree.size } false :: frames) := by
  rw [settle_eq, ← Tree.size_update tree id]
  rfl

/-! ### Terms and exceptions at the end of the input -/

variable {exempt : NodeId → Prop} {whole : List Char} {host : OpenNode} {number : NodeId}
  {tree' : Tree} {cause : Cause}

/-- A term that ends at the end of the input leaves a settled tree. It ends with its last child if
it has a primary, and else with an empty string. -/
theorem settled_of_term_atEnd (h : tree.Shows (node :: outer))
    (hsettled : Spine.Settled exempt whole (node :: outer))
    (ready : parts.primary.isSome → node.below ≠ .nil)
    (hrefused : settle limit ⟨none, here⟩ tree
        (.term outer.size parts false :: .definition id start term :: below) =
      .rejected tree' cause) : tree'.Settled exempt whole := by
  cases hprimary : parts.primary with
  | none =>
    obtain ⟨tree₁, kind, hsettle, hshows⟩ := exists_settle_term_of_none h hprimary
    rw [hsettle] at hrefused
    cases hrefused
    exact ⟨_, _, hshows, trivial, hsettled⟩
  | some primary =>
    obtain ⟨front, top, last, hlast⟩ := Forest.exists_last (ready (by rw [hprimary]; rfl))
    have hopen : tree.Shows (⟨top, last⟩ :: ⟨node.label, front⟩ :: outer) := by
      apply Tree.Shows.reopen
      rw [OpenNode.add, ← hlast]
      exact h
    obtain ⟨tree₁, kind, hsettle, hshows⟩ := exists_settle_term_of_some hopen hprimary
    rw [hsettle] at hrefused
    cases hrefused
    refine ⟨_, _, hshows.close, ?_, hsettled.2⟩
    show (front ++ .single top last).Exact _ _ _ _
    rw [← hlast]
    exact hsettled.1

/-- An exception without primary ends at the end of the input, and so does its term. What that
leaves is settled if the exception and its empty string are exact or exempt where the term has no
primary either. -/
theorem settled_of_exception_atEnd (h : tree.Shows (node :: host :: outer))
    (hsettled : Spine.Settled exempt whole (node :: host :: outer))
    (hexact : parts.primary = none →
      (exempt (Spine.size (host :: outer)) ∨ Span.Exact whole (Spine.text (host :: outer)).length
        node.text ⟨node.label.span.first, here.left⟩) ∧
      (exempt (Spine.size (node :: host :: outer)) ∨ (Span.gap here).isEmpty = true))
    (hrefused : settle limit ⟨none, here⟩ tree
      (.exception (Spine.size (host :: outer)) number none :: .term outer.size parts false ::
        .definition id start term :: below) = .rejected tree' cause) :
    tree'.Settled exempt whole ∧
      (parts.primary = none → cause = .endOfInput (.definition start) ∧
        tree'.kind (Spine.size (host :: outer)) =
          .exception (some (Spine.size (node :: host :: outer))) ∧
        tree'.kind (Spine.size (node :: host :: outer)) = .primary .emptyString ∧
        Spine.size (node :: host :: outer) + 2 = tree'.size) := by
  obtain ⟨tree₁, hsettle, hshows⟩ := exists_settle_exception h
  have hsettled : Spine.Settled exempt whole (.empty here ::
      node.ended (.exception (some (Spine.size (node :: host :: outer)))) here.left :: host ::
        outer) := ⟨trivial, hsettled⟩
  rw [hsettle] at hrefused
  cases hprimary : parts.primary with
  | some primary =>
    obtain ⟨tree₂, kind, hsettle, hshows⟩ := exists_settle_term_of_some hshows.close hprimary
    rw [hsettle] at hrefused
    cases hrefused
    exact ⟨⟨_, _, hshows.reopen, hsettled⟩, nofun⟩
  | none =>
    obtain ⟨hnode, hempty⟩ := hexact hprimary
    obtain ⟨tree₂, kind, hsettle, hshows⟩ := exists_settle_term_of_none hshows.close.close hprimary
    rw [hsettle] at hrefused
    cases hrefused
    have hholds := hshows.close.holds_below
    rw [OpenNode.add, OpenNode.ended, OpenNode.add, Forest.append_assoc] at hholds
    refine ⟨⟨_, _, hshows, trivial, (hsettled.close ?_).close ?_⟩, fun _ => ⟨rfl, ?_, ?_, ?_⟩⟩
    · exact hempty.imp_right fun hempty => ⟨fun _ => hempty, fun hne => absurd rfl hne⟩
    · have htext := OpenNode.text_add node (.empty here)
      rw [show OpenNode.text (.empty here) = [] from rfl, List.append_nil] at htext
      rw [← htext] at hnode
      exact hnode
    · have hget : tree'.get? (Spine.size (host :: outer)) = _ := hholds.of_append.1
      rw [Tree.kind, hget]
      rfl
    · have hget : tree'.get? (Spine.size (node :: host :: outer)) = _ :=
        hholds.of_append.2.1.of_append.1
      rw [Tree.kind, hget]
      rfl
    · rw [hshows.size_eq, Spine.size_cons, Spine.size_cons]
      simp only [OpenNode.add, OpenNode.ended, OpenNode.empty, OpenNode.bare, Spine.size_cons,
        Forest.size_append, Forest.size_single, Forest.size_nil]
      omega

end

/-! ### What the text ends with -/

theorem Forest.eq_nil_of_size {forest : Forest} (h : forest.size = 0) : forest = nil := by
  cases forest with
  | nil => rfl
  | cons =>
    rw [size_cons] at h
    omega

/-- Behind a child that is a leaf nothing has been read, so the text of the forest ends with the
text of the leaf. -/
theorem Forest.exists_text_of_last {forest : Forest} {number : NodeId} {front : List Child}
    {child : Child} (h : forest.Each (fun id node => node.Formed id) number)
    (hrow : forest.row number = front ++ [child]) (hleaf : child.kind.isLeaf = true) :
    ∃ text, forest.text = text ++ child.data.toList := by
  have hne : forest ≠ nil := by
    rintro rfl
    simp at hrow
  obtain ⟨front', top, below, rfl⟩ := exists_last hne
  rw [row_append, row_single] at hrow
  obtain ⟨-, hchild⟩ := List.append_inj' hrow rfl
  obtain rfl := List.singleton_inj.mp hchild
  have htop := (each_single.mp (each_append.mp h).2).1
  have hbelow : below = nil := eq_nil_of_row (htop.builds.eq_nil hleaf)
  subst hbelow
  exact ⟨front'.text, by rw [text_append, text_single, text_nil, List.append_nil]⟩

section

variable {whole : List Char} {here : Position} {tree tree' : Tree} {frame : Frame}
  {below frames frames' : List Frame} {node : OpenNode} {outer : Spine} {front : List Child}
  {child : Child} {limit : Nat} {cause : Cause}

/-- The text ends with the last child of the production on top, if that is a leaf. -/
theorem Idle.exists_text_of_last {ahead : Option Char}
    (h : Idle ahead tree frame below node outer) (hrow : node.row outer.size = front ++ [child])
    (hleaf : child.kind.isLeaf = true) :
    child.kind.Spells child.data ∧ ∃ text, tree.text.toList = text ++ child.data.toList := by
  have hmem : child ∈ node.row outer.size := hrow ▸ List.mem_append_right _ List.mem_cons_self
  refine ⟨Forest.spells_of_mem_row h.sound.formed hmem, ?_⟩
  obtain ⟨text, htext⟩ := Forest.exists_text_of_last h.sound.formed hrow hleaf
  refine ⟨outer.text ++ text, ?_⟩
  rw [h.carries.shows.text, Spine.text_cons, OpenNode.text, h.sound.data, String.toList_empty,
    List.nil_append, htext, List.append_assoc]

/-- Where the next character is known to stand, the production on top has some text. -/
theorem Resting.text_ne_nil (rest : Resting True whole tree (frame :: below) (node :: outer))
    (done_eq : Spine.text (node :: outer) = whole) : node.text ≠ [] := by
  intro hnil
  have hfirst := (List.getElem?_eq_some_iff.mp (rest.waiting.begun_top.first trivial)).1
  rw [length_places, ← done_eq, Spine.text_cons, hnil, List.append_nil] at hfirst
  exact Nat.lt_irrefl _ hfirst

/-- A dash behind which nothing was read is no line feed, so the place in front of the next
character is one in the same line. -/
theorem column_ne_zero_of_dash {id : NodeId} {parts : TermParts}
    (hs : (Sight.mk none here).Reads whole whole)
    (rest : Resting True whole tree (.term id parts true :: below) (node :: outer))
    (done_eq : Spine.text (node :: outer) = whole)
    (hgrown : Grown none tree (.term id parts true :: below)) : here.column ≠ 0 := by
  cases hgrown with
  | idle hidle =>
    obtain ⟨-, -, front, dash, hrow, -, -, hkind, hdash⟩ := hidle.fits.shape
    obtain ⟨-, text, htext⟩ := hidle.exists_text_of_last hrow (by rw [hkind]; rfl)
    rw [List.mem_singleton.mp hdash, rest.text_eq, done_eq] at htext
    have hhere : here = (Position.start.afterAll text).after '-' := by
      rw [show here = Position.start.afterAll whole from hs.here_eq, htext,
        Position.afterAll_append]
      rfl
    rw [hhere]
    exact column_after_ne_zero nofun

/-- An exception of which something was read, but no primary, ends with white space. It has no other
children that it could have. -/
theorem exists_blank_of_exception {id host : NodeId}
    (rest : Resting True whole tree (.exception id host none :: below) (node :: outer))
    (done_eq : Spine.text (node :: outer) = whole)
    (hgrown : Grown none tree (.exception id host none :: below)) :
    ∃ front last, whole = front ++ [last] ∧ isSpace last = true := by
  cases hgrown with
  | @idle _ _ node' outer' hidle =>
    obtain ⟨hid, -, hrow⟩ := hidle.fits.shape
    rcases matches_single.mp hrow with hrow | ⟨blank, hrow, hkind⟩
    · -- without children there would be no text
      have hnil : node'.below = .nil := Forest.eq_nil_of_row hrow
      have hsize := rest.shows.size_eq.symm.trans hidle.carries.size_eq
      have hsame : outer.size = outer'.size :=
        (Option.some.inj rest.waiting.id_eq_size).symm.trans hid
      rw [Spine.size_cons, Spine.size_cons, hsame, hnil] at hsize
      have hbelow : node.below = .nil := Forest.eq_nil_of_size (Nat.add_left_cancel hsize)
      refine absurd ?_ (rest.text_ne_nil done_eq)
      rw [OpenNode.text, rest.waiting.begun_top.data, hbelow]
      rfl
    · have hleaf : blank.kind.isLeaf = true := by rw [hkind]; rfl
      have hlast : node'.row outer'.size = [] ++ [blank] := hrow
      obtain ⟨hspells, text, htext⟩ := hidle.exists_text_of_last hlast hleaf
      rw [hkind] at hspells
      obtain ⟨hne, hblank⟩ := hspells
      rw [rest.text_eq, done_eq] at htext
      rcases List.eq_nil_or_concat blank.data.toList with hnil | ⟨front, last, hdata⟩
      · exact absurd (String.toList_eq_nil_iff.mp hnil) hne
      · rw [List.concat_eq_append] at hdata
        refine ⟨text ++ front, last, by rw [htext, hdata, List.append_assoc], hblank last ?_⟩
        rw [hdata]
        exact List.mem_append_right _ List.mem_cons_self

/-! ### What is refused at the end of the input -/

/-- The production lets another one begin at the end of the input, or it ends there with an empty
string. -/
def Frame.begins : Frame → Bool
  | product _ _ .equals | definitions _ .start | bracket _ _ (.opened _) | quoted _ _ none => true
  | term .. | exception _ _ none => true
  | _ => false

/-- Unless something begins, the machine stands as it may stand with no next character to come. -/
theorem Standing.again_atEnd (hs : (Sight.mk none here).Reads whole whole)
    (h : Standing True whole whole tree (frame :: below)) (hbegins : frame.begins = false)
    (hstep : step limit ⟨none, here⟩ tree (frame :: below) = .again tree' frames') :
    Standing True whole whole tree' frames' := by
  have hagain : (step limit ⟨none, here⟩ tree (frame :: below)).Keeps True ⟨none, here⟩ whole
      whole → Standing True whole whole tree' frames' := by
    rw [hstep]
    exact id
  cases h with
  | fresh => cases hstep
  | @idle _ _ node outer rest done_eq ready =>
    have hid := rest.waiting.id_eq_size
    cases frame with
    | closing id => exact hagain (keeps_stepClosing rest done_eq ready)
    | exception id host primary =>
      cases primary with
      | none => cases hbegins
      | some primary =>
        obtain rfl : id = outer.size := Option.some.inj hid
        exact hagain ((rest.withKind (.exception (some primary))).leaveAtLastChild nofun nofun
          done_eq (ready rfl))
    | definitions id stage =>
      cases stage with
      | start => cases hbegins
      | afterSlash => cases hid
      | afterDefinition =>
        -- there is no next character, and so no place for it
        obtain ⟨place, hplace, -⟩ := ready trivial
        rw [List.getElem?_eq_none (Nat.le_of_eq (length_places whole))] at hplace
        cases hplace
    | grammar begun => cases begun <;> cases hstep
    | product id lhs stage =>
      match stage, hid, hbegins with
      | .name, _, _ | .body list none, _, _ => cases hstep
    | bracket b id stage =>
      match stage, hid, hbegins with
      | .body none, _, _ => cases hstep
    | quoted form id text =>
      cases text with
      | none => cases hbegins
      | some run => cases hid
    | comment | definition | repetition => cases hstep
    | term => cases hbegins
    | paren | opener | identifier | run | literal | matched => cases hid
  | comment rest grows done_eq placed => cases hstep
  | product rest done_eq denotes => cases hstep
  | bracket rest done_eq denotes => exact hagain (keeps_stepBracket_handed hs rest done_eq denotes)
  | slash rest done_eq denotes column => cases hstep
  | paren rest admitted parent_eq done_eq denotes => cases hstep
  | opener rest admitted parent_eq done_eq denotes =>
    exact hagain (keeps_attachBracket hs rest admitted parent_eq done_eq denotes)
  | quoted fill run_eq done_eq first => cases hstep
  | run fill admitted id_eq done_eq denotes =>
    exact hagain (keeps_stepRun hs fill admitted id_eq done_eq denotes)
  | identifier fill admitted id_eq parent_eq done_eq spelt =>
    exact hagain (keeps_stepIdentifier hs fill admitted id_eq parent_eq done_eq spelt)
  | literal fill admitted id_eq data plain goes done_eq first => cases hstep
  | matched fill admitted id_eq data length done_eq denotes =>
    exact hagain (keeps_stepMatched fill admitted id_eq done_eq denotes)

/-- What begins at the end of the input below the production on top leaves a settled tree. -/
theorem Resting.settled_of_begins {exempt : NodeId → Prop}
    (rest : Resting True whole tree (frame :: below) (node :: outer))
    (hrefused : settle limit ⟨none, here⟩ tree (frame :: below) = .rejected tree' cause)
    (hbegins : frame.begins = true) (hterm : frame.component ≠ .term)
    (hexception : frame.component ≠ .exception) : tree'.Settled exempt whole := by
  have hid := rest.waiting.id_eq_size
  have hlengthened : ∀ {started : Tree} {latest : NodeId} {cause' : Cause},
      settle limit ⟨none, here⟩ tree (frame :: below) = .rejected started cause' →
      tree.Lengthens outer.size started latest → tree'.Settled exempt whole := by
    intro started latest cause' hsettle hlengthens
    rw [hsettle] at hrefused
    cases hrefused
    exact hlengthens.settled rest.shows rfl rest.waiting.settled
  cases frame with
  | product id lhs stage =>
    match stage, hid, hbegins with
    | .equals, hid, _ =>
      obtain rfl : id = outer.size := Option.some.inj hid
      exact hlengthened settle_product_atEnd (.push (.push .refl ..) ..)
  | definitions id stage =>
    match stage, hid, hbegins with
    | .start, hid, _ =>
      obtain rfl : id = outer.size := Option.some.inj hid
      exact hlengthened settle_definitions_atEnd (.push .refl ..)
  | bracket b id stage =>
    match stage, hid, hbegins with
    | .opened opening, hid, _ =>
      obtain rfl : id = outer.size := Option.some.inj hid
      exact hlengthened settle_bracket_atEnd (.push (.push (.withKind .refl _) ..) ..)
  | quoted form id text =>
    match text, hid, hbegins with
    | none, hid, _ =>
      have hid : id = outer.size := by
        rw [Frame.waiting?] at hid
        split at hid
        · cases hid
        · exact Option.some.inj hid
      subst hid
      exact hlengthened settle_quoted_atEnd (.push .refl ..)
  | term => exact absurd rfl hterm
  | exception => exact absurd rfl hexception
  | _ => cases hbegins

/-- A production in which something begins at the end of the input waits for it. -/
theorem Standing.exists_rest (h : Standing True whole whole tree (frame :: below))
    (hbegins : frame.begins = true) :
    ∃ node outer, Resting True whole tree (frame :: below) (node :: outer) ∧
      Spine.text (node :: outer) = whole ∧ frame.Ready True whole whole.length node := by
  cases h with
  | idle rest done_eq ready => exact ⟨_, _, rest, done_eq, ready⟩
  | _ => cases hbegins

/-- A term stands in a definition, which has noted it as its last one. -/
theorem Frame.eq_definition_of_term {host : Frame} (h : .term ∈ host.components) :
    ∃ id start term, host = .definition id start (some term) := by
  unfold components at h
  split at h <;> simp_all

/-- An exception stands in a term, whose dash is read already. -/
theorem Frame.eq_term_of_exception {host : Frame} (h : .exception ∈ host.components) :
    ∃ id parts, host = .term id parts false := by
  unfold components at h
  split at h <;> simp_all

/-- A term and the definition around it are on top. -/
theorem Waiting.exists_definition {sure : Prop} {id : NodeId} {parts : TermParts} {dash : Bool}
    (h : Waiting sure whole (.term id parts dash :: below) (node :: outer)) :
    id = outer.size ∧ ∃ number start term below',
      below = .definition number start term :: below' := by
  obtain ⟨host, below', -, -, rfl, -, hadmitted, -⟩ := h.exists_host nofun
  obtain ⟨number, start, term, rfl⟩ := Frame.eq_definition_of_term hadmitted
  exact ⟨Option.some.inj h.id_eq_size, number, start, some term, below', rfl⟩

/-- What a term leaves that ends at the end of the input is settled. -/
theorem Resting.settled_of_term {exempt : NodeId → Prop} {id : NodeId} {parts : TermParts}
    (rest : Resting True whole tree (.term id parts false :: below) (node :: outer))
    (ready : parts.primary.isSome → node.below ≠ .nil)
    (hrefused : settle limit ⟨none, here⟩ tree (.term id parts false :: below) =
      .rejected tree' cause) : tree'.Settled exempt whole := by
  obtain ⟨rfl, number, start, term, below', rfl⟩ := rest.waiting.exists_definition
  exact settled_of_term_atEnd rest.shows rest.waiting.settled ready hrefused

/-- What an exception leaves that begins at the end of the input is settled, because it stands
behind a dash and not at the start of a line. -/
theorem Resting.settled_of_dash {exempt : NodeId → Prop} {id : NodeId} {parts : TermParts}
    (hs : (Sight.mk none here).Reads whole whole)
    (rest : Resting True whole tree (.term id parts true :: below) (node :: outer))
    (done_eq : Spine.text (node :: outer) = whole)
    (hgrown : Grown none tree (.term id parts true :: below))
    (hrefused : settle limit ⟨none, here⟩ tree (.term id parts true :: below) =
      .rejected tree' cause) : tree'.Settled exempt whole := by
  have hgap := Span.isEmpty_gap (column_ne_zero_of_dash hs rest done_eq hgrown)
  obtain ⟨rfl, number, start, term, below', rfl⟩ := rest.waiting.exists_definition
  have hkind := rest.withKind (.term parts)
  have hshows := hkind.shows.push (.exception none) (.point here) ""
  rw [settle_dash_atEnd, rest.shows.size_eq] at hrefused
  refine (settled_of_exception_atEnd hshows ⟨trivial, hkind.waiting.settled⟩ (fun _ => ?_)
    hrefused).1
  exact ⟨Or.inr ⟨fun _ => hgap, fun hne => absurd rfl hne⟩, Or.inr hgap⟩

end

/-! ### Exceptions that end with white space -/

/-- The input ended behind the white space that follows the `-` of an exception, and neither the
exception nor its term has a primary. Both end with an empty string that begins at the last
character, although that is white space of the exception: the exception ends left of its last
character, or, where this is a line feed, its empty string is not empty. -/
structure Tree.Lapse (whole : List Char) (cause : Cause) (tree : Tree) (id : NodeId) : Prop where
  /-- A definition was to go on. -/
  ended : ∃ start, cause = .endOfInput (.definition start)
  /-- The exception, or its empty string, behind which only that of the term was added. -/
  exception : ∃ front last host empty, whole = front ++ [last] ∧ isSpace last = true ∧
    tree.kind host = .exception (some empty) ∧ tree.kind empty = .primary .emptyString ∧
    empty + 2 = tree.size ∧
    id = if last = '\n' then empty else host

section

variable {whole : List Char} {here : Position} {tree tree' : Tree} {frame : Frame}
  {below frames : List Frame} {node : OpenNode} {outer : Spine} {limit : Nat} {cause : Cause}

/-- A line feed has no place on its left, so a node that is to end in front of it ends with it. In
front of any other character there is a gap. -/
theorem Resting.exact_or_isEmpty {front : List Char} {last : Char}
    (hs : (Sight.mk none here).Reads whole whole)
    (rest : Resting True whole tree (frame :: below) (node :: outer))
    (done_eq : Spine.text (node :: outer) = whole) (hwhole : whole = front ++ [last]) :
    (last ≠ '\n' ∨
        Span.Exact whole outer.text.length node.text ⟨node.label.span.first, here.left⟩) ∧
      (last = '\n' ∨ (Span.gap here).isEmpty = true) := by
  have hhere : here = (Position.start.afterAll front).after last := by
    rw [show here = Position.start.afterAll whole from hs.here_eq, hwhole, Position.afterAll_append]
    rfl
  by_cases hfeed : last = '\n'
  · refine ⟨Or.inr (Span.Denotes.exact ?_), Or.inl hfeed⟩
    have hleft : here.left = here := by
      rw [hhere, hfeed]
      rfl
    have hlast := hs.place_last (by rw [hwhole]; simp)
    rw [← done_eq, Spine.text_cons, List.length_append, ← Spine.text_cons, done_eq] at hlast
    rw [hleft]
    exact Span.denotes_of_ends (rest.text_ne_nil done_eq) (rest.waiting.begun_top.first trivial)
      hlast
  · exact ⟨Or.inl hfeed, Or.inr (Span.isEmpty_gap (hhere ▸ column_after_ne_zero hfeed))⟩

/-- What an exception leaves that ends at the end of the input is settled, but for a lapse. -/
theorem Resting.settled_of_exception {id number : NodeId}
    (hs : (Sight.mk none here).Reads whole whole)
    (rest : Resting True whole tree (.exception id number none :: below) (node :: outer))
    (done_eq : Spine.text (node :: outer) = whole)
    (hgrown : Grown none tree (.exception id number none :: below))
    (hrefused : settle limit ⟨none, here⟩ tree (.exception id number none :: below) =
      .rejected tree' cause) : tree'.Settled (tree'.Lapse whole cause) whole := by
  obtain ⟨front, last, hwhole, hspace⟩ := exists_blank_of_exception rest done_eq hgrown
  obtain ⟨hnode, hempty⟩ := rest.exact_or_isEmpty hs done_eq hwhole
  obtain rfl : id = outer.size := Option.some.inj rest.waiting.id_eq_size
  obtain ⟨_, below', host, outer, rfl, rfl, hadmitted, hwaiting⟩ := rest.waiting.exists_host nofun
  obtain ⟨_, parts, rfl⟩ := Frame.eq_term_of_exception hadmitted
  obtain ⟨rfl, definition, start, term, below', rfl⟩ := hwaiting.exists_definition
  -- only a term that gets an empty string, too, has the exception off the edge
  let lapses (id : NodeId) : Prop := parts.primary = none ∧
    id = if last = '\n' then Spine.size (node :: host :: outer) else Spine.size (host :: outer)
  have hsettled : Spine.Settled lapses whole (node :: host :: outer) := rest.waiting.settled
  obtain ⟨hsettled, hlapse⟩ := settled_of_exception_atEnd rest.shows hsettled (fun hprimary => ⟨
    hnode.imp_left fun hfeed => ⟨hprimary, (if_neg hfeed).symm⟩,
    hempty.imp_left fun hfeed => ⟨hprimary, (if_pos hfeed).symm⟩⟩) hrefused
  refine hsettled.mono fun id ⟨hprimary, hid⟩ => ?_
  obtain ⟨hcause, hkind, hempty, hsize⟩ := hlapse hprimary
  exact ⟨⟨start, hcause⟩, front, last, _, _, hwhole, hspace, hkind, hempty, hsize, hid⟩

/-- What is refused at the end of the input leaves a tree that is settled, but for a lapse. -/
theorem Standing.settled_settle_atEnd (hs : (Sight.mk none here).Reads whole whole)
    (h : Standing True whole whole tree frames) (hgrown : Grown none tree frames)
    (hrefused : settle limit ⟨none, here⟩ tree frames = .rejected tree' cause) :
    tree'.Settled (tree'.Lapse whole cause) whole := by
  -- a step that leaves the character makes the stack lighter, so the induction is on its weight
  induction hw : weight frames using Nat.strongRecOn generalizing tree frames with
  | ind n ih =>
    cases frames with
    | nil => cases h
    | cons frame below =>
      cases hbegins : frame.begins with
      | false =>
        have hgrows : (step limit ⟨none, here⟩ tree (frame :: below)).Grows none :=
          grows_step limit hgrown
        rw [settle_eq] at hrefused
        cases hstep : step limit ⟨none, here⟩ tree (frame :: below) with
        | again tree₁ frames₁ =>
          rw [hstep] at hgrows hrefused
          exact ih _ (hw ▸ weight_lt_of_step hstep) (h.again_atEnd hs hbegins hstep) hgrows
            hrefused rfl
        | next tree₁ frames₁ => exact absurd hstep step_ne_next
        | accept tree₁ =>
          rw [hstep] at hrefused
          cases hrefused
        | reject tree₁ cause₁ =>
          rw [hstep] at hrefused
          cases hrefused
          exact h.settled_of_reject hstep
      | true =>
        obtain ⟨node, outer, rest, done_eq, ready⟩ := h.exists_rest hbegins
        cases frame with
        | term id parts dash =>
          cases dash with
          | true => exact rest.settled_of_dash hs done_eq hgrown hrefused
          | false => exact rest.settled_of_term ready hrefused
        | exception id host primary =>
          cases primary with
          | none => exact rest.settled_of_exception hs done_eq hgrown hrefused
          | some primary => cases hbegins
        | product | definitions | bracket | quoted =>
          exact rest.settled_of_begins hrefused hbegins nofun nofun
        | _ => cases hbegins

end

/-! ### Failures -/

/-- What is refused leaves a tree that is a part of the text and settled, but for a lapse. -/
theorem Reached.settled_of_refuses {limit : Nat} {front back : List Char} {config : Config}
    {error : ParseError} (h : Reached limit front config)
    (hrefuses : config.Refuses limit back.head? error) :
    error.tree.text.toList <+: front ++ back ∧
      error.tree.Settled (error.tree.Lapse (front ++ back) error.cause) (front ++ back) := by
  cases back with
  | nil =>
    have hkeeps := h.between.keeps_settle_atEnd limit
    have hsettle : settle limit ⟨none, config.position⟩ config.tree config.frames = _ :=
      hrefuses.settle_eq
    rw [hsettle] at hkeeps
    obtain ⟨read, htext, -⟩ := hkeeps
    rw [List.append_nil]
    exact ⟨⟨read, htext⟩,
      h.between.standing.settled_settle_atEnd h.between.reads_none (h.grown none) hsettle⟩
  | cons c back =>
    have hkeeps := h.between.keeps_settle limit c
    have hsettle : settle limit ⟨some c, config.position.after c⟩ config.tree config.frames = _ :=
      hrefuses.settle_eq
    rw [hsettle] at hkeeps
    obtain ⟨read, htext, -⟩ := hkeeps
    rw [← List.singleton_append, ← List.append_assoc]
    refine ⟨⟨read ++ back, by rw [← List.append_assoc, htext]⟩, ?_⟩
    exact (h.between.standing.weaken id [c]).settled_settle (h.between.reads_some c) rfl hsettle
      back

/-- **Finished spans.** In the tree of a failure every node but the one that was added last and
those above it has an exact span, unless the input lapsed behind an exception. -/
theorem exactAt_of_parseText_error {text : String} {limit : Nat} {error : ParseError} {id : NodeId}
    (h : parseText text limit = .error error) (hid : id < error.tree.size)
    (hoff : ¬error.tree.OnEdge id) :
    error.tree.ExactAt text.toList id ∨ error.tree.Lapse text.toList error.cause id := by
  obtain ⟨front, back, config, htext, hreached, hrefuses⟩ := exists_reached_of_error h
  obtain ⟨hread, hsettled⟩ := hreached.settled_of_refuses hrefuses
  rw [← htext] at hread hsettled
  exact (hsettled.exactAt hread hid hoff).symm

/-- The reading fails, and in the tree of the failure the node is not on the edge. -/
def leavesOffEdge (id : NodeId) (result : Except ParseError Tree) : Bool :=
  match result with
  | .ok _ => false
  | .error error => id < error.tree.size ∧ id ∉ error.tree.edge ∧
    Tree.ancestor? error.tree.nodes error.tree.size (error.tree.size - 1) = none

theorem exists_error_of_leavesOffEdge {id : NodeId} {result : Except ParseError Tree}
    (h : leavesOffEdge id result = true) :
    ∃ error, result = .error error ∧ id < error.tree.size ∧ ¬error.tree.OnEdge id := by
  cases result with
  | ok tree => cases h
  | error error =>
    obtain ⟨hid, hoff, hnone⟩ := of_decide_eq_true h
    exact ⟨error, rfl, hid, fun hedge => hoff ((Tree.onEdge_iff_mem_edge hnone).mp hedge)⟩

/-- An exception behind which a comma was read, and one behind which the input lapsed. -/
theorem exactAt_of_parseText_error_exception :
    (∃ error, parseText "x='a'-b c," 0 = .error error ∧ 12 < error.tree.size ∧
      ¬error.tree.OnEdge 12 ∧ (error.tree.ExactAt "x='a'-b c,".toList 12 ∨
        error.tree.Lapse "x='a'-b c,".toList error.cause 12)) ∧
    ∃ error, parseText "x=2*- " 0 = .error error ∧ 11 < error.tree.size ∧
      ¬error.tree.OnEdge 11 ∧ (error.tree.ExactAt "x=2*- ".toList 11 ∨
        error.tree.Lapse "x=2*- ".toList error.cause 11) := by
  constructor
  · obtain ⟨error, herror, hid, hoff⟩ := exists_error_of_leavesOffEdge
      (show leavesOffEdge 12 (parseText "x='a'-b c," 0) = true by decide +kernel)
    exact ⟨error, herror, hid, hoff, exactAt_of_parseText_error herror hid hoff⟩
  · obtain ⟨error, herror, hid, hoff⟩ := exists_error_of_leavesOffEdge
      (show leavesOffEdge 11 (parseText "x=2*- " 0) = true by decide +kernel)
    exact ⟨error, herror, hid, hoff, exactAt_of_parseText_error herror hid hoff⟩

/-- Not every node off the edge is exact: the exception in `x=2*- ` ends in front of its blank. -/
theorem not_exactAt_of_parseText_error :
    ¬∀ (text : String) (error : ParseError) (id : NodeId), parseText text = .error error →
      id < error.tree.size → ¬error.tree.OnEdge id → error.tree.ExactAt text.toList id := by
  intro h
  obtain ⟨error, herror, hid, hoff⟩ := exists_error_of_leavesOffEdge
    (show leavesOffEdge 11 (parseText "x=2*- ") = true by decide +kernel)
  have hexact := h "x=2*- " error 11 herror hid hoff
  have hfalse : (match parseText "x=2*- " with
      | .ok _ => false
      | .error error => decide (error.tree.ExactAt "x=2*- ".toList 11)) = false := by
    decide +kernel
  rw [herror] at hfalse
  exact of_decide_eq_false hfalse hexact

end LosslessEbnf
