import LosslessEbnf.Parse
import LosslessEbnf.Proofs.Completeness
import LosslessEbnf.Proofs.Shape

/-!
# Names that are defined and referred to

A name is read on the left of a product and as the primary of a term. On the left it is read
whatever letter it begins with. A term asks for a digit before it asks for a letter, so a name whose
first letter is a digit as well is taken for the number of a repetition.

## Main Definitions

* `Tree.face` — what a node was read as, what stands below it and which text it holds
* `Tree.Defines` — the text is one product with the given name
* `Tree.RefersTo` — the text is one product with a single term that is the given name
* `LacksStar` — a text is refused for want of the star of a repetition

## Main Statements

* `runsTo_openIdentifier` — a name is read in full into a node of its own
* `runsTo_definition` — how a product with a single definition ends, and the text with it
* `lacksStar_repetition` — behind the digits of a repetition only a text with a star is read
* `refersTo_iff_of_isName` — every name can be defined, and referred to unless it begins with a
  digit

## Design Notes

The runs are followed step by step with the tree that they build. A leaf that is still growing is
the last node of the tree, so it is the same tree as if the whole leaf had been added at once.
-/

namespace LosslessEbnf

/-! ### Leaves that grow -/

namespace Tree

variable {tree : Tree} {parent : NodeId} {kind : Kind} {span : Span} {data : String}

/-- A change to the child that was just added is the same as adding the changed child. -/
theorem update_pushChild {kind' : Kind} {span' : Span} {data' : String} {change : Node → Node}
    (h : ∀ children depth, change ⟨kind, some parent, children, depth, span, data⟩ =
      ⟨kind', some parent, children, depth, span', data'⟩) :
    (tree.pushChild parent kind span data).update tree.size change =
      tree.pushChild parent kind' span' data' := by
  rw [update, pushChild, pushChild]
  congr 1
  refine Array.ext_getElem? fun i => ?_
  rw [Array.getElem?_modify, Array.getElem?_push, Array.getElem?_push, Array.size_modify, size]
  by_cases hi : tree.nodes.size = i
  · rw [if_pos hi, if_pos hi.symm, if_pos hi.symm, Option.map_some, h]
  · rw [if_neg hi, if_neg fun heq => hi heq.symm, if_neg fun heq => hi heq.symm]

/-- A character that is put into a leaf that was just added. -/
theorem pushText_pushChild (c : Char) :
    (tree.pushChild parent kind span data).pushText tree.size c =
      tree.pushChild parent kind span (data.push c) :=
  update_pushChild fun _ _ => rfl

/-- A character with which a leaf that was just added ends. -/
theorem extend_pushChild (c : Char) (here : Position) :
    (tree.pushChild parent kind span data).extend tree.size c here =
      tree.pushChild parent kind ⟨span.first, here⟩ (data.push c) := by
  rw [extend, pushText_pushChild]
  exact update_pushChild fun _ _ => rfl

/-- A mark that was just added gets its text. -/
theorem matched_pushChild (text : String) (last : Position) :
    ((tree.pushChild parent kind span data).withData tree.size text).withLast tree.size last =
      tree.pushChild parent kind ⟨span.first, last⟩ text := by
  have hdata : (tree.pushChild parent kind span data).withData tree.size text =
      tree.pushChild parent kind span text := update_pushChild fun _ _ => rfl
  rw [hdata]
  exact update_pushChild fun _ _ => rfl

end Tree

/-! ### What a node holds -/

namespace Tree

variable {tree : Tree} {id other parent : NodeId} {kind : Kind} {span : Span} {data : String}

/-- What a node was read as, what stands below it and which text it holds. -/
def face (tree : Tree) (id : NodeId) : Kind × List NodeId × String :=
  (tree.kind id, tree.children id, tree.data id)

theorem face_update {change : Node → Node}
    (h : ∀ node, (change node).kind = node.kind ∧ (change node).children = node.children ∧
      (change node).data = node.data) :
    (tree.update id change).face other = tree.face other := by
  unfold face Tree.kind children Tree.data
  rw [get?_update]
  split
  · cases tree.get? other with
    | none => rfl
    | some node =>
      obtain ⟨hkind, hchildren, hdata⟩ := h node
      simp only [Option.map_some, Option.getD_some, hkind, hchildren, hdata]
  · rfl

@[simp] theorem face_withFirst (first : Position) :
    (tree.withFirst id first).face other = tree.face other :=
  face_update fun _ => ⟨rfl, rfl, rfl⟩

@[simp] theorem face_withLast (last : Position) :
    (tree.withLast id last).face other = tree.face other :=
  face_update fun _ => ⟨rfl, rfl, rfl⟩

@[simp] theorem face_closeAtLastChild :
    (tree.closeAtLastChild id).face other = tree.face other := by
  unfold closeAtLastChild
  split
  · exact face_withLast _
  · rfl

@[simp] theorem face_withKind (h : id < tree.size) :
    (tree.withKind id kind).face other =
      if id = other then (kind, (tree.face other).2) else tree.face other := by
  unfold face Tree.kind children Tree.data
  rw [withKind, get?_update]
  split
  · rename_i heq
    obtain ⟨node, hnode⟩ := Option.isSome_iff_exists.mp (isSome_get?_iff.mpr (heq ▸ h))
    rw [hnode]
    rfl
  · rfl

@[simp] theorem face_pushChild (h : parent < tree.size) :
    (tree.pushChild parent kind span data).face other =
      if other = tree.size then (kind, [], data)
      else if parent = other then
        ((tree.face other).1, (tree.face other).2.1 ++ [tree.size], (tree.face other).2.2)
      else tree.face other := by
  unfold face Tree.kind children Tree.data
  by_cases hsize : other = tree.size
  · rw [if_pos hsize, hsize, get?_pushChild_size]
    rfl
  · rw [if_neg hsize, get?_pushChild_of_ne hsize]
    split
    · rename_i heq
      obtain ⟨node, hnode⟩ := Option.isSome_iff_exists.mp (isSome_get?_iff.mpr (heq ▸ h))
      rw [hnode]
      rfl
    · rfl

@[simp] theorem size_withKind : (tree.withKind id kind).size = tree.size := size_update ..

@[simp] theorem size_withFirst (first : Position) : (tree.withFirst id first).size = tree.size :=
  size_update ..

@[simp] theorem size_withLast (last : Position) : (tree.withLast id last).size = tree.size :=
  size_update ..

@[simp] theorem face_root_empty : empty.face 0 = (.root, [], "") := rfl

theorem kind_eq_face : tree.kind id = (tree.face id).1 := rfl

theorem children_eq_face : tree.children id = (tree.face id).2.1 := rfl

theorem data_eq_face : tree.data id = (tree.face id).2.2 := rfl

end Tree

/-! ### Names and marks in a run -/

/-- A name begins with a letter, which may be a digit as well. -/
theorem IsName.isLetter {c : Char} {name : List Char} (h : IsName (c :: name)) :
    isLetter c = true := by
  obtain ⟨d, rest, hcons, hletter⟩ := h.letter
  rwa [(List.cons.inj hcons).1]

/-- A letter is a name on its own. -/
theorem isName_singleton {c : Char} (h : isLetter c = true) : IsName [c] where
  letter := ⟨c, [], rfl, h⟩
  parts := by
    intro d hd
    obtain rfl := List.mem_singleton.mp hd
    rw [isNamePart, h, Bool.true_or, Bool.true_or]
  solid := ⟨[], c, rfl, isSpace_eq_false_of_isLetter h⟩

section

variable {limit : Nat} {Q : Except ParseError Tree → Prop} {tree : Tree} {parent : NodeId}
  {frames : List Frame} {here : Position} {c : Char} {text : List Char}

/-- A mark of one character is read, and its leaf holds it. The run goes on behind it. -/
theorem runsTo_openLiteral {candidates : List String} {mark : String}
    (hplain : Marks.Plain candidates) (hmark : mark ∈ candidates) (hread : mark.toList = [c])
    (h : RunsTo limit Q (tree.pushChild parent .literal (.point here) mark) frames text) :
    (openLiteral ⟨some c, here⟩ tree frames parent candidates).RunsTo limit Q (c :: text) := by
  have hfull : candidates.any (isRead [c]) = true :=
    List.any_eq_true.mpr ⟨mark, hmark, beq_iff_eq.mpr hread⟩
  have hstops : candidates.any (goesOn [c]) = false := hread ▸ hplain.not_goesOn hmark
  unfold openLiteral stepLiteral
  dsimp only
  rw [List.nil_append, hstops, if_neg Bool.false_ne_true, if_pos hfull]
  refine runsTo_of_step fun here' => ?_
  show RunsTo limit Q (((tree.pushChild parent .literal (.point here)).withData tree.size
    (String.ofList [c])).withLast tree.size here) frames text
  rw [Tree.matched_pushChild, ← hread, String.ofList_toList]
  exact h

/-- A name is read in full. White space at its end would go into a node of its own, so none may be
there. -/
theorem runsTo_identifier {name read : List Char} {trailing : Option Span} {first last : Position}
    (hparts : ∀ x ∈ name, isNamePart x = true) (hends : text.head?.any isNamePart = false)
    (hlast : ∀ x ∈ name.getLast?, isSpace x = false) (htrailing : name = [] → trailing = none)
    (h : ∀ last, RunsTo limit Q (tree.pushChild parent (.primary .identifier) ⟨first, last⟩
      (String.ofList (read ++ name))) frames text) :
    RunsTo limit Q
      (tree.pushChild parent (.primary .identifier) ⟨first, last⟩ (String.ofList read))
      (.identifier tree.size parent trailing :: frames) (name ++ text) := by
  induction name generalizing read trailing last with
  | nil =>
    obtain rfl := htrailing rfl
    refine runsTo_of_step fun here => ?_
    show (stepIdentifier _ _ _ _ _ _).RunsTo limit Q _
    rw [List.nil_append, stepIdentifier_eq_atEnd]
    · rw [List.append_nil] at h
      exact h last
    · intro c hc
      rw [show text.head? = some c from hc] at hends
      exact hends
  | cons c name ih =>
    obtain ⟨hc, hparts⟩ := List.forall_mem_cons.mp hparts
    have hpush : (String.ofList read).push c = String.ofList (read ++ [c]) := by
      rw [String.push_eq_append, String.ofList_append, String.singleton_eq_ofList]
    have hmore : ∀ last, RunsTo limit Q (tree.pushChild parent (.primary .identifier) ⟨first, last⟩
        (String.ofList (read ++ [c] ++ name))) frames text := by
      intro last
      rw [List.append_assoc]
      exact h last
    have hlast' : ∀ x ∈ name.getLast?, isSpace x = false := by
      intro x hx
      cases name with
      | nil => cases hx
      | cons d name => exact hlast x (by rwa [List.getLast?_cons_cons])
    refine runsTo_of_step fun here => ?_
    rw [List.cons_append, List.head?_cons, step]
    unfold stepIdentifier
    dsimp only
    rw [if_pos hc]
    split
    · rename_i hspace
      rw [Tree.pushText_pushChild, hpush]
      -- a blank is not the last character of the name
      have hne : name ≠ [] := by
        rintro rfl
        rw [hlast c rfl] at hspace
        cases hspace
      exact ih hparts hlast' (fun hnil => absurd hnil hne) hmore
    · rw [Tree.extend_pushChild, hpush]
      exact ih hparts hlast' (fun _ => rfl) hmore

/-- A name is read in full from its first letter up to a character that does not belong to it, and
its leaf holds it. -/
theorem runsTo_openIdentifier {name : List Char} (hname : IsName (c :: name))
    (hends : text.head?.any isNamePart = false)
    (h : ∀ last, RunsTo limit Q (tree.pushChild parent (.primary .identifier) ⟨here, last⟩
      (String.ofList (c :: name))) frames text) :
    (openIdentifier ⟨some c, here⟩ tree frames parent c).RunsTo limit Q (c :: (name ++ text)) := by
  have hparts : ∀ x ∈ name, isNamePart x = true :=
    fun x hx => hname.parts x (List.mem_cons_of_mem c hx)
  have hlast : ∀ x ∈ name.getLast?, isSpace x = false := by
    obtain ⟨front, d, htext, hd⟩ := hname.solid
    have hlastEq : (c :: name).getLast? = some d := by rw [htext, List.getLast?_concat]
    intro x hx
    cases name with
    | nil => cases hx
    | cons e name =>
      rw [List.getLast?_cons_cons, hx] at hlastEq
      obtain rfl := Option.some.inj hlastEq
      exact hd
  show RunsTo limit Q _ _ _
  rw [String.singleton_eq_ofList]
  exact runsTo_identifier hparts hends hlast (fun _ => rfl) h

end

/-! ### Texts of one product -/

/-- The text is one product with the given name. -/
def Tree.Defines (tree : Tree) (name : String) : Prop :=
  ∃ product lhs rhs, tree.children Tree.root = [product] ∧
    tree.kind product = .product (some lhs) (some rhs) ∧
    tree.kind lhs = .primary .identifier ∧ tree.data lhs = name

/-- The text is one product with a single definition of a single term, and the term is the given
name and nothing else. -/
def Tree.RefersTo (tree : Tree) (name : String) : Prop :=
  ∃ product lhs list definition term primary, tree.children Tree.root = [product] ∧
    tree.kind product = .product (some lhs) (some list) ∧
    tree.kind list = .definitionList ∧ tree.children list = [definition] ∧
    tree.kind definition = .definition ∧ tree.children definition = [term] ∧
    tree.kind term = .term ⟨none, some primary, none⟩ ∧ tree.children term = [primary] ∧
    tree.kind primary = .primary .identifier ∧ tree.data primary = name

/-- The tree behind the `=` of the first product. -/
def Tree.named (name : String) (start first last equals : Position) : Tree :=
  let tree := (Tree.empty.withFirst Tree.root start).pushChild Tree.root (.product none none)
    (.point first)
  let tree := (tree.pushChild 1 (.primary .identifier) ⟨first, last⟩ name).withKind 1
    (.product (some 2) none)
  tree.pushChild 1 .literal (.point equals) "="

/-- The tree in which a definition, its list and its product end in front of and with a `;`, and the
text with them. -/
def Tree.concluded (tree : Tree) (product lhs list definition : NodeId)
    (inner outer mark last : Position) : Tree :=
  let tree := (tree.withLast definition inner).withLast list outer
  let tree := (tree.withKind product (.product (some lhs) (some list))).pushChild product .literal
    (.point mark) ";"
  (tree.closeAtLastChild product).withLast Tree.root last

section

variable {limit : Nat} {Q : Except ParseError Tree → Prop} {tree : Tree} {frames : List Frame}
  {c : Char} {text : List Char}

/-- A name and an equals sign begin the first product of a text, whatever follows them. -/
theorem runText_name {name : List Char} (hname : IsName (c :: name))
    (h : ∀ start first last equals, RunsTo limit Q
      (.named (String.ofList (c :: name)) start first last equals)
      [.product 1 2 .equals, .grammar true] text) :
    Q (runText limit .initial (c :: (name ++ '=' :: text))) := by
  have hletter : isLetter c = true := hname.isLetter
  suffices hrun : RunsTo limit Q .empty [.grammar false] (c :: (name ++ '=' :: text)) from
    hrun .start
  refine runsTo_of_step fun first => ?_
  refine runsTo_of_step fun here => ?_
  rw [List.head?_cons, step, stepGrammar, if_pos rfl]
  dsimp only
  rw [if_neg (ne_of_isLetter hletter List.mem_cons_self), if_pos hletter,
    openProduct_of_isLetter hletter]
  refine runsTo_openIdentifier hname (Marks.isNamePart_eq_false (by decide)) fun last => ?_
  refine runsTo_of_step fun equals => ?_
  have hplain : Marks.Plain ["="] := Marks.plain_singleton '='
  exact runsTo_openLiteral hplain List.mem_cons_self (by decide) (h _ _ _ _)

/-- Behind the equals sign of a product a list and its first definition begin, if no white space
follows. -/
theorem runsTo_equals {product lhs : NodeId} (hc : isSpace c = false)
    (h : ∀ outer inner, RunsTo limit Q
      ((tree.pushChild product .definitionList (.point outer)).pushChild tree.size .definition
        (.point inner))
      (.definition (tree.size + 1) inner none :: .definitions tree.size .afterDefinition ::
        .product product lhs (.body tree.size none) :: frames) (c :: text)) :
    RunsTo limit Q tree (.product product lhs .equals :: frames) (c :: text) := by
  have hspace : ¬(c :: text).head?.any isSpace = true := ne_true_of_eq_false hc
  refine runsTo_of_step fun outer => ?_
  dsimp only [step, stepProduct]
  rw [if_neg hspace]
  refine runsTo_of_step fun inner => ?_
  dsimp only [step, stepDefinitions]
  rw [if_neg hspace, Tree.size_pushChild]
  exact h outer inner

/-- With a semicolon behind a definition the product ends, and the text with it. The definition is
given an empty term if it has none. -/
theorem runsTo_definition {product lhs list definition : NodeId} {start : Position}
    {term : Option NodeId}
    (h : ∀ here inner outer mark last, Q (.ok ((addMissingTerm tree definition term here).concluded
      product lhs list definition inner outer mark last))) :
    RunsTo limit Q tree [.definition definition start term, .definitions list .afterDefinition,
      .product product lhs (.body list none), .grammar true] [';'] := by
  obtain ⟨hends, hcomma, hseparator⟩ := Marks.ends_of_mem (c := ';') (by decide)
  refine runsTo_of_step fun here => ?_
  dsimp only [List.head?_cons, step, stepDefinition]
  rw [if_neg (ne_true_of_eq_false hends.space), if_neg hends.not_begins, if_neg hcomma]
  refine runsTo_of_step fun outer => ?_
  dsimp only [List.head?_cons, step, stepDefinitions]
  rw [if_neg (by decide), if_neg (ne_true_of_eq_false hseparator)]
  refine runsTo_of_step fun mark => ?_
  refine runsTo_openLiteral Marks.plain_terminators List.mem_cons_self (by decide) ?_
  refine runsTo_of_step fun last => ?_
  refine runsTo_of_step fun last => ?_
  exact h ..

/-- The tree in which a term that consists of a name was read in full. -/
def Tree.withTerm (tree : Tree) (definition : NodeId) (name : String)
    (here first last : Position) : Tree :=
  let term := tree.size
  let tree := (tree.pushChild definition (.term {}) (.point here)).withKind term (.term {})
  let primary := tree.size
  let tree := (tree.pushChild term (.primary .identifier) ⟨first, last⟩ name).withKind term
    (.term ⟨none, some primary, none⟩)
  tree.closeAtLastChild term

/-- A name that does not begin with a digit is read as a term, which has it as its primary and
nothing else. -/
theorem runsTo_term_name {name : List Char} {definition : NodeId} {start : Position}
    (hname : IsName (c :: name)) (hdigit : isDigit c = false)
    (h : ∀ here first last, RunsTo limit Q
      (tree.withTerm definition (String.ofList (c :: name)) here first last)
      (.definition definition start (some tree.size) :: frames) (';' :: text)) :
    RunsTo limit Q tree (.definition definition start none :: frames)
      (c :: (name ++ ';' :: text)) := by
  have hletter : isLetter c = true := hname.isLetter
  have hspace : ¬isSpace c = true := ne_true_of_eq_false (isSpace_eq_false_of_isLetter hletter)
  have hbegins : beginsPrimary c = true := by rw [beginsPrimary, hletter, Bool.true_or]
  obtain ⟨hends, -, -⟩ := Marks.ends_of_mem (c := ';') (by decide)
  refine runsTo_of_step fun here => ?_
  dsimp only [List.head?_cons, step, stepDefinition]
  rw [if_neg hspace, if_pos (by rw [hbegins, Bool.or_true])]
  refine runsTo_of_step fun first => ?_
  dsimp only [List.head?_cons, step, stepTerm]
  rw [if_neg Bool.false_ne_true, if_neg hspace, if_neg (ne_true_of_eq_false hdigit),
    if_neg (ne_of_isLetter hletter (by decide)), if_pos hbegins, openPrimary, if_pos hletter,
    expectIdentifier_of_isLetter hletter]
  refine runsTo_openIdentifier hname (Marks.isNamePart_eq_false (by decide)) fun last => ?_
  refine runsTo_of_step fun _ => ?_
  dsimp only [List.head?_cons, step, stepTerm]
  rw [if_neg Bool.false_ne_true, if_neg (ne_true_of_eq_false hends.space),
    if_neg (ne_true_of_eq_false hends.digit), if_neg hends.dash,
    if_neg (ne_true_of_eq_false hends.primary)]
  exact h here first last

/-! ### Names that begin with a digit -/

/-- A text is refused for want of the star of a repetition. -/
def LacksStar (result : Except ParseError Tree) : Prop :=
  ∃ error read, result = .error error ∧ error.cause = .noLiteral ["*"] read

/-- What is no star is refused where a star is looked for, and the refusal says what was read. -/
theorem lacksStar_openLiteral {ahead : Option Char} {here : Position} {parent : NodeId}
    (hstar : ∀ c ∈ ahead, c ≠ '*') :
    (openLiteral ⟨ahead, here⟩ tree frames parent ["*"]).RunsTo limit LacksStar text := by
  unfold openLiteral stepLiteral
  cases ahead with
  | none => exact fun here => ⟨_, _, rfl, rfl⟩
  | some c =>
    have hstops : ["*"].any (goesOn [c]) = false := by
      rw [List.any_cons, List.any_nil, Bool.or_false, goesOn]
      rfl
    have hother : ["*"].any (isRead [c]) = false := by
      rw [List.any_cons, List.any_nil, Bool.or_false]
      refine Bool.eq_false_iff.mpr fun hread => hstar c rfl ?_
      exact (List.cons.inj (beq_iff_eq.mp hread)).1.symm
    dsimp only
    rw [List.nil_append, hstops, hother, if_neg Bool.false_ne_true, if_neg Bool.false_ne_true]
    exact fun here => ⟨_, _, rfl, rfl⟩

/-- Behind the digits of a repetition, and the white space behind them, only a text with a star is
read. -/
theorem lacksStar_repetition {id : NodeId} (hstar : '*' ∉ text) :
    RunsTo limit LacksStar tree (.repetition id :: frames) text ∧
      ∀ run node, RunsTo limit LacksStar tree (.run run node :: .repetition id :: frames) text := by
  induction text generalizing tree with
  | nil =>
    have hends : ∀ tree, RunsTo limit LacksStar tree (.repetition id :: frames) [] :=
      fun tree => runsTo_of_step fun here =>
        show (openLiteral ⟨none, here⟩ tree (.closing id :: frames) id ["*"]).RunsTo limit
          LacksStar [] from lacksStar_openLiteral fun _ hc => (Option.not_mem_none _ hc).elim
    exact ⟨hends tree, fun run node => runsTo_of_step fun here => hends _⟩
  | cons c text ih =>
    have hc : '*' ≠ c := List.ne_of_not_mem_cons hstar
    have htext : '*' ∉ text := List.not_mem_of_not_mem_cons hstar
    have hends : ∀ tree, RunsTo limit LacksStar tree (.repetition id :: frames) (c :: text) := by
      intro tree
      refine runsTo_of_step fun here => ?_
      dsimp only [List.head?_cons, step, stepRepetition, Option.any_some]
      split
      · rename_i hspace
        unfold openSpace
        dsimp only
        rw [if_pos hspace]
        exact (ih htext).2 _ _
      · refine lacksStar_openLiteral ?_
        rintro _ ⟨⟩
        exact Ne.symm hc
    refine ⟨hends tree, fun run node => runsTo_of_step fun here => ?_⟩
    dsimp only [List.head?_cons, step, stepRun]
    split
    · exact (ih htext).2 _ _
    · exact hends tree

/-- A name that begins with a digit is taken for a repetition. -/
theorem lacksStar_definition {definition : NodeId} {start : Position} (hdigit : isDigit c = true)
    (hstar : '*' ∉ text) :
    RunsTo limit LacksStar tree (.definition definition start none :: frames) (c :: text) := by
  have hspace : ¬isSpace c = true := ne_true_of_eq_false (isSpace_eq_false_of_isDigit hdigit)
  refine runsTo_of_step fun here => ?_
  dsimp only [List.head?_cons, step, stepDefinition]
  rw [if_neg hspace, if_pos (by rw [hdigit, Bool.true_or])]
  refine runsTo_of_step fun here' => ?_
  dsimp only [List.head?_cons, step, stepTerm]
  rw [if_neg Bool.false_ne_true, if_neg hspace, if_pos hdigit, openRepetition_of_isDigit hdigit]
  exact (lacksStar_repetition hstar).2 _ _

end

/-! ### Definitions and references -/

/-- The letter that stands on the left of the products that refer to a name is a name, too. -/
theorem isName_x : IsName ['x'] := isName_singleton (by with_unfolding_all decide)

section

variable {name : String}

/-- Every name can be defined: a product with the name on its left and an empty definition is
read. -/
theorem exists_defines (hname : IsName name.toList) (maxNesting : Nat) :
    ∃ tree, parseText (name ++ "=;") maxNesting = .ok tree ∧ tree.Defines name := by
  obtain ⟨c, rest, hcons, -⟩ := hname.letter
  have htext : name = String.ofList (c :: rest) := by rw [← hcons, String.ofList_toList]
  rw [parseText_eq, String.toList_append, hcons, htext]
  rw [hcons] at hname
  refine runText_name hname (Q := fun result => ∃ tree, result = .ok tree ∧
    tree.Defines (String.ofList (c :: rest))) fun start first last equals => ?_
  refine runsTo_equals (Marks.isSpace_eq_false (by decide)) fun outer inner => ?_
  refine runsTo_definition fun here inner' outer' mark last' => ⟨_, rfl, 1, 2, 4, ?_⟩
  simp [Tree.kind_eq_face, Tree.children_eq_face, Tree.data_eq_face, Tree.concluded, addMissingTerm,
    addEmptyTerm, addEmptyString, Tree.named, Tree.root]

/-- A name that does not begin with a digit can be referred to. -/
theorem exists_refersTo (hname : IsName name.toList)
    (hdigit : name.toList.head?.any isDigit = false) (maxNesting : Nat) :
    ∃ tree, parseText ("x=" ++ name ++ ";") maxNesting = .ok tree ∧ tree.RefersTo name := by
  obtain ⟨c, rest, hcons, hletter⟩ := hname.letter
  have htext : name = String.ofList (c :: rest) := by rw [← hcons, String.ofList_toList]
  rw [parseText_eq, String.toList_append, String.toList_append, hcons, htext]
  rw [hcons] at hname hdigit
  refine runText_name isName_x (Q := fun result => ∃ tree, result = .ok tree ∧
    tree.RefersTo (String.ofList (c :: rest))) fun start first last equals => ?_
  refine runsTo_equals (isSpace_eq_false_of_isLetter hletter) fun outer inner => ?_
  refine runsTo_term_name hname hdigit fun here first' last' => ?_
  refine runsTo_definition fun here' inner' outer' mark last'' => ⟨_, rfl, 1, 2, 4, 5, 6, 7, ?_⟩
  simp [Tree.kind_eq_face, Tree.children_eq_face, Tree.data_eq_face, Tree.concluded, addMissingTerm,
    Tree.withTerm, Tree.named, Tree.root]

/-- A name that begins with a digit cannot be referred to: the term takes its digits for a
repetition, and no star follows. -/
theorem lacksStar_of_isDigit (hname : IsName name.toList)
    (hdigit : name.toList.head?.any isDigit = true) (maxNesting : Nat) :
    LacksStar (parseText ("x=" ++ name ++ ";") maxNesting) := by
  obtain ⟨c, rest, hcons, -⟩ := hname.letter
  rw [hcons] at hname hdigit
  rw [parseText_eq, String.toList_append, String.toList_append, hcons]
  have hstar : '*' ∉ rest ++ [';'] := by
    intro hmem
    rcases List.mem_append.mp hmem with hin | hmark
    · have hpart := hname.parts '*' (List.mem_cons_of_mem c hin)
      rw [Marks.isNamePart_eq_false (by decide)] at hpart
      cases hpart
    · cases List.mem_singleton.mp hmark
  refine runText_name isName_x fun start first last equals => ?_
  refine runsTo_equals (isSpace_eq_false_of_isDigit hdigit) fun outer inner => ?_
  exact lacksStar_definition hdigit hstar

/-- A text that is refused for want of a star is not read. -/
theorem LacksStar.not_ok {result : Except ParseError Tree} {tree : Tree} (h : LacksStar result) :
    result ≠ .ok tree := by
  obtain ⟨error, read, rfl, -⟩ := h
  exact nofun

/-- **Names.** Every name can be defined. It can be referred to just if it does not begin with a
digit. Otherwise it is taken for a repetition, and the text is refused for want of a star. -/
theorem refersTo_iff_of_isName (hname : IsName name.toList) (maxNesting : Nat) :
    (∃ tree, parseText (name ++ "=;") maxNesting = .ok tree ∧ tree.Defines name) ∧
    ((∃ tree, parseText ("x=" ++ name ++ ";") maxNesting = .ok tree ∧ tree.RefersTo name) ↔
      name.toList.head?.any isDigit = false) ∧
    (name.toList.head?.any isDigit = true →
      LacksStar (parseText ("x=" ++ name ++ ";") maxNesting)) := by
  refine ⟨exists_defines hname maxNesting, ⟨?_, fun hdigit => ?_⟩, fun hdigit => ?_⟩
  · rintro ⟨tree, hok, -⟩
    refine Bool.eq_false_iff.mpr fun hdigit => ?_
    exact (lacksStar_of_isDigit hname hdigit maxNesting).not_ok hok
  · exact exists_refersTo hname hdigit maxNesting
  · exact lacksStar_of_isDigit hname hdigit maxNesting

end

/-- A name with a blank and a digit in it. It is defined and referred to as a whole. -/
theorem refersTo_iff_of_isName_blank :
    IsName "a b1".toList ∧ (∃ tree, parseText ("a b1" ++ "=;") 0 = .ok tree ∧ tree.Defines "a b1") ∧
      ∃ tree, parseText ("x=" ++ "a b1" ++ ";") 0 = .ok tree ∧ tree.RefersTo "a b1" := by
  have hname : IsName "a b1".toList :=
    ⟨⟨'a', [' ', 'b', '1'], by decide, by with_unfolding_all decide⟩,
      List.all_eq_true.mp (by with_unfolding_all decide),
      ⟨['a', ' ', 'b'], '1', by decide, by with_unfolding_all decide⟩⟩
  obtain ⟨hdefines, hrefers, -⟩ := refersTo_iff_of_isName hname 0
  exact ⟨hname, hdefines, hrefers.mpr (by decide +kernel)⟩

/-- A Roman numeral is a name that can be defined but not referred to. -/
theorem not_refersTo_of_isName : IsName "Ⅷ".toList ∧
    (∃ tree, parseText ("Ⅷ" ++ "=;") = .ok tree ∧ tree.Defines "Ⅷ") ∧
    ¬∃ tree, parseText ("x=" ++ "Ⅷ" ++ ";") = .ok tree ∧ tree.RefersTo "Ⅷ" := by
  have hname : IsName "Ⅷ".toList := isName_singleton (by decide +kernel)
  have hdigit : "Ⅷ".toList.head?.any isDigit = true := by decide +kernel
  refine ⟨hname, exists_defines hname _, ?_⟩
  rintro ⟨tree, hok, -⟩
  exact (lacksStar_of_isDigit hname hdigit _).not_ok hok

end LosslessEbnf
