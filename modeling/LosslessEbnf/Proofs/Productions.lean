import LosslessEbnf.Proofs.Primaries

/-!
# Productions

What the steps of terms, of definitions, of products and of the whole text come to, and from that
what every step comes to.

## Main Statements

* `keeps_stepTerm`, `keeps_stepException`, `keeps_stepRepetition` — terms and their components
* `keeps_stepDefinition`, `keeps_stepDefinitions` — definitions and lists of them
* `keeps_stepProduct`, `keeps_stepGrammar` — products and the whole text
* `keeps_step` — every step of the machine
-/

namespace LosslessEbnf

section

variable {sure : Prop} {done whole : List Char} {sight : Sight} {tree : Tree} {host : Frame}
  {below : List Frame} {leaf : Label} {node : OpenNode} {outer : Spine} {limit : Nat}

theorem keeps_stepClosing {id : NodeId}
    (rest : Resting sure whole tree (.closing id :: below) (node :: outer))
    (done_eq : Spine.text (node :: outer) = done) (ready : node.below ≠ .nil) :
    (stepClosing tree below id).Keeps sure sight done whole := by
  obtain rfl : id = outer.size := Option.some.inj rest.waiting.id_eq_size
  exact rest.leaveAtLastChild nofun nofun done_eq ready

/-! ### Terms -/

/-- An empty string begins and ends in front of the next character. -/
theorem resting_addEmptyString {frame : Frame} (hs : sight.Reads done whole)
    (rest : Resting sure whole tree (frame :: below) (node :: outer))
    (done_eq : Spine.text (node :: outer) = done)
    (column : sure → sight.ahead.isSome ∧ sight.here.column ≠ 0) :
    Resting sure whole (addEmptyString tree outer.size sight.here) (frame :: below)
        (node.add (.bare ⟨.primary .emptyString, .gap sight.here, ""⟩) :: outer) ∧
      Spine.text (node.add (.bare ⟨.primary .emptyString, .gap sight.here, ""⟩) :: outer) =
        done := by
  obtain ⟨hrest, htext⟩ := rest.pushLeaf (.primary .emptyString) (.gap sight.here)
    String.toList_empty fun hsure =>
      done_eq ▸ Span.denotes_gap (hs.place (column hsure).1) (column hsure).2
  exact ⟨hrest, by rw [htext, List.append_nil, done_eq]⟩

/-- A term ends where its last component ends, and with an empty string if it has no primary. -/
theorem keeps_endTerm {id : NodeId} {parts : TermParts} (hs : sight.Reads done whole)
    (rest : Resting sure whole tree (.term id parts false :: below) (node :: outer))
    (done_eq : Spine.text (node :: outer) = done)
    (ready : parts.primary.isSome → node.below ≠ .nil)
    (column : sure → sight.ahead.isSome ∧ sight.here.column ≠ 0) :
    (endTerm sight tree below id parts).Keeps sure sight done whole := by
  obtain rfl : id = outer.size := Option.some.inj rest.waiting.id_eq_size
  unfold endTerm
  split
  · rename_i primary hprimary
    exact rest.leaveAtLastChild nofun nofun done_eq (ready (by rw [hprimary]; rfl))
  · obtain ⟨hrest, htext⟩ := resting_addEmptyString hs rest done_eq column
    exact (hrest.withKind _).leaveAtLastChild nofun nofun htext OpenNode.add_below_ne_nil

/-- A step refuses to take the next character, and its cause explains the failure by that character
alone. -/
theorem refused_of_next {cause : Cause} {c : Char} (hs : sight.Reads done whole)
    (hc : sight.ahead = some c) (hshows : tree.Shows (node :: outer))
    (hdone : Spine.text (node :: outer) = done)
    (hexplains : ∀ offset, cause.Explains sight whole offset [c]) :
    tree.Refused sight whole cause := by
  refine refused_of_shows hs hshows hdone fun offset => ?_
  rw [hc]
  exact hexplains offset

/-- The repetition of a term begins with a digit. -/
theorem standing_pushRepetition {id : NodeId} {parts : TermParts} {c : Char}
    (hs : sight.Reads done whole) (hc : sight.ahead = some c)
    (rest : Resting sure whole tree (.term id parts false :: below) (node :: outer))
    (done_eq : Spine.text (node :: outer) = done) :
    Standing sure whole whole
      ((tree.pushChild outer.size .repetition (.point sight.here)).pushChild tree.size .number
        (.point sight.here) (String.singleton c))
      (.run .number (tree.size + 1) :: .repetition tree.size :: .term id parts false :: below) := by
  have hplace := hs.place (by rw [hc]; rfl)
  rw [← done_eq] at hplace
  have hrepetition := rest.push (.repetition tree.size) .repetition (.point sight.here)
    (List.mem_of_elem_eq_true rfl) rfl fun _ => hplace
  rw [rest.shows.size_eq] at hrepetition ⊢
  refine .run ⟨hrepetition.shows.push .., hrepetition.waiting⟩ (List.mem_of_elem_eq_true rfl) rfl
    ?_ ?_
  · rw [Spine.text_bare_cons, String.toList_singleton, done_eq, hs.whole_of_some hc]
  · rw [Spine.text_bare_cons, String.toList_singleton]
    exact Span.denotes_point hplace

/-- A term goes on with its next component, or ends. Its refusals name the component that was there
before. -/
theorem keeps_stepTerm {id : NodeId} {parts : TermParts} {dash : Bool} (hs : sight.Reads done whole)
    (hsure : sure → sight.ahead.isSome)
    (rest : Resting sure whole tree (.term id parts dash :: below) (node :: outer))
    (done_eq : Spine.text (node :: outer) = done)
    (ready : (Frame.term id parts dash).Ready sure whole done.length node) :
    (stepTerm limit sight tree below id parts dash).Keeps sure sight done whole := by
  obtain rfl : id = outer.size := Option.some.inj rest.waiting.id_eq_size
  have hrest := rest.withKind (.term parts)
  have hnext : ∀ parts' dash', Resting sure whole _ (.term outer.size parts' dash' :: below) _ :=
    fun parts' dash' => hrest.advance (.term outer.size parts' dash') nofun rfl rfl
  unfold stepTerm
  cases dash with
  | true =>
    have hexception := (hnext { parts with exception := some tree.size } false).push
      (.exception tree.size outer.size none) (.exception none) (.point sight.here)
      (List.mem_of_elem_eq_true rfl) (by rw [Tree.withKind, Tree.size_update]; rfl)
      fun h => done_eq ▸ hs.place (hsure h)
    dsimp only
    rw [if_pos rfl, Tree.withKind, Tree.size_update]
    exact .idle hexception ((Spine.text_bare_cons ..).trans done_eq) nofun
  | false =>
    dsimp only
    rw [if_neg nofun]
    cases hc : sight.ahead with
    | none =>
      refine keeps_endTerm hs hrest done_eq ready fun h => ?_
      have := hsure h
      rw [hc] at this
      cases this
    | some c =>
      have hsome : sight.ahead.isSome := by rw [hc]; rfl
      dsimp only
      split
      · exact keeps_openSpace hs hrest List.mem_cons_self rfl done_eq
      · rename_i hspace
        split
        · -- a repetition
          rename_i hdigit
          split
          · exact refused_of_next hs hc hrest.shows done_eq fun _ => rfl
          · rw [openRepetition_of_isDigit hdigit]
            exact ⟨hsome, standing_pushRepetition hs hc (hnext _ _) done_eq⟩
        · split
          · -- the `-` of an exception
            split
            · exact refused_of_next hs hc hrest.shows done_eq fun _ => rfl
            · exact keeps_openLiteral hs (hnext _ true) List.mem_cons_self rfl (by decide) done_eq
          · split
            · -- a primary
              split
              · exact refused_of_next hs hc hrest.shows done_eq fun _ => rfl
              · exact keeps_openPrimary hs hc (hnext _ false) (List.mem_of_elem_eq_true rfl)
                  (List.mem_of_elem_eq_true rfl) rfl done_eq
            · -- the end: the next character is no line feed, so a gap fits in front of it
              refine keeps_endTerm hs hrest done_eq ready fun _ => ⟨hsome, ?_⟩
              exact hs.column hc (ne_lineFeed_of_isSpace (eq_false_of_ne_true hspace))

/-- An exception ends where its last component ends, and with an empty string if it has no
primary. -/
theorem keeps_endException {id term : NodeId} {primary : Option NodeId}
    (hs : sight.Reads done whole)
    (rest : Resting sure whole tree (.exception id term primary :: below) (node :: outer))
    (done_eq : Spine.text (node :: outer) = done) (ready : primary.isSome → node.below ≠ .nil)
    (column : sure → sight.ahead.isSome ∧ sight.here.column ≠ 0) :
    (endException sight tree below id primary).Keeps sure sight done whole := by
  obtain rfl : id = outer.size := Option.some.inj rest.waiting.id_eq_size
  unfold endException
  split
  · exact rest.leaveAtLastChild nofun nofun done_eq (ready rfl)
  · obtain ⟨hrest, htext⟩ := resting_addEmptyString hs rest done_eq column
    exact (hrest.withKind _).leaveAtLastChild nofun nofun htext OpenNode.add_below_ne_nil

/-- An exception goes on with its primary, or ends. Its refusal names the primary that was there
before. -/
theorem keeps_stepException {id term : NodeId} {primary : Option NodeId}
    (hs : sight.Reads done whole) (hsure : sure → sight.ahead.isSome)
    (rest : Resting sure whole tree (.exception id term primary :: below) (node :: outer))
    (done_eq : Spine.text (node :: outer) = done) (ready : primary.isSome → node.below ≠ .nil) :
    (stepException limit sight tree below id term primary).Keeps sure sight done whole := by
  obtain rfl : id = outer.size := Option.some.inj rest.waiting.id_eq_size
  have hrest := rest.withKind (.exception primary)
  have hnext : ∀ primary', Resting sure whole _ (.exception outer.size term primary' :: below) _ :=
    fun primary' => hrest.advance (.exception outer.size term primary') nofun rfl rfl
  unfold stepException
  cases hc : sight.ahead with
  | none =>
    refine keeps_endException hs hrest done_eq ready fun h => ?_
    have := hsure h
    rw [hc] at this
    cases this
  | some c =>
    have hsome : sight.ahead.isSome := by rw [hc]; rfl
    dsimp only
    split
    · exact keeps_openSpace hs hrest List.mem_cons_self rfl done_eq
    · rename_i hspace
      split
      · split
        · exact refused_of_next hs hc hrest.shows done_eq fun _ => rfl
        · exact keeps_openPrimary hs hc (hnext _) (List.mem_of_elem_eq_true rfl)
            (List.mem_of_elem_eq_true rfl) rfl done_eq
      · refine keeps_endException hs hrest done_eq ready fun _ => ⟨hsome, ?_⟩
        exact hs.column hc (ne_lineFeed_of_isSpace (eq_false_of_ne_true hspace))

/-- A repetition waits for its star, with white space in front of it that becomes a leaf. -/
theorem keeps_stepRepetition {id : NodeId} (hs : sight.Reads done whole)
    (rest : Resting sure whole tree (.repetition id :: below) (node :: outer))
    (done_eq : Spine.text (node :: outer) = done) :
    (stepRepetition sight tree below id).Keeps sure sight done whole := by
  obtain rfl : id = outer.size := Option.some.inj rest.waiting.id_eq_size
  unfold stepRepetition
  split
  · exact keeps_openSpace hs rest (List.mem_of_elem_eq_true rfl) rfl done_eq
  · have hclosing := rest.closing (List.mem_of_elem_eq_true rfl) rfl
    exact keeps_openLiteral hs hclosing List.mem_cons_self rfl (by decide) done_eq

/-! ### Definitions -/

/-- A term of an empty string begins and ends in front of the next character, and nothing is added
to the text of the tree. -/
theorem resting_addEmptyTerm {frame : Frame} {here : Position}
    (rest : Resting sure whole tree (frame :: below) (node :: outer))
    (hhere : (places whole)[(Spine.text (node :: outer)).length]? = some here)
    (column : here.column ≠ 0) :
    ∃ node', Resting sure whole (addEmptyTerm tree outer.size here) (frame :: below)
        (node' :: outer) ∧ Spine.text (node' :: outer) = Spine.text (node :: outer) := by
  have hgap := Span.denotes_gap hhere column
  have hterm := rest.shows.push (.term {}) (.gap here) ""
  unfold addEmptyTerm addEmptyString
  rw [rest.shows.size_eq]
  refine ⟨_, ⟨((hterm.push (.primary .emptyString) (.gap here) "").close.withKind _).close,
    rest.waiting.add fun _ => ⟨hgap, ?_⟩⟩, ?_⟩
  · exact Forest.placed_single.mpr ⟨hgap, Forest.placed_nil⟩
  · rw [Spine.text_add]
    exact List.append_nil _

/-- A definition in which no term has begun since the last comma gets an empty one. -/
theorem resting_addMissingTerm {frame : Frame} {term : Option NodeId} {here : Position}
    (rest : Resting sure whole tree (frame :: below) (node :: outer))
    (hhere : (places whole)[(Spine.text (node :: outer)).length]? = some here)
    (column : here.column ≠ 0) :
    ∃ node', Resting sure whole (addMissingTerm tree outer.size term here) (frame :: below)
        (node' :: outer) ∧ Spine.text (node' :: outer) = Spine.text (node :: outer) := by
  cases term with
  | some _ => exact ⟨node, rest, rfl⟩
  | none => exact resting_addEmptyTerm rest hhere column

/-- A definition goes on with its next term, or ends in front of the character that cannot be a part
of it. -/
theorem keeps_stepDefinition {id : NodeId} {start : Position} {term : Option NodeId}
    (hs : sight.Reads done whole)
    (rest : Resting sure whole tree (.definition id start term :: below) (node :: outer))
    (done_eq : Spine.text (node :: outer) = done) :
    (stepDefinition sight tree below id start term).Keeps sure sight done whole := by
  obtain rfl : id = outer.size := Option.some.inj rest.waiting.id_eq_size
  unfold stepDefinition
  cases hc : sight.ahead with
  | none =>
    refine refused_of_shows hs rest.shows done_eq fun _ => ⟨hc, ?_⟩
    rw [hc]
    exact Nat.zero_le 2
  | some c =>
    have hsome : sight.ahead.isSome := by rw [hc]; rfl
    have hplace := done_eq ▸ hs.place hsome
    dsimp only
    split
    · refine keeps_openSpace hs rest ?_ rfl done_eq
      cases term <;> exact List.mem_of_elem_eq_true rfl
    · rename_i hspace
      have hcolumn := hs.column hc (ne_lineFeed_of_isSpace (eq_false_of_ne_true hspace))
      split
      · split
        · exact refused_of_next hs hc rest.shows done_eq fun _ => trivial
        · -- a term
          have hnext := rest.advance (.definition outer.size start (some tree.size)) nofun rfl rfl
          have hterm := hnext.push (.term tree.size {} false) (.term {}) (.point sight.here)
            List.mem_cons_self rfl fun _ => hplace
          exact .idle hterm ((Spine.text_bare_cons ..).trans done_eq) nofun
      · obtain ⟨node', hrest, htext⟩ := resting_addMissingTerm rest hplace hcolumn
        have hdone := htext.trans done_eq
        split
        · -- a comma
          have hnext := hrest.advance (.definition outer.size start none) nofun rfl rfl
          exact keeps_openLiteral hs hnext List.mem_cons_self rfl (by decide) hdone
        · exact hrest.leaveInFront nofun hdone fun _ => ⟨hs.place hsome, hcolumn⟩

/-- A list of definitions goes on with its next definition or with a separator, or ends. -/
theorem keeps_stepDefinitions {id : NodeId} {stage : ListStage} (hs : sight.Reads done whole)
    (hsure : sure → sight.ahead.isSome)
    (rest : Resting sure whole tree (.definitions id stage :: below) (node :: outer))
    (done_eq : Spine.text (node :: outer) = done)
    (ready : (Frame.definitions id stage).Ready sure whole done.length node) :
    (stepDefinitions sight tree below id stage).Keeps sure sight done whole := by
  have hid := rest.waiting.id_eq_size
  match stage, hid with
  | .start, hid =>
    obtain rfl : id = outer.size := Option.some.inj hid
    unfold stepDefinitions
    dsimp only
    split
    · exact keeps_openSpace hs rest (List.mem_of_elem_eq_true rfl) rfl done_eq
    · have hnext := rest.advance (.definitions outer.size .afterDefinition) nofun rfl rfl
      have hdefinition := hnext.push (.definition tree.size sight.here none) .definition
        (.point sight.here) List.mem_cons_self rfl fun h => done_eq ▸ hs.place (hsure h)
      exact .idle hdefinition ((Spine.text_bare_cons ..).trans done_eq) trivial
  | .afterDefinition, hid =>
    obtain rfl : id = outer.size := Option.some.inj hid
    have hstart :=
      (rest.withLast sight.here.left).advance (.definitions outer.size .start) nofun rfl rfl
    have hended : Standing sure whole done (tree.withLast outer.size sight.here.left) below := by
      -- the list ends where its last definition does, left of the next character
      refine rest.leaveInFront nofun done_eq fun h => ?_
      obtain ⟨here, hhere, hcolumn⟩ := ready h
      rw [hs.place (hsure h), Option.some.injEq] at hhere
      subst hhere
      exact ⟨hs.place (hsure h), hcolumn⟩
    unfold stepDefinitions
    cases hc : sight.ahead with
    | none => exact hended
    | some c =>
      have hsome : sight.ahead.isSome := by rw [hc]; rfl
      dsimp only
      split
      · -- a `/`, which is held until the next character tells what it is
        rename_i hslash
        subst hslash
        have hplace := hs.place hsome
        have hwhole := hs.whole_of_some hc
        rw [← done_eq] at hplace hwhole
        exact ⟨hsome, .slash hstart hwhole.symm (Span.denotes_point hplace) (hs.column hc nofun)⟩
      · split
        · exact keeps_openLiteral hs hstart List.mem_cons_self rfl (by decide) done_eq
        · exact hended

/-- The production around a list of definitions takes over the closer behind them. -/
theorem standing_handOver {closer : Span}
    (rest : Resting sure whole tree (host :: below) (node :: outer))
    (admitted : .definitions ∈ host.components)
    (done_eq : Spine.text (node :: outer) ++ ['/', ')'] = done)
    (denotes : closer.Denotes whole (Spine.text (node :: outer)).length ['/', ')']) :
    Standing sure whole done tree (handOver closer (host :: below)) := by
  have hid := rest.waiting.id_eq_size
  rcases Frame.eq_body_of_definitions admitted with ⟨id, lhs, list, held, rfl⟩ | ⟨b, id, held, rfl⟩
  · cases held with
    | none => exact .product rest done_eq denotes
    | some _ => cases hid
  · cases held with
    | none => exact .bracket rest done_eq denotes
    | some _ => cases hid

/-- A `/` behind a definition turns out to be a separator or a part of a closer. -/
theorem keeps_stepDefinitions_afterSlash {id : NodeId} {slash : Position}
    (hs : sight.Reads done whole)
    (rest : Resting sure whole tree (.definitions id .start :: below) (node :: outer))
    (done_eq : Spine.text (node :: outer) ++ ['/'] = done)
    (denotes : (Span.point slash).Denotes whole (Spine.text (node :: outer)).length ['/'])
    (column : slash.column ≠ 0) :
    (stepDefinitions sight tree below id (.afterSlash slash)).Keeps sure sight done whole := by
  obtain rfl : id = outer.size := Option.some.inj rest.waiting.id_eq_size
  unfold stepDefinitions
  cases hc : sight.ahead with
  | none =>
    have hheld : tree.text.toList ++ ['/'] = done := by rw [rest.shows.text, done_eq]
    refine refused_of_held hs hheld (Nat.le_succ 1) ⟨hc, ?_⟩
    rw [hc]
    exact Nat.le_succ 1
  | some c =>
    have hsome : sight.ahead.isSome := by rw [hc]; rfl
    dsimp only
    split
    · rename_i hparen
      subst hparen
      have hplace := hs.place hsome
      rw [← done_eq, List.length_append] at hplace
      have hcloser := Span.denotes_snoc ['/'] ')' denotes.first hplace
      have hwhole : Spine.text (node :: outer) ++ ['/', ')'] = whole := by
        rw [hs.whole_of_some hc, ← done_eq, List.append_assoc]
        rfl
      -- the list ends in front of the `/`, and the production around it goes on with the closer
      have hcomplete : OpenNode.Complete sure whole outer.text.length
          ⟨{ node.label with span := ⟨node.label.span.first, slash.left⟩ }, node.below⟩ := by
        refine rest.waiting.begun_top.complete fun hsure => ?_
        refine Span.denotes_of_next (rest.waiting.begun_top.first hsure) ?_ column
        rw [← List.length_append]
        exact denotes.first
      obtain ⟨host, below, around, outer, rfl, rfl, hadmitted, hwaiting⟩ :=
        rest.waiting.exists_host nofun
      have hadd := Spine.text_add around
        ⟨{ node.label with span := ⟨node.label.span.first, slash.left⟩ }, node.below⟩ outer
      have hsame := hadd.trans (show _ = Spine.text (node :: around :: outer) from rfl)
      refine ⟨hsome, standing_handOver
        ⟨(rest.shows.withLast slash.left).close, hwaiting.add hcomplete⟩ hadmitted ?_ ?_⟩
      · rw [hsame, hwhole]
      · rw [hsame]
        exact hcloser
    · obtain ⟨hrest, htext⟩ := rest.pushLeaf .literal (.point slash)
        (show ("/" : String).toList = ['/'] by decide) fun _ => denotes
      exact .idle hrest (htext.trans done_eq) trivial

/-! ### Products and the whole text -/

/-- A product waits for its sign, for its definitions or for its end. -/
theorem keeps_stepProduct {id lhs : NodeId} {stage : ProductStage} (hs : sight.Reads done whole)
    (hsure : sure → sight.ahead.isSome)
    (rest : Resting sure whole tree (.product id lhs stage :: below) (node :: outer))
    (done_eq : Spine.text (node :: outer) = done) :
    (stepProduct sight tree below id lhs stage).Keeps sure sight done whole := by
  have hid := rest.waiting.id_eq_size
  match stage, hid with
  | .name, hid =>
    obtain rfl : id = outer.size := Option.some.inj hid
    have hnext := (rest.withKind (.product (some lhs) none)).advance
      (.product outer.size lhs .equals) nofun rfl rfl
    unfold stepProduct
    dsimp only
    split
    · exact keeps_openLiteral hs hnext List.mem_cons_self rfl (by decide) done_eq
    · exact keeps_unexpected hs hnext.shows done_eq
  | .equals, hid =>
    obtain rfl : id = outer.size := Option.some.inj hid
    unfold stepProduct
    dsimp only
    split
    · exact keeps_openSpace hs rest (List.mem_of_elem_eq_true rfl) rfl done_eq
    · have hbody := rest.advance (.product outer.size lhs (.body tree.size none)) nofun rfl rfl
      have hlist := hbody.push (.definitions tree.size .start) .definitionList (.point sight.here)
        List.mem_cons_self rfl fun h => done_eq ▸ hs.place (hsure h)
      exact .idle hlist ((Spine.text_bare_cons ..).trans done_eq) trivial
  | .body list none, hid =>
    obtain rfl : id = outer.size := Option.some.inj hid
    have hclosing := (rest.withKind (.product (some lhs) (some list))).closing
      (List.mem_of_elem_eq_true rfl) rfl
    exact keeps_openLiteral hs hclosing List.mem_cons_self rfl (by decide) done_eq

/-- The definitions of a product cannot end with the closer of a bracket: the text is refused, with
the closer as what was read. -/
theorem keeps_stepProduct_handed {id lhs list : NodeId} {closer : Span}
    (hs : sight.Reads done whole)
    (rest : Resting sure whole tree (.product id lhs (.body list none) :: below) (node :: outer))
    (done_eq : Spine.text (node :: outer) ++ ['/', ')'] = done)
    (denotes : closer.Denotes whole (Spine.text (node :: outer)).length ['/', ')']) :
    (stepProduct sight tree below id lhs (.body list (some closer))).Keeps sure sight done
      whole := by
  obtain rfl : id = outer.size := Option.some.inj rest.waiting.id_eq_size
  have hrest := rest.withKind (.product (some lhs) (some list))
  have hheld : (tree.withKind outer.size (.product (some lhs) (some list))).text.toList ++
      ['/', ')'] = done := by
    rw [hrest.shows.text]
    exact done_eq
  refine refused_of_held hs hheld (Nat.le_refl 2) ⟨rfl, List.prefix_append .., ?_⟩
  rw [hrest.shows.text]
  exact denotes

/-- A product begins with its name, and both begin at the next character. -/
theorem keeps_openProduct {parent : NodeId} {c : Char} (hs : sight.Reads done whole)
    (hc : sight.ahead = some c) (hletter : isLetter c = true)
    (rest : Resting sure whole tree (host :: below) (node :: outer))
    (admitted : .product ∈ host.components) (parent_eq : parent = outer.size)
    (done_eq : Spine.text (node :: outer) = done) :
    (openProduct sight tree (host :: below) parent c).Keeps sure sight done whole := by
  subst parent_eq done_eq
  rw [openProduct_of_isLetter hletter]
  have hproduct := rest.push (.product tree.size (tree.size + 1) .name) (.product none none)
    (.point sight.here) admitted rfl fun _ => hs.place (by rw [hc]; rfl)
  exact keeps_openIdentifier hs hc hletter hproduct List.mem_cons_self rest.shows.size_eq
    (Spine.text_bare_cons ..)

/-- The whole text goes on with a comment, a product or white space, or ends. Where it ends the root
gets its span, and the tree is finished. -/
theorem keeps_stepGrammar (limit : Nat) (hs : sight.Reads done whole)
    (rest : Resting sure whole tree (.grammar true :: below) (node :: outer))
    (done_eq : Spine.text (node :: outer) = done) :
    (stepGrammar limit sight tree below true).Keeps sure sight done whole := by
  have hid : Tree.root = outer.size := Option.some.inj rest.waiting.id_eq_size
  unfold stepGrammar
  rw [if_pos rfl]
  cases hc : sight.ahead with
  | none =>
    obtain ⟨rfl, rfl⟩ := rest.waiting.eq_nil_of_grammar
    have hbegun := rest.waiting.begun_top
    have hwhole := hs.whole_of_none hc
    have htext : node.text = whole := by rw [hwhole, ← done_eq, Spine.text_cons]; rfl
    have hne : sure → whole ≠ [] := by
      intro hsure hnil
      have hfirst := hbegun.first hsure
      rw [hnil] at hfirst
      cases hfirst
    have hcomplete : OpenNode.Complete sure whole 0
        ⟨{ node.label with span := ⟨node.label.span.first, sight.here⟩ }, node.below⟩ := by
      refine hbegun.complete fun hsure => ?_
      refine Span.denotes_of_ends (htext ▸ hne hsure) (hbegun.first hsure) ?_
      rw [htext, Spine.text_nil, List.length_nil, Nat.zero_add]
      exact hs.place_last (hne hsure)
    refine ⟨hc, _, rest.shows.withLast sight.here, htext, fun hsure => ?_⟩
    rw [if_neg (hne hsure)]
    exact hcomplete
  | some c =>
    have hsome : sight.ahead.isSome := by rw [hc]; rfl
    dsimp only
    split
    · exact keeps_openComment hs hsome rest List.mem_cons_self hid done_eq
    · split
      · rename_i hletter
        exact keeps_openProduct hs hc hletter rest (List.mem_of_elem_eq_true rfl) hid done_eq
      · split
        · exact keeps_openSpace hs rest (List.mem_of_elem_eq_true rfl) hid done_eq
        · exact keeps_unexpected hs rest.shows done_eq

/-- The whole text begins with its first character, or it is empty. -/
theorem keeps_stepGrammar_fresh (limit : Nat) (hs : sight.Reads [] whole) :
    (stepGrammar limit sight .empty [] false).Keeps sure sight [] whole := by
  unfold stepGrammar
  rw [if_neg nofun]
  cases hc : sight.ahead with
  | none =>
    have hwhole := hs.whole_of_none hc
    subst hwhole
    exact ⟨hc, _, Tree.shows_empty.withSpan (.gap ⟨1, 1⟩), rfl, fun _ => by rw [if_pos rfl]; rfl⟩
  | some c =>
    have hplace := hs.place (by rw [hc]; rfl)
    have hshows := Tree.shows_empty.withFirst sight.here
    exact .idle ⟨hshows, .grammar (OpenNode.begun_bare fun _ => hplace)⟩ rfl trivial

/-! ### All steps -/

/-- Every step keeps what is true of the machine. There is one case for each production. -/
theorem keeps_step {frames : List Frame} (limit : Nat) (hs : sight.Reads done whole)
    (hsure : sure → sight.ahead.isSome) (h : Standing sure whole done tree frames) :
    (step limit sight tree frames).Keeps sure sight done whole := by
  cases h with
  | fresh tree_eq done_eq =>
    subst tree_eq done_eq
    exact keeps_stepGrammar_fresh limit hs
  | @idle frame below node outer rest done_eq ready =>
    have hid := rest.waiting.id_eq_size
    cases frame with
    | grammar begun =>
      cases begun with
      | true => exact keeps_stepGrammar limit hs rest done_eq
      | false => cases hid
    | comment id text stage =>
      match text, stage, hid with
      | none, .body, _ =>
        show (stepComment limit sight tree below id none .body).Keeps sure sight done whole
        exact keeps_stepComment hs rest nofun ((List.append_nil _).trans done_eq) trivial
    | product id lhs stage => exact keeps_stepProduct hs hsure rest done_eq
    | definitions id stage => exact keeps_stepDefinitions hs hsure rest done_eq ready
    | definition id start term => exact keeps_stepDefinition hs rest done_eq
    | term id parts dash => exact keeps_stepTerm hs hsure rest done_eq ready
    | exception id term primary => exact keeps_stepException hs hsure rest done_eq ready
    | repetition id => exact keeps_stepRepetition hs rest done_eq
    | bracket b id stage => exact keeps_stepBracket hs hsure rest done_eq
    | quoted form id text =>
      cases text with
      | none => exact keeps_stepQuoted_begin hs hsure rest done_eq
      | some run => cases hid
    | closing id => exact keeps_stepClosing rest done_eq ready
    | paren | opener | identifier | run | literal | matched => cases hid
  | comment rest grows done_eq placed => exact keeps_stepComment hs rest grows done_eq placed
  | product rest done_eq denotes => exact keeps_stepProduct_handed hs rest done_eq denotes
  | bracket rest done_eq denotes => exact keeps_stepBracket_handed hs rest done_eq denotes
  | slash rest done_eq denotes column =>
    exact keeps_stepDefinitions_afterSlash hs rest done_eq denotes column
  | paren rest admitted parent_eq done_eq denotes =>
    exact keeps_stepParen hs rest admitted parent_eq done_eq denotes
  | opener rest admitted parent_eq done_eq denotes =>
    exact keeps_attachBracket hs rest admitted parent_eq done_eq denotes
  | quoted fill run_eq done_eq first => exact keeps_stepQuoted hs fill run_eq done_eq first
  | run fill admitted id_eq done_eq denotes =>
    exact keeps_stepRun hs fill admitted id_eq done_eq denotes
  | identifier fill admitted id_eq parent_eq done_eq spelt =>
    exact keeps_stepIdentifier hs fill admitted id_eq parent_eq done_eq spelt
  | literal fill admitted id_eq data plain goes done_eq first =>
    exact keeps_stepLiteral hs fill admitted id_eq data plain (plain.length_lt_of_goesOn goes)
      done_eq fun _ => first
  | matched fill admitted id_eq data length done_eq denotes =>
    exact keeps_stepMatched fill admitted id_eq done_eq denotes

end

end LosslessEbnf
