import LosslessEbnf.Proofs.GrowthPrimaries

/-!
# Growing productions

What the steps of terms, of definitions, of products and of the whole text make of the tree, and
from that what every step makes of it.

## Main Statements

* `grows_stepTerm`, `grows_stepException`, `grows_stepRepetition` — terms and their components
* `grows_stepDefinition`, `grows_stepDefinitions` — definitions and lists of them
* `grows_stepProduct`, `grows_stepGrammar` — products and the whole text
* `grows_step` — every step of the machine

## Design Notes

A component is recorded in its node only when the production is on top again. Until then the frame
knows it, so what the node records lags behind what its frame demands.

A term takes all the white space behind its components. So a definition is given a term only in
front of another character, and needs no room for white space behind it.
-/

namespace LosslessEbnf

section

variable {sight : Sight} {tree : Tree} {frames below : List Frame} {node : OpenNode}
  {outer : Spine} {number : NodeId} {ahead : Option Char} {limit : Nat} {parts : TermParts}

/-! ### Terms -/

/-- A term records its components, all of which are among its children. -/
theorem Idle.recordTerm {dash : Bool}
    (h : Idle ahead tree (.term number parts dash) below node outer) :
    Idle ahead (tree.withKind number (.term parts)) (.term number parts dash) below
      ⟨{ node.label with kind := .term parts }, node.below⟩ outer := by
  cases dash with
  | false =>
    obtain ⟨rfl, ⟨held, hkind, -⟩, hrow⟩ := h.fits.shape
    exact h.record (by rw [hkind]; rfl) (fun _ => hrow.exists_of_component) fun _ hshape =>
      ⟨hshape.1, ⟨parts, rfl, fun _ => id⟩, hshape.2.2⟩
  | true =>
    obtain ⟨rfl, ⟨held, hkind, -⟩, front, dash, hrow, hfront, -⟩ := h.fits.shape
    refine h.record (by rw [hkind]; rfl) (fun component hcomponent => ?_) fun _ hshape =>
      ⟨hshape.1, ⟨parts, rfl, fun _ => id⟩, hshape.2.2⟩
    obtain ⟨child, hchild, hid⟩ := hfront.exists_of_component hcomponent
    rw [hrow]
    exact ⟨child, List.mem_append_left _ hchild, hid⟩

/-- A term with a primary is given to the definition around it. -/
theorem Idle.leaveTerm (h : Idle ahead tree (.term number parts false) below node outer)
    (hkind : node.label.kind = .term parts) (hprimary : parts.primary.isSome)
    (hahead : ahead.any isSpace = false) :
    Grown ahead (tree.closeAtLastChild number) below := by
  obtain ⟨rfl, -, hrow⟩ := h.fits.shape
  obtain ⟨span, hcarries⟩ := h.carries.closeAtLastChild
  have hbuilds : node.label.kind.Builds (node.row outer.size) := by
    rw [hkind]
    exact ⟨hrow, hprimary⟩
  have hspells : node.label.kind.Spells "" := by
    rw [hkind]
    rfl
  exact (h.respan hcarries).leave (by rw [hkind]; nofun) hbuilds hspells fun _ => hahead

theorem grows_endTerm (h : Idle sight.ahead tree (.term number parts false) below node outer)
    (hkind : node.label.kind = .term parts) (hahead : sight.ahead.any isSpace = false) :
    (endTerm sight tree below number parts).Grows sight.ahead := by
  obtain ⟨rfl, -, hrow⟩ := h.fits.shape
  unfold endTerm
  split
  · rename_i primary hprimary
    exact h.leaveTerm hkind (by rw [hprimary]; rfl) hahead
  · rename_i hunused
    have hshape : (Frame.term outer.size { parts with primary := some tree.size } false).Shape
        outer.size node.label.kind
        (node.row outer.size ++ [⟨node.next outer.size, .primary .emptyString, ""⟩]) := by
      rw [h.carries.size_eq]
      exact ⟨rfl, ⟨parts, hkind, fun _ => id⟩,
        .primary ⟨node.next outer.size, _, _⟩ hrow hunused rfl⟩
    rw [← OpenNode.row_add_bare ⟨.primary .emptyString, .gap sight.here, ""⟩] at hshape
    have hempty : Idle sight.ahead _ _ below _ outer :=
      ⟨h.addLeaf (.primary .emptyString) (.gap sight.here) "" rfl rfl, hshape.fits_of_ahead hahead⟩
    exact hempty.recordTerm.leaveTerm rfl rfl hahead

/-- Behind its dash a term waits for the exception, and nothing may stand between the two. -/
theorem grows_stepTerm_dash (h : Idle sight.ahead tree (.term number parts true) below node outer) :
    (stepTerm limit sight tree below number parts true).Grows sight.ahead := by
  obtain ⟨rfl, -, front, dash, hrow, hfront, hunused, hdash⟩ := h.fits.shape
  have hterm := h.recordTerm
  unfold stepTerm
  rw [if_pos rfl, hterm.carries.size_eq]
  have hawaits : (Frame.term outer.size
      { parts with exception := some (node.next outer.size) } false).Awaits
      (.node (.exception none)) outer.size
      ⟨{ node.label with kind := .term parts }, node.below⟩ := by
    rintro ahead more ⟨-, kind, rfl, hbare⟩
    have hlags : parts.Lags { parts with exception := some (node.next outer.size) } := by
      intro id hid
      rw [hunused] at hid
      cases hid
    refine Frame.Shape.fits_of_gap fun gap hgap => ⟨rfl, ⟨parts, rfl, hlags⟩, ?_⟩
    -- the row ends with the mark, which gets into the row of the term together with the exception
    have hexception := TermRow.exception ⟨node.next outer.size, kind, ""⟩ hfront hunused hdash hbare
    rw [List.append_cons, ← hrow] at hexception
    refine hexception.snoc_gap ?_ hgap
    rintro rfl
    cases hbare
  refine .idle (Stacked.push (.exception none) _ (hterm.await _ hawaits) hterm.carries nofun rfl ?_)
  exact Frame.Shape.fits_of_gap fun gap hgap => ⟨rfl, ⟨none, rfl⟩, matches_single.mpr hgap⟩

/-- A repetition begins with its first digit, which begins a number below it. -/
theorem Idle.openRepetition {c : Char} {here : Position}
    (h : Idle ahead tree (.term number parts false) below node outer)
    (hunused : parts.repetition = none) (hdigit : isDigit c = true) (ahead' : Option Char) :
    Grown ahead' ((tree.pushChild number .repetition (.point here)).pushChild tree.size .number
        (.point here) (String.singleton c))
      (.run .number (tree.size + 1) :: .repetition tree.size ::
        .term number { parts with repetition := some tree.size } false :: below) := by
  obtain ⟨rfl, hkind, hrow⟩ := h.fits.shape
  rw [h.carries.size_eq]
  have hawaits : (Frame.term outer.size
      { parts with repetition := some (node.next outer.size) } false).Awaits
      (.node .repetition) outer.size node := by
    rintro ahead more ⟨-, kind, rfl, hbare⟩
    obtain rfl : kind = .repetition := Kind.eq_of_bare hbare (by simp)
    refine Frame.Shape.fits_of_gap fun gap hgap => ⟨rfl, hkind, ?_⟩
    exact (TermRow.repetition ⟨node.next outer.size, .repetition, ""⟩ hrow hunused rfl).snoc_gap
      nofun hgap
  have hnumber : (Frame.repetition (Spine.size (node :: outer))).Awaits .number
      (Spine.size (node :: outer)) (.bare ⟨.repetition, .point here, ""⟩) := by
    rintro ahead more ⟨data, rfl⟩
    have hrow : Matches (repetitionRule.take 1)
        [⟨Spine.size (node :: outer) + 1, .number, data⟩] :=
      matches_single.mpr (Slot.one_singleton rfl)
    exact Frame.Shape.fits_of_gap fun gap hgap => ⟨rfl, rfl, hrow.snoc hgap⟩
  have hrest := Stacked.pushWaiting .repetition (.point here) (h.await _ hawaits) nofun rfl hnumber
  exact .run (hrest.fill (h.carries.push _ _ _) .number _ _) rfl rfl String.singleton_ne_empty
    (forall_mem_singleton hdigit)

/-- The dash in front of an exception is a child of the term, and the exception follows it. -/
theorem Idle.openDash (h : Idle ahead tree (.term number parts false) below node outer)
    (hunused : parts.exception = none) :
    (openLiteral sight tree (.term number parts true :: below) number ["-"]).Grows sight.ahead := by
  obtain ⟨rfl, hkind, hrow⟩ := h.fits.shape
  have hawaits : (Frame.term outer.size parts true).Awaits (.mark ["-"]) outer.size node := by
    rintro ahead more ⟨data, rfl, hdata⟩
    exact Frame.Shape.fits ⟨rfl, hkind, _, _, rfl, hrow, hunused, rfl, hdata⟩
      (by simp [Frame.components])
  exact (h.await _ hawaits).openLiteral h.carries

/-- A term that has no primary yet waits for one. -/
theorem Idle.awaitsPrimary_term (h : Idle ahead tree (.term number parts false) below node outer)
    (hunused : parts.primary = none) :
    AwaitsPrimary (.term number { parts with primary := some tree.size } false :: below)
      (node :: outer) := by
  obtain ⟨rfl, hkind, hrow⟩ := h.fits.shape
  intro yield hyield
  refine h.await _ (awaits_primary hyield ?_)
  rintro ⟨first, kind, data⟩ gap hfirst ⟨form, hform, -⟩ hgap
  obtain rfl : kind = .primary form := hform
  have hsize : tree.size = first := h.carries.size_eq.trans hfirst.symm
  refine ⟨rfl, hkind, ?_⟩
  rw [hsize, List.append_cons]
  exact (TermRow.primary ⟨first, .primary form, data⟩ hrow hunused rfl).snoc_gap nofun hgap

theorem grows_stepTerm {dash : Bool}
    (h : Idle sight.ahead tree (.term number parts dash) below node outer) :
    (stepTerm limit sight tree below number parts dash).Grows sight.ahead := by
  cases dash with
  | true => exact grows_stepTerm_dash h
  | false =>
    have hterm := h.recordTerm
    obtain ⟨rfl, -⟩ := hterm.fits.shape
    unfold stepTerm
    rw [if_neg Bool.false_ne_true]
    cases hc : sight.ahead with
    | none =>
      dsimp only
      rw [← hc]
      exact grows_endTerm hterm rfl (by rw [hc]; rfl)
    | some c =>
      dsimp only
      rw [← hc]
      by_cases hspace : isSpace c = true
      · rw [if_pos hspace]
        exact hterm.openSpace (by simp [Frame.components])
      · have hahead : sight.ahead.any isSpace = false := by
          rw [hc]
          exact eq_false_of_ne_true hspace
        rw [if_neg hspace]
        split
        · rename_i hdigit
          split
          · exact hterm.cut
          · rename_i hunused
            rw [openRepetition_of_isDigit hdigit]
            exact hterm.openRepetition hunused hdigit
        · split
          · split
            · exact hterm.cut
            · rename_i hunused
              exact hterm.openDash hunused
          · split
            · split
              · exact hterm.cut
              · rename_i hunused
                exact (hterm.awaitsPrimary_term hunused).openPrimary hterm.carries
            · exact grows_endTerm hterm rfl hahead

/-! ### Exceptions and repetitions -/

/-- An exception records its primary, which is among its children. -/
theorem Idle.recordException {term : NodeId} {primary : Option NodeId}
    (h : Idle ahead tree (.exception number term primary) below node outer) :
    Idle ahead (tree.withKind number (.exception primary)) (.exception number term primary) below
      ⟨{ node.label with kind := .exception primary }, node.below⟩ outer := by
  cases primary with
  | none =>
    obtain ⟨rfl, ⟨held, hkind⟩, hrow⟩ := h.fits.shape
    exact h.record (by rw [hkind]; rfl) nofun fun _ hshape => ⟨hshape.1, ⟨_, rfl⟩, hshape.2.2⟩
  | some primary =>
    obtain ⟨rfl, ⟨held, hkind⟩, hrow⟩ := h.fits.shape
    refine h.record (by rw [hkind]; rfl) (fun component hcomponent => ?_) fun _ hshape =>
      ⟨hshape.1, ⟨_, rfl⟩, hshape.2.2⟩
    obtain rfl := List.mem_singleton.mp hcomponent
    exact hrow.exists_of_link (List.mem_cons_of_mem _ List.mem_cons_self) rfl

/-- An exception with a primary is given to the term around it. -/
theorem OnTop.leaveException {primary : Option NodeId} (h : OnTop tree below node outer)
    (hkind : node.label.kind = .exception primary)
    (hrow : (Kind.exception primary).Builds (node.row outer.size)) :
    Grown ahead (tree.closeAtLastChild outer.size) below := by
  obtain ⟨span, hcarries⟩ := h.carries.closeAtLastChild
  refine (h.respan hcarries).leaveClosed ?_
  show node.label.kind.Closed (node.row outer.size)
  rw [hkind]
  exact ⟨nofun, nofun, hrow, rfl⟩

theorem grows_endException {term : NodeId} {primary : Option NodeId}
    (h : Idle sight.ahead tree (.exception number term primary) below node outer)
    (hkind : node.label.kind = .exception primary) :
    (endException sight tree below number primary).Grows sight.ahead := by
  unfold endException
  cases primary with
  | some primary =>
    obtain ⟨rfl, -, hrow⟩ := h.fits.shape
    exact h.leaveException hkind (Or.inl hrow)
  | none =>
    obtain ⟨rfl, -, hrow⟩ := h.fits.shape
    have hempty := h.addLeaf (.primary .emptyString) (.gap sight.here) "" rfl rfl
    have hbuilds : (Kind.exception (some tree.size)).Builds
        (node.row outer.size ++ [⟨node.next outer.size, .primary .emptyString, ""⟩]) :=
      Or.inr (hrow.snoc (Slot.one_singleton ⟨rfl, congrArg some h.carries.size_eq⟩))
    rw [← OpenNode.row_add_bare ⟨.primary .emptyString, .gap sight.here, ""⟩] at hbuilds
    have hyield : (Kind.exception (some tree.size)).yield? = node.label.kind.yield? := by
      rw [hkind]
      rfl
    exact (hempty.withKind hyield fun _ => hbuilds.exists_of_component).leaveException rfl hbuilds

/-- An exception that has no primary yet waits for one. -/
theorem Idle.awaitsPrimary_exception {term : NodeId}
    (h : Idle ahead tree (.exception number term none) below node outer) :
    AwaitsPrimary (.exception number term (some tree.size) :: below) (node :: outer) := by
  obtain ⟨rfl, hkind, hrow⟩ := h.fits.shape
  intro yield hyield
  refine h.await _ (awaits_primary hyield fun child gap hchild hprimary hgap => ?_)
  refine ⟨rfl, hkind, ?_⟩
  rw [h.carries.size_eq, List.append_cons]
  exact (hrow.snoc (Slot.one_singleton ⟨hprimary, congrArg some hchild.symm⟩)).snoc hgap

theorem grows_stepException {term : NodeId} {primary : Option NodeId}
    (h : Idle sight.ahead tree (.exception number term primary) below node outer) :
    (stepException limit sight tree below number term primary).Grows sight.ahead := by
  have hexception := h.recordException
  have hid : outer.size = number := by cases primary <;> exact h.fits.shape.1.symm
  subst hid
  unfold stepException
  cases hc : sight.ahead with
  | none =>
    dsimp only
    rw [← hc]
    exact grows_endException hexception rfl
  | some c =>
    dsimp only
    rw [← hc]
    split
    · exact hexception.openSpace (by simp [Frame.components])
    · split
      · split
        · exact hexception.cut
        · exact hexception.awaitsPrimary_exception.openPrimary hexception.carries
      · exact grows_endException hexception rfl

theorem grows_stepRepetition (h : Idle sight.ahead tree (.repetition number) below node outer) :
    (stepRepetition sight tree below number).Grows sight.ahead := by
  obtain ⟨rfl, hkind, hrow⟩ := h.fits.shape
  unfold stepRepetition
  split
  · exact h.openSpace (by simp [Frame.components])
  · refine (h.await _ (awaits_closing fun data hdata => ?_)).openLiteral h.carries
    rw [hkind]
    exact ⟨by simp, by simp [Kind.bare], hrow.snoc (Slot.one_singleton ⟨rfl, hdata⟩), rfl⟩

/-! ### Definitions -/

section

variable {item : Kind} {separators : List String} {row gap : List Child} {mark child : Child}

/-- An item stands where one may stand, and behind it there may only be a separator. -/
theorem AwaitsItem.snoc (h : AwaitsItem item separators row) (hchild : child.kind.bare = item) :
    Separated item separators (row ++ [child]) := by
  rcases h with rfl | ⟨front, mark, gap, rfl, hfront, hmark, hgap⟩
  · exact .one hchild
  · rw [List.append_assoc, List.cons_append]
    exact .more hfront hmark hgap hchild

/-- An item may stand behind a separator, and white space does not change that. -/
theorem Separated.snoc (h : Separated item separators row) (hmark : mark.IsMark separators)
    (hgap : Slot.gap gap) : AwaitsItem item separators (row ++ [mark] ++ gap) :=
  Or.inr ⟨row, mark, gap, List.append_cons .. |>.symm, h, hmark, hgap⟩

end

/-- A definition gets a term of an empty string. -/
theorem OnTop.addEmptyTerm (h : OnTop tree below node outer) (here : Position) :
    ∃ child, OnTop (LosslessEbnf.addEmptyTerm tree outer.size here) below (node.add child) outer ∧
      child.label.kind.bare = .term {} := by
  -- both nodes are closed again, the inner one first
  have hcarries := ((((h.carries.push (.term {}) (.gap here) "").push (.primary .emptyString)
    (.gap here) "").close).withKind (.term ⟨none, some (node.next outer.size + 1), none⟩)).close
  have hrow := TermRow.primary ⟨node.next outer.size + 1, .primary .emptyString, ""⟩ .nil rfl rfl
  unfold LosslessEbnf.addEmptyTerm addEmptyString
  rw [h.carries.size_eq]
  refine ⟨_, h.add hcarries ⟨⟨hrow, rfl⟩, rfl⟩ ?_, rfl⟩
  exact Forest.each_single.mpr ⟨⟨rfl, rfl⟩, trivial⟩

/-- A definition is complete if it has a term behind its last comma. -/
theorem Idle.addMissingTerm {start : Position} {term : Option NodeId}
    (h : Idle ahead tree (.definition number start term) below node outer) (here : Position) :
    ∃ node', OnTop (LosslessEbnf.addMissingTerm tree number term here) below node' outer ∧
      node'.label.kind = .definition ∧ Separated (.term {}) [","] (node'.row outer.size) := by
  cases term with
  | none =>
    obtain ⟨rfl, hkind, hrow⟩ := h.fits.shape
    obtain ⟨child, hadded, hchild⟩ := h.addEmptyTerm here
    refine ⟨node.add child, hadded, hkind, ?_⟩
    rw [OpenNode.add, OpenNode.row_append]
    exact hrow.snoc hchild
  | some term =>
    obtain ⟨-, hkind, hrow⟩ := h.fits.shape
    exact ⟨node, h.toOnTop, hkind, hrow⟩

/-- A term begins where one may stand: at the head of a definition or behind a comma. -/
theorem Idle.openTerm {start here : Position}
    (h : Idle ahead tree (.definition number start none) below node outer)
    (hahead : ahead.any isSpace = false) :
    Grown ahead (tree.pushChild number (.term {}) (.point here))
      (.term tree.size {} false :: .definition number start (some tree.size) :: below) := by
  obtain ⟨rfl, hkind, hrow⟩ := h.fits.shape
  rw [h.carries.size_eq]
  have hawaits : (Frame.definition outer.size start (some (Spine.size (node :: outer)))).Awaits
      (.node (.term {})) outer.size node := by
    rintro ahead more ⟨hnext, kind, rfl, hbare⟩
    have hshape : (Frame.definition outer.size start (some (Spine.size (node :: outer)))).Shape
        outer.size node.label.kind (node.row outer.size ++ [⟨node.next outer.size, kind, ""⟩]) :=
      ⟨rfl, hkind, hrow.snoc hbare⟩
    exact hshape.fits_of_ahead (hnext rfl)
  have hterm : (Frame.term (Spine.size (node :: outer)) {} false).Shape
      (Spine.size (node :: outer)) (.term {}) [] := ⟨rfl, ⟨{}, rfl, fun _ => id⟩, .nil⟩
  exact .idle (Stacked.push (.term {}) _ (h.await _ hawaits) h.carries nofun rfl
    (hterm.fits_of_ahead hahead))

theorem grows_stepDefinition {start : Position} {term : Option NodeId}
    (h : Idle sight.ahead tree (.definition number start term) below node outer) :
    (stepDefinition sight tree below number start term).Grows sight.ahead := by
  have hid : outer.size = number := by cases term <;> exact h.fits.shape.1.symm
  subst hid
  unfold stepDefinition
  cases hc : sight.ahead with
  | none => exact h.cut
  | some c =>
    dsimp only
    rw [← hc]
    by_cases hspace : isSpace c = true
    · rw [if_pos hspace]
      exact h.openSpace (by cases term <;> simp [Frame.components])
    · rw [if_neg hspace]
      have hahead : sight.ahead.any isSpace = false := by
        rw [hc]
        exact eq_false_of_ne_true hspace
      split
      · split
        · exact h.cut
        · exact h.openTerm hahead
      · obtain ⟨node', hadded, hkind, hrow⟩ := h.addMissingTerm sight.here
        split
        · have hawaits : (Frame.definition outer.size start none).Awaits (.mark [","])
              outer.size node' := by
            rintro ahead more ⟨data, rfl, hdata⟩
            exact Frame.Shape.fits_of_gap fun gap hgap =>
              ⟨rfl, hkind, hrow.snoc ⟨rfl, hdata⟩ hgap⟩
          exact (hadded.await _ hawaits).openLiteral hadded.carries
        · refine (hadded.respan (hadded.carries.withLast _)).leaveClosed ?_
          show node'.label.kind.Closed (node'.row outer.size)
          rw [hkind]
          exact ⟨by simp, by simp [Kind.bare], hrow, rfl⟩

/-! ### Lists of definitions -/

/-- A definition begins where one may stand: at the head of a list or behind a bar. -/
theorem Idle.openDefinition {here : Position}
    (h : Idle ahead tree (.definitions number .start) below node outer)
    (hahead : ahead.any isSpace = false) :
    Grown ahead (tree.pushChild number .definition (.point here))
      (.definition tree.size here none :: .definitions number .afterDefinition :: below) := by
  obtain ⟨rfl, hkind, hrow⟩ := h.fits.shape
  rw [h.carries.size_eq]
  have hawaits : (Frame.definitions outer.size .afterDefinition).Awaits (.node .definition)
      outer.size node := by
    rintro ahead more ⟨-, kind, rfl, hbare⟩
    have hshape : (Frame.definitions outer.size .afterDefinition).Shape outer.size node.label.kind
        (node.row outer.size ++ [⟨node.next outer.size, kind, ""⟩]) :=
      ⟨rfl, hkind, hrow.snoc hbare⟩
    exact hshape.fits (by simp [Frame.components])
  have hdefinition : (Frame.definition (Spine.size (node :: outer)) here none).Shape
      (Spine.size (node :: outer)) .definition [] := ⟨rfl, rfl, Or.inl rfl⟩
  exact .idle (Stacked.push .definition _ (h.await _ hawaits) h.carries (by simp) rfl
    (hdefinition.fits_of_ahead hahead))

/-- A list of definitions that ends with one is given to the production around it. -/
theorem OnTop.leaveDefinitions (h : OnTop tree below node outer)
    (hkind : node.label.kind = .definitionList)
    (hrow : Separated .definition Marks.separators (node.row outer.size)) :
    Grown ahead tree below := by
  refine h.leaveClosed ?_
  rw [hkind]
  exact ⟨nofun, nofun, hrow, rfl⟩

/-- Behind a separator another definition may stand, with white space in front of it. -/
theorem fits_start {row : List Child} {mark : Child} {kind : Kind}
    (hkind : kind = .definitionList) (hrow : Separated .definition Marks.separators row)
    (hmark : mark.IsMark Marks.separators) :
    (Frame.definitions number .start).Fits ahead number kind (row ++ [mark]) :=
  Frame.Shape.fits_of_gap fun _ hgap => ⟨rfl, hkind, hrow.snoc hmark hgap⟩

theorem grows_stepDefinitions {stage : ListStage}
    (h : Idle sight.ahead tree (.definitions number stage) below node outer) :
    (stepDefinitions sight tree below number stage).Grows sight.ahead := by
  unfold stepDefinitions
  match stage with
  | .start =>
    obtain ⟨rfl, -⟩ := h.fits.shape
    dsimp only
    split
    · exact h.openSpace (by simp [Frame.components])
    · rename_i hahead
      exact h.openDefinition (eq_false_of_ne_true hahead)
  | .afterDefinition =>
    obtain ⟨rfl, hkind, hrow⟩ := h.fits.shape
    have hlist := h.respan (h.carries.withLast sight.here.left)
    cases hc : sight.ahead with
    | none => exact hlist.leaveDefinitions hkind hrow
    | some c =>
      dsimp only
      rw [← hc]
      split
      · refine fun ahead => .idle ⟨hlist, ?_⟩
        exact Frame.Shape.fits ⟨rfl, hkind, hrow⟩ (by simp [Frame.components])
      · split
        · refine (hlist.await (.definitions outer.size .start) ?_).openLiteral hlist.carries
          rintro ahead more ⟨data, rfl, hdata⟩
          exact fits_start hkind hrow ⟨rfl, hdata⟩
        · exact hlist.leaveDefinitions hkind hrow
  | .afterSlash slash =>
    obtain ⟨rfl, hkind, hrow⟩ := h.fits.shape
    cases hc : sight.ahead with
    | none => exact h.cut
    | some c =>
      dsimp only
      split
      · have hlist := h.respan (h.carries.withLast slash.left)
        exact fun ahead => (hlist.leaveDefinitions hkind hrow).handOver _
      · refine .idle ⟨h.addLeaf .literal _ "/" rfl trivial, ?_⟩
        rw [OpenNode.row_add_bare]
        have hslash : "/" ∈ Marks.separators := by decide
        exact fits_start hkind hrow ⟨rfl, hslash⟩

/-! ### Products -/

/-- A product records its name, and then its equals sign begins, or the text is refused. -/
theorem grows_stepProduct_name {lhs : NodeId}
    (h : Idle sight.ahead tree (.product number lhs .name) below node outer) :
    (stepProduct sight tree below number lhs .name).Grows sight.ahead := by
  obtain ⟨rfl, ⟨held, hkind⟩, hrow⟩ := h.fits.shape
  have hproduct : OnTop (tree.withKind outer.size (.product (some lhs) none)) below
      ⟨{ node.label with kind := .product (some lhs) none }, node.below⟩ outer := by
    refine h.withKind (by rw [hkind]; rfl) fun component hcomponent => ?_
    obtain rfl := List.mem_singleton.mp hcomponent
    exact hrow.exists_of_link List.mem_cons_self rfl
  have hawaits : (Frame.product outer.size lhs .equals).Awaits (.mark ["="]) outer.size
      ⟨{ node.label with kind := .product (some lhs) none }, node.below⟩ := by
    rintro ahead more ⟨data, rfl, hdata⟩
    refine Frame.Shape.fits_of_gap fun gap hgap => ⟨rfl, rfl, ?_⟩
    exact (hrow.snoc (Slot.one_singleton ⟨rfl, hdata⟩)).snoc hgap
  unfold stepProduct
  dsimp only
  split
  · exact (hproduct.await _ hawaits).openLiteral hproduct.carries
  · exact grows_unexpected hproduct.cut

/-- The list of a product begins behind the equals sign and white space. -/
theorem grows_stepProduct_equals {lhs : NodeId}
    (h : Idle sight.ahead tree (.product number lhs .equals) below node outer) :
    (stepProduct sight tree below number lhs .equals).Grows sight.ahead := by
  obtain ⟨rfl, hkind, hrow⟩ := h.fits.shape
  have hawaits : (Frame.product outer.size lhs (.body tree.size none)).Awaits
      (.node .definitionList) outer.size node := by
    rintro ahead more ⟨-, kind, rfl, hbare⟩
    obtain rfl : kind = .definitionList := Kind.eq_of_bare hbare (by simp)
    refine Frame.Shape.fits ⟨rfl, ⟨none, hkind⟩, ?_⟩ (by simp [Frame.components])
    exact hrow.snoc (Slot.one_singleton ⟨rfl, congrArg some h.carries.size_eq⟩)
  unfold stepProduct
  dsimp only
  split
  · exact h.openSpace (by simp [Frame.components])
  · rename_i hahead
    exact (h.await _ hawaits).openDefinitions h.carries (eq_false_of_ne_true hahead)

/-- A product records its definitions, and then the mark at its end begins, unless they have ended
with the closer of a bracket. -/
theorem grows_stepProduct_body {lhs list : NodeId} {closer : Option Span}
    (h : Idle sight.ahead tree (.product number lhs (.body list closer)) below node outer) :
    (stepProduct sight tree below number lhs (.body list closer)).Grows sight.ahead := by
  obtain ⟨rfl, ⟨held, hkind⟩, hrow⟩ := h.fits.shape
  have hproduct : OnTop (tree.withKind outer.size (.product (some lhs) (some list))) below
      ⟨{ node.label with kind := .product (some lhs) (some list) }, node.below⟩ outer := by
    refine h.withKind (by rw [hkind]; rfl) fun component hcomponent => ?_
    rcases List.mem_cons.mp hcomponent with rfl | hcomponent
    · exact hrow.exists_of_link List.mem_cons_self rfl
    · obtain rfl := List.mem_singleton.mp hcomponent
      have hmem : Slot.one (fun child => child.kind = .definitionList ∧
          some component = some child.id) ∈ (productRule (some lhs) (some component)).take 5 := by
        simp [productRule]
      exact hrow.exists_of_link hmem rfl
  unfold stepProduct
  dsimp only
  cases closer with
  | some closer => exact hproduct.cut
  | none =>
    refine (hproduct.await _ (awaits_closing fun data hdata => ?_)).openLiteral hproduct.carries
    exact ⟨by simp, by simp [Kind.bare], hrow.snoc (Slot.one_singleton ⟨rfl, hdata⟩), rfl⟩

theorem grows_stepProduct {lhs : NodeId} {stage : ProductStage}
    (h : Idle sight.ahead tree (.product number lhs stage) below node outer) :
    (stepProduct sight tree below number lhs stage).Grows sight.ahead := by
  cases stage with
  | name => exact grows_stepProduct_name h
  | equals => exact grows_stepProduct_equals h
  | body list closer => exact grows_stepProduct_body h

/-- A product begins below the production that waits for it, and waits for its name. -/
theorem Stacked.openProduct {c : Char}
    (h : Stacked (some (.node (.product none none))) frames (node :: outer))
    (hcarries : tree.Carries (node :: outer)) (hletter : isLetter c = true) :
    (LosslessEbnf.openProduct sight tree frames outer.size c).Grows sight.ahead := by
  have hawaits : (Frame.product (Spine.size (node :: outer)) (Spine.size (node :: outer) + 1)
      .name).Awaits .name (Spine.size (node :: outer))
      (.bare ⟨.product none none, .point sight.here, ""⟩) := by
    rintro ahead more ⟨-, data, gap, rfl, hgap⟩
    have hname : Matches ((productRule (some (Spine.size (node :: outer) + 1)) none).take 1)
        [⟨Spine.size (node :: outer) + 1, .primary .identifier, data⟩] :=
      matches_single.mpr (Slot.one_singleton ⟨rfl, rfl⟩)
    exact Frame.Shape.fits ⟨rfl, ⟨none, rfl⟩, hname.snoc hgap⟩ (by simp [Frame.components])
  rw [openProduct_of_isLetter hletter, hcarries.size_eq]
  exact (Stacked.pushWaiting (.product none none) _ h (by simp) rfl hawaits).openIdentifier
    (hcarries.push _ _ _) hletter

/-! ### The whole text -/

/-- Nothing is around the whole text, so it is at the bottom of the stack. -/
theorem Idle.nothing_around {begun : Bool}
    (h : Idle ahead tree (.grammar begun) below node outer) : below = [] ∧ outer = [] := by
  have hrest := h.rest
  rw [h.fits.shape.1] at hrest
  cases hrest
  exact ⟨rfl, rfl⟩

/-- The whole text waits for comments and products, in any order and with white space between
them. -/
theorem Idle.awaits_item {begun : Bool} {item : Kind}
    (h : Idle ahead tree (.grammar begun) below node outer)
    (hitem : item ∈ [Kind.comment, .product none none]) :
    (Frame.grammar true).Awaits (.node item) outer.size node := by
  obtain ⟨hkind, hrow⟩ := h.fits.shape
  rintro ahead more ⟨-, kind, rfl, rfl⟩
  have hspace : kind ≠ .space := by
    rintro rfl
    simp [Kind.bare] at hitem
  have hmem : kind.bare ∈ [Kind.comment, .product none none, .space] :=
    (List.prefix_append [Kind.comment, .product none none] [.space]).subset hitem
  have hmixed : Slot.mixed [.comment, .product none none, .space] .space
      (node.row outer.size ++ [⟨node.next outer.size, kind, ""⟩]) :=
    Slot.mixed_snoc (matches_single.mp hrow) hmem fun _ _ _ => hspace
  refine ⟨⟨hkind, matches_single.mpr hmixed⟩, fun _ _ blank hblank => ⟨hkind, ?_⟩⟩
  rw [rootRule, matches_single]
  refine Slot.mixed_snoc hmixed (by simp [hblank, Kind.bare]) fun last hlast hlastSpace => ?_
  rw [List.getLast?_concat] at hlast
  obtain rfl := Option.some.inj hlast
  exact absurd hlastSpace hspace

/-- The whole text is complete when nothing else is open, and its children are those of a text. -/
theorem OnTop.complete (h : OnTop tree [] node []) (hkind : node.label.kind = .root)
    (hrow : Matches rootRule (node.row 0)) : tree.Complete := by
  refine ⟨node, h.carries, hkind, ⟨?_, ?_⟩, h.sound.formed⟩
  · rw [hkind]
    exact hrow
  · rw [hkind]
    exact h.sound.data

theorem grows_stepGrammar {begun : Bool}
    (h : Idle sight.ahead tree (.grammar begun) below node outer) :
    (stepGrammar limit sight tree below begun).Grows sight.ahead := by
  obtain ⟨rfl, rfl⟩ := h.nothing_around
  obtain ⟨hkind, hrow⟩ := h.fits.shape
  unfold stepGrammar
  cases begun with
  | true =>
    rw [if_pos rfl]
    cases hc : sight.ahead with
    | none => exact (h.respan (h.carries.withLast sight.here)).complete hkind hrow
    | some c =>
      dsimp only
      rw [← hc]
      split
      · exact (h.await _ (h.awaits_item (by simp))).openComment h.carries
      · split
        · rename_i hletter
          exact (h.await _ (h.awaits_item (by simp))).openProduct h.carries hletter
        · split
          · exact h.openSpace (by simp [Frame.components])
          · exact grows_unexpected h.cut
  | false =>
    rw [if_neg Bool.false_ne_true]
    cases hc : sight.ahead with
    | none => exact (h.respan (h.carries.withSpan _)).complete hkind hrow
    | some c =>
      dsimp only
      rw [← hc]
      exact .idle ⟨h.respan (h.carries.withFirst _), h.fits.imp id fun _ hshape => hshape⟩

/-! ### Every step -/

/-- Every step keeps what the nodes of the open productions have. There is one case for each
production. -/
theorem grows_step (limit : Nat) (h : Grown sight.ahead tree frames) :
    (step limit sight tree frames).Grows sight.ahead := by
  cases h with
  | @idle frame below node outer h =>
    cases frame with
    | grammar begun => exact grows_stepGrammar h
    | comment id text stage => exact grows_stepComment h
    | product id lhs stage => exact grows_stepProduct h
    | definitions id stage => exact grows_stepDefinitions h
    | definition id start term => exact grows_stepDefinition h
    | term id parts dash => exact grows_stepTerm h
    | exception id term primary => exact grows_stepException h
    | repetition id => exact grows_stepRepetition h
    | bracket b id stage => exact grows_stepBracket h
    | quoted form id text =>
      cases text with
      | none => exact grows_stepQuoted_begin h
      | some run => exact h.fits.shape.elim
    | closing id => exact grows_stepClosing h
    | paren | opener | identifier | run | literal | matched => exact h.fits.shape.elim
  | paren carries parent_eq rest => exact grows_stepParen carries parent_eq rest
  | opener carries parent_eq rest => exact grows_stepOpener carries parent_eq rest
  | quoted fill run_eq top_eq kind free => exact grows_stepQuoted fill run_eq top_eq kind free
  | run fill id_eq kind nonempty holds => exact grows_stepRun fill id_eq kind nonempty holds
  | identifier fill id_eq parent_eq kind name =>
    exact grows_stepIdentifier fill id_eq parent_eq kind name
  | literal fill id_eq kind best_mem => exact grows_stepLiteral fill id_eq kind best_mem
  | matched fill id_eq kind text_mem => exact grows_stepMatched fill id_eq kind text_mem

end

end LosslessEbnf
